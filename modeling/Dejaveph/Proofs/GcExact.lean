import Dejaveph.Proofs.DedupSound
import Dejaveph.Server.Alone

namespace Dejaveph.Proofs.GcExact
open Lib Server

variable {Hash : Type} [DecidableEq Hash] {core : XetCore Hash} {publicBase : String}

theorem deleteAll_lookup {xs : List (Hash × Io)} {fs : LocalFs Hash} {k : Hash}
    (hk : ∀ p ∈ xs, p.1 ≠ k) :
    (deleteAll (localFs core publicBase) fs xs).files.lookup k = fs.files.lookup k := by
  induction xs generalizing fs with
  | nil => rfl
  | cons p xs ih =>
    refine (ih (fun q hq => hk q (by simp [hq]))).trans ?_
    exact LocalFs.delete_lookup (Ne.symm (hk p (by simp)))

/-- What a collection leaves: the xorbs that a term of a file names, the entries
of the dedup index into them, and the rest as it was. -/
structure Collected (core : XetCore Hash) (publicBase : String)
    (app app' : AppState Hash (LocalFs Hash)) (swept : ℕ) : Prop where
  xorbs : ∀ x xorbMeta, app'.index.xorbs.lookup x = some xorbMeta ↔
    app.index.xorbs.lookup x = some xorbMeta ∧
      ∃ fh file, app.index.files.lookup fh = some file ∧ ∃ t ∈ file.terms, t.xorb = x
  chunks : ∀ h loc, app'.index.chunkIndex.lookup h = some loc ↔
    app.index.chunkIndex.lookup h = some loc ∧ loc.xorb ∈ app'.index.xorbs
  files : app'.index.files = app.index.files
  catalog : app'.index.catalog = app.index.catalog
  blobs : ∀ fh file, app.index.files.lookup fh = some file → ∀ t ∈ file.terms,
    app'.blob.files.lookup t.xorb = app.blob.files.lookup t.xorb
  swept : swept = (app.index.xorbs.keys.filter (fun x => x ∉ app'.index.xorbs)).length
  reconstructs : ∀ hex, (respond core (localFs core publicBase) app' (.reconstruct hex)).map
    Prod.snd = (respond core (localFs core publicBase) app (.reconstruct hex)).map Prod.snd

section
variable {idx : Index Hash} {order : List Hash}

theorem collectTerms_congr {idx' : Index Hash} {ts : List (Term Hash)}
    (h : ∀ t ∈ ts, idx'.xorbs.lookup t.xorb = idx.xorbs.lookup t.xorb) :
    collectTerms idx' ts = collectTerms idx ts := by
  induction ts with
  | nil => rfl
  | cons t ts ih =>
    simp only [collectTerms, h t (by simp), ih (fun u hu => h u (by simp [hu]))]

theorem sweep_referenced {x : Hash} (hx : x ∈ referenced idx) :
    (sweep idx (garbage idx order)).xorbs.lookup x = idx.xorbs.lookup x := by
  rw [sweep_xorbs, if_neg]
  intro hg
  exact of_decide_eq_true (List.mem_filter.mp hg).2 hx

theorem collect_swept (fh : Hash) :
    collect (sweep idx (garbage idx order)) fh = collect idx fh := by
  simp only [collect, sweep_files]
  cases hf : idx.files.lookup fh with
  | none => rfl
  | some file =>
    exact collectTerms_congr (fun t ht =>
      sweep_referenced (mem_referenced.mpr ⟨fh, file, hf, t, ht, rfl⟩))

theorem garbage_length (all : order.Perm idx.xorbs.keys) : (garbage idx order).length =
    (idx.xorbs.keys.filter (fun x => x ∉ (sweep idx (garbage idx order)).xorbs)).length := by
  have hlen : (garbage idx order).length =
      (idx.xorbs.keys.filter (fun x => x ∉ referenced idx)).length := (all.filter _).length_eq
  rw [hlen]
  refine congrArg List.length (List.filter_congr ?_)
  intro x hx
  rw [decide_eq_decide, mem_collected all]
  have hm := AList.mem_keys.mp hx
  constructor
  · intro h h'
    exact h h'.2
  · intro h hr
    exact h ⟨hm, hr⟩

end

/-- Two states whose files are collected alike reconstruct alike. -/
theorem respond_reconstruct {app app' : AppState Hash (LocalFs Hash)}
    (hp : app'.poisoned = app.poisoned)
    (hc : ∀ fh, collect app'.index fh = collect app.index fh) (hex : String) :
    (respond core (localFs core publicBase) app' (.reconstruct hex)).map Prod.snd =
      (respond core (localFs core publicBase) app (.reconstruct hex)).map Prod.snd := by
  rw [respond_collected publicBase hp hc, Option.map_map]
  rfl

/-- A collection that is served alone is exact. -/
theorem serves_collected {app app' : AppState Hash (LocalFs Hash)} {P : Choice Hash → Prop}
    {a : Answer} (hs : DedupSound.Sound core app.index)
    (h : Serves core (localFs core publicBase) P app .gc a app') :
    ∃ swept, a = .gc swept ∧ Collected core publicBase app app' swept := by
  obtain ⟨order, all, rfl, ios, _, _, rfl⟩ := completes_gc h
  have hmem : ∀ {x}, x ∈ referenced app.index ↔
      ∃ fh file, app.index.files.lookup fh = some file ∧ ∃ t ∈ file.terms, t.xorb = x :=
    mem_referenced
  refine ⟨_, rfl, ?_, ?_, sweep_files _ _, sweep_catalog _ _, ?_, garbage_length all, ?_⟩
  · intro x xorbMeta
    rw [← hmem]
    constructor
    · intro hx
      have hr := ((mem_collected all).mp (Table.mem_of_lookup hx)).2
      exact ⟨(sweep_referenced hr).symm.trans hx, hr⟩
    · rintro ⟨hx, hr⟩
      exact (sweep_referenced hr).trans hx
  · intro k loc
    rw [sweep_chunkIndex, Option.filter_eq_some_iff, decide_eq_true_eq]
    refine and_congr_right (fun hl => ?_)
    rw [mem_garbage all, mem_collected all]
    have hx := (hs.entries k loc hl).1
    simp [hx]
  · intro fh file hf t ht
    apply deleteAll_lookup
    intro p hp he
    have hg := (List.of_mem_zip (a := p.1) (b := p.2) hp).1
    exact ((mem_garbage all).mp hg).2 (hmem.mpr ⟨fh, file, hf, t, ht, he.symm⟩)
  · exact respond_reconstruct rfl collect_swept

theorem serves_again {app app' app'' : AppState Hash (LocalFs Hash)} {P P' : Choice Hash → Prop}
    {a a' : Answer} (h : Serves core (localFs core publicBase) P app .gc a app')
    (h' : Serves core (localFs core publicBase) P' app' .gc a' app'') : a' = .gc 0 := by
  obtain ⟨order, all, _, _, _, _, rfl⟩ := completes_gc h
  obtain ⟨order', all', rfl, _⟩ := completes_gc h'
  have hnone : garbage (sweep app.index (garbage app.index order)) order' = [] := by
    rw [List.eq_nil_iff_forall_not_mem]
    intro x hx
    obtain ⟨hm, hr⟩ := (mem_garbage all').mp hx
    rw [referenced, sweep_files] at hr
    exact hr ((mem_collected all).mp hm).2
  rw [hnone]
  rfl

/-- Over every reachable index and store a collection that runs alone ends, with
whatever outcomes of its deletions, it removes exactly the garbage, and a second
one finds none. -/
theorem gc_exact (gate : core.GateLaws) (fs : LocalFs Hash) (labels : List (Label Hash))
    (s : State Hash (LocalFs Hash))
    (run : Run.exec (step core (localFs core publicBase)) (boot fs) labels = some s)
    (metrics : Metrics) :
    (∀ order, order.Perm s.app.index.xorbs.keys → ∀ ios : List Io,
      ios.length = (garbage s.app.index order).length → ∃ app',
        Serves core (localFs core publicBase) (fun _ => True)
          ⟨s.app.blob, s.app.index, false, metrics⟩ .gc
          (.gc (garbage s.app.index order).length) app' ∧
        app'.blob = deleteAll (localFs core publicBase) s.app.blob
          ((garbage s.app.index order).zip ios)) ∧
    ∀ P a app', Serves core (localFs core publicBase) P
      ⟨s.app.blob, s.app.index, false, metrics⟩ .gc a app' →
      (∃ swept, a = .gc swept ∧
        Collected core publicBase ⟨s.app.blob, s.app.index, false, metrics⟩ app' swept) ∧
      ∀ P' a' app'', Serves core (localFs core publicBase) P' app' .gc a' app'' → a' = .gc 0 := by
  have hs := (DedupSound.run_invariant gate run).sound
  constructor
  · intro order all ios hlen
    have clean : (AppState.mk s.app.blob s.app.index false metrics).poisoned = false := rfl
    exact ⟨_, gc_completes clean all hlen (fun _ _ _ => trivial), rfl⟩
  · intro P a app' h
    exact ⟨serves_collected hs h, fun P' a' app'' h' => serves_again h h'⟩

/-- Two uploads, and a file that names the second. -/
def twoUploads : List (Label Plain.PlainHash) :=
  .request 0 (.putXorb "default" (Plain.hex [1, 1]) [0, 1, 1, 2]) ::
    .request 1 (.putXorb "default" (Plain.hex [1, 2]) [0, 1, 2, 2]) ::
    .request 2 (.registerFile ⟨Plain.hex [7], 1, [⟨Plain.hex [1, 2], 0, 1, 1⟩], some "vol",
      some "/f"⟩) ::
    (List.replicate 5 (.step 0 {}) ++ List.replicate 5 (.step 1 {}) ++ [.step 2 {}])

/-- The deletion of the garbage fails, and it is collected all the same. -/
theorem gc_exact_two : ∃ s app', Run.exec (step Plain.plain (localFs Plain.plain ""))
      (boot {}) twoUploads = some s ∧
    Serves Plain.plain (localFs Plain.plain "") (fun _ => True)
      ⟨s.app.blob, s.app.index, false, {}⟩ .gc (.gc 1) app' ∧
    ∃ swept, Answer.gc 1 = .gc swept ∧
      Collected Plain.plain "" ⟨s.app.blob, s.app.index, false, {}⟩ app' swept := by
  have hrun : (Run.exec (step Plain.plain (localFs Plain.plain "")) (boot {}) twoUploads).map
      (fun s => (s.app.index.xorbs.keys, garbage s.app.index s.app.index.xorbs.keys)) =
        some ([[1, 2], [1, 1]], [[1, 1]]) := by decide
  obtain ⟨s, hs, he⟩ := Option.map_eq_some_iff.mp hrun
  obtain ⟨_, hg⟩ := Prod.mk.inj he
  obtain ⟨hends, hexact⟩ := gc_exact Plain.plain_gate {} twoUploads s hs {}
  obtain ⟨app', hserves, _⟩ := hends _ (.refl _) [.fail "busy" none] (by rw [hg]; rfl)
  rw [hg] at hserves
  exact ⟨s, app', hs, hserves, (hexact _ _ _ hserves).1⟩

end Dejaveph.Proofs.GcExact

import Dejaveph.PlainCore
import Dejaveph.Server.Alone

namespace Dejaveph.Proofs.ScrubExact
open Lib Server

variable {Hash : Type} [DecidableEq Hash] {core : XetCore Hash} {publicBase : String}
  {app app' : AppState Hash (LocalFs Hash)} {a : Answer}

/-- There is no blob under the hash, or its bytes are not accepted for it. -/
def damaged (core : XetCore Hash) (fs : LocalFs Hash) (x : Hash) : Bool :=
  match fs.files.lookup x with
  | none => true
  | some bytes =>
    match core.validateXorbObject bytes x with
    | .ok (some _) => false
    | _ => true

theorem damaged_eq_false {fs : LocalFs Hash} {x : Hash} : damaged core fs x = false ↔
    ∃ bytes info, fs.files.lookup x = some bytes ∧
      core.validateXorbObject bytes x = .ok (some info) := by
  unfold damaged
  constructor
  · intro h
    split at h
    · cases h
    · rename_i bytes hb
      split at h
      · rename_i info hv
        exact ⟨bytes, info, hb, hv⟩
      · cases h
  · rintro ⟨bytes, info, hb, hv⟩
    rw [hb]
    simp only [hv]

/-- The files are no longer than a 64-bit length can tell. -/
def Measured (fs : LocalFs Hash) : Prop :=
  ∀ x bytes, fs.files.lookup x = some bytes → bytes.length < 2 ^ 64

theorem readRange_whole {data : Bytes} (h : data.length < 2 ^ 64) :
    readRange data 0 (data.length - 1) = some data := by
  have hbound : ¬ 2 ^ 64 ≤ data.length - 1 + 1 := by omega
  have hend : min (data.length - 1 + 1) data.length = data.length := by omega
  simp only [readRange, if_neg hbound, hend, Nat.zero_min, Nat.max_zero, Pieces.slice_zero]

section
variable {checked quarantined : ℕ} {x : Hash} {todo : List Hash}

theorem completes_scrubRead {data : Bytes} (hb : app.blob.files.lookup x = some data)
    (hlen : data.length < 2 ^ 64) :
    Completes core (localFs core publicBase) Choice.Works app
        (.scrubRead checked quarantined x data.length todo) a app' ↔
      Completes core (localFs core publicBase) Choice.Works app
        (scrubNext checked (quarantined + (damaged core app.blob x).toNat) todo) a app' := by
  refine completes_iff (P := Choice.Works) (c := {}) rfl rfl ?_
  intro c hc
  have hio : c.io = .ok := hc
  simp only [advance, localFs, LocalFs.getRange, hio, hb, readRange_whole hlen, Option.map_some,
    damaged]
  rcases core.validateXorbObject data x with _ | (_ | info) <;> rfl

theorem completes_scrubHead (hm : Measured app.blob) :
    Completes core (localFs core publicBase) Choice.Works app
        (.scrubHead checked quarantined x todo) a app' ↔
      Completes core (localFs core publicBase) Choice.Works app
        (scrubNext checked (quarantined + (damaged core app.blob x).toNat) todo) a app' := by
  cases hb : app.blob.files.lookup x with
  | none =>
    have hdamaged : damaged core app.blob x = true := by rw [damaged, hb]
    rw [hdamaged]
    refine completes_iff (P := Choice.Works) (c := {}) rfl rfl ?_
    intro c hc
    have hio : c.io = .ok := hc
    simp only [advance, localFs, LocalFs.head, hio, hb, Option.map_none, Bool.toNat_true]
  | some data =>
    refine Iff.trans ?_ (completes_scrubRead hb (hm x data hb))
    refine completes_iff (P := Choice.Works) (c := {}) rfl rfl ?_
    intro c hc
    have hio : c.io = .ok := hc
    simp only [advance, localFs, LocalFs.head, hio, hb, Option.map_some]

theorem completes_scrubNext (hm : Measured app.blob) :
    Completes core (localFs core publicBase) Choice.Works app (scrubNext checked quarantined todo) a
        app' ↔
      a = .scrub (checked + todo.length) (quarantined + todo.countP (damaged core app.blob)) ∧
        app' = app := by
  induction todo generalizing checked quarantined with
  | nil =>
    constructor
    · exact completes_reply
    · rintro ⟨rfl, rfl⟩
      exact .reply _ _
  | cons x todo ih =>
    refine (completes_scrubHead hm).trans (ih.trans ?_)
    rw [List.length_cons, List.countP_cons, Nat.add_assoc, Nat.add_assoc, Nat.add_comm 1]
    cases damaged core app.blob x <;> simp [Nat.add_comm 1]

/-- A scrub alone comes to its response in whatever order it walks the index, and
the response does not depend on it. -/
theorem serves_scrub (clean : app.poisoned = false) (hm : Measured app.blob) {order : List Hash}
    (all : order.Perm app.index.xorbs.keys) :
    Serves core (localFs core publicBase) Choice.Works app .scrub a app' ↔
      a = .scrub app.index.xorbs.keys.length
          (app.index.xorbs.keys.countP (damaged core app.blob)) ∧ app' = app := by
  have hcount : ∀ {order : List Hash}, order.Perm app.index.xorbs.keys →
      (Completes core (localFs core publicBase) Choice.Works app (scrubNext 0 0 order) a app' ↔
        a = .scrub app.index.xorbs.keys.length
          (app.index.xorbs.keys.countP (damaged core app.blob)) ∧ app' = app) := by
    intro order all
    rw [completes_scrubNext hm, Nat.zero_add, Nat.zero_add, all.length_eq, all.countP_eq]
  change Completes core (localFs core publicBase) Choice.Works app .scrubLock a app' ↔ _
  constructor
  · intro h
    obtain ⟨c, p, _, hp, h⟩ := completes_next rfl h
    simp only [advance] at hp
    split at hp
    · rename_i hall
      obtain ⟨_, h⟩ := completes_lock (Option.some.inj hp) h
      exact (hcount hall).mp h
    · cases hp
  · intro h
    have hlock : advance core (localFs core publicBase) ⟨.ok, order⟩ app .scrubLock =
        some (app, scrubNext 0 0 order) := by
      simp only [advance, lock, clean, Bool.false_eq_true, ↓reduceIte, all]
    exact .step ⟨.ok, order⟩ rfl hlock ((hcount all).mpr h)

end

/-- Every indexed xorb is stored under its hash, as the gate let it through. -/
def Clean (core : XetCore Hash) (app : AppState Hash (LocalFs Hash)) : Prop :=
  ∀ x ∈ app.index.xorbs, damaged core app.blob x = false

theorem damaged_congr {fs fs' : LocalFs Hash} {x : Hash}
    (h : fs'.files.lookup x = fs.files.lookup x) : damaged core fs' x = damaged core fs x := by
  rw [damaged, damaged, h]

theorem Clean.put {hash : Hash} {info : XorbObjectInfoV1 Hash} {bytes : Bytes}
    (hc : Clean core app) (hv : core.validateXorbObject bytes hash = .ok (some info))
    (h : Completes core (localFs core publicBase) Choice.Works app
      (.putStore hash info (PutCall.start hash bytes)) a app') : Clean core app' := by
  obtain ⟨_, rfl, _⟩ | ⟨_, _, hb, hi⟩ := completes_put h
  · exact hc
  · intro x hx
    by_cases he : x = hash
    · subst he
      exact damaged_eq_false.mpr ⟨bytes, info, by rw [hb, AList.lookup_insert], hv⟩
    · rw [(indexXorb_spec hi).1, Table.mem_orInsert] at hx
      have hold : app'.blob.files.lookup x = app.blob.files.lookup x := by
        rw [hb, AList.lookup_insert_ne he]
      exact (damaged_congr hold).trans (hc x (hx.resolve_left he))

theorem Clean.gc (hc : Clean core app)
    (h : Serves core (localFs core publicBase) Choice.Works app .gc a app') : Clean core app' := by
  obtain ⟨order, all, hi, hb⟩ := serves_gc h
  intro x hx
  rw [hi, mem_collected all] at hx
  have hkept : x ∉ garbage app.index order := fun hg => ((mem_garbage all).mp hg).2 hx.2
  exact (damaged_congr ((hb x).trans (if_neg hkept))).trans (hc x hx.1)

theorem Clean.serves (hc : Clean core app) {r : Request}
    (h : Serves core (localFs core publicBase) Choice.Works app r a app') : Clean core app' := by
  cases serves_outcome h with
  | put ns hashHex body hash info _ _ accepted done => exact hc.put (gate_commits accepted).2 done
  | registered req fh result idx done =>
    obtain ⟨_, _, _, hx, _⟩ := registerFile_spec done
    intro x hm
    exact hc x (hx ▸ hm)
  | collected => exact hc.gc h
  | unchanged _ _ _ _ hi hb =>
    intro x hx
    rw [hb]
    exact hc x (hi ▸ hx)

/-- Requests that are served one after another from an empty server leave it
clean and its mutex sound. -/
theorem runs_clean {requests : List Request} {answers : List Answer}
    (run : Run.Runs (Serves core (localFs core publicBase) Choice.Works) { blob := {} } requests
      answers app) : Clean core app ∧ app.poisoned = false := by
  refine Run.Runs.invariant (I := fun app => Clean core app ∧ app.poisoned = false) ?_ ?_ run
  · intro app1 r a app2 hi h
    exact ⟨hi.1.serves h, (completes_poisoned h).trans hi.2⟩
  · exact ⟨fun x hx => absurd hx (AList.notMem_empty x), rfl⟩

/-- Whatever the stored blobs have become since the requests were answered, a
scrub comes to its response, counts all indexed xorbs and the damaged ones, and
changes nothing. It counts none where no blob has changed. -/
theorem scrub_exact {requests : List Request} {answers : List Answer}
    (run : Run.Runs (Serves core (localFs core publicBase) Choice.Works) { blob := {} } requests
      answers app) (fs : LocalFs Hash) (measured : Measured fs) :
    (∀ a app', Serves core (localFs core publicBase) Choice.Works { app with blob := fs } .scrub a
        app' ↔
      a = .scrub app.index.xorbs.keys.length
        (app.index.xorbs.keys.countP (damaged core fs)) ∧ app' = { app with blob := fs }) ∧
    ((∀ x, fs.files.lookup x = app.blob.files.lookup x) → ∀ a app',
      Serves core (localFs core publicBase) Choice.Works { app with blob := fs } .scrub a app' →
      a = .scrub app.index.xorbs.keys.length 0) := by
  obtain ⟨clean, sound⟩ := runs_clean run
  have hserves : ∀ a app', Serves core (localFs core publicBase) Choice.Works
      { app with blob := fs } .scrub a app' ↔ a = .scrub app.index.xorbs.keys.length
        (app.index.xorbs.keys.countP (damaged core fs)) ∧ app' = { app with blob := fs } :=
    fun a app' => serves_scrub sound measured (.refl _)
  refine ⟨hserves, ?_⟩
  intro same a app' h
  have hnone : app.index.xorbs.keys.countP (damaged core fs) = 0 := by
    rw [List.countP_eq_zero]
    intro x hx
    rw [damaged_congr (same x), clean x (AList.mem_keys.mp hx)]
    exact Bool.false_ne_true
  rw [((hserves a app').mp h).1, hnone]

/-- Two stored chunks, and a file that names the second. -/
def twoBlobs : List Request :=
  [.putXorb "default" (Plain.hex [1, 5]) [0, 1, 5, 2],
    .putXorb "default" (Plain.hex [1, 6]) [0, 1, 6, 2],
    .putXorb "default" (Plain.hex [1, 5]) [0, 1, 5, 2],
    .registerFile ⟨Plain.hex [7], 1, [⟨Plain.hex [1, 6], 0, 1, 1⟩], some "vol", some "/f"⟩]

/-- The first blob has become the empty file. -/
theorem scrub_exact_emptied : ∃ answers app fs,
    Run.Runs (Serves Plain.plain (localFs Plain.plain "") Choice.Works) { blob := {} } twoBlobs
      answers app ∧ fs.files.lookup [1, 5] = some [] ∧
    Serves Plain.plain (localFs Plain.plain "") Choice.Works { app with blob := fs } .scrub
      (.scrub 2 1) { app with blob := fs } := by
  have hrun : (serveAll Plain.plain (localFs Plain.plain "") 9 { blob := {} } twoBlobs).any
      (fun p => p.1.index.xorbs.keys.length = 2 &&
        p.1.index.xorbs.keys.countP (damaged Plain.plain
          { p.1.blob with files := p.1.blob.files.insert [1, 5] [] }) = 1 &&
        (p.1.blob.files.insert [1, 5] []).entries.all (fun e => e.2.length < 2 ^ 64)) = true := by
    decide
  simp only [Option.any_eq_true, Bool.and_eq_true, decide_eq_true_eq, List.all_eq_true] at hrun
  obtain ⟨⟨app, answers⟩, hs, ⟨hlen, hcount⟩, hshort⟩ := hrun
  have hruns : Run.Runs (Serves Plain.plain (localFs Plain.plain "") Choice.Works)
      { blob := {} } twoBlobs answers app := serveAll_serves (fun _ => rfl) hs
  obtain ⟨hexact, _⟩ := scrub_exact hruns
    { app.blob with files := app.blob.files.insert [1, 5] [] }
    (fun x bytes hb => hshort ⟨x, bytes⟩ (Table.lookup_eq_some.mp hb))
  refine ⟨answers, app, _, hruns, AList.lookup_insert app.blob.files, (hexact _ _).mpr ⟨?_, rfl⟩⟩
  rw [hlen, hcount]

end Dejaveph.Proofs.ScrubExact

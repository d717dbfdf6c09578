import Dejaveph.PlainCore
import Dejaveph.Server.Alone

namespace Dejaveph.Proofs.DedupComplete
open Lib Server

variable {Hash β : Type} [DecidableEq Hash] {core : XetCore Hash} {store : BlobStore Hash β}
  {P : Choice Hash → Prop}

/-- Every chunk of every indexed xorb has an entry in the dedup index. -/
def Complete (core : XetCore Hash) (idx : Index Hash) : Prop :=
  ∀ x info h, x ∈ idx.xorbs → core.Commits x info → h ∈ info.chunkHashes → h ∈ idx.chunkIndex

/-- No entry that a collection drops is for a chunk of a xorb that it keeps. -/
def Spares (core : XetCore Hash) (app : AppState Hash β) (r : Request) : Prop :=
  r = .gc → ∀ h loc, app.index.chunkIndex.lookup h = some loc → loc.xorb ∈ app.index.xorbs →
    loc.xorb ∉ referenced app.index → ∀ x info, x ∈ app.index.xorbs → x ∈ referenced app.index →
      core.Commits x info → h ∉ info.chunkHashes

theorem Complete.indexXorb {idx idx' : Index Hash} (gate : core.GateLaws)
    (hi : Complete core idx) {x : Hash} {info : XorbObjectInfoV1 Hash}
    (hc : core.Commits x info) (h : indexXorb idx x info = some idx') : Complete core idx' := by
  obtain ⟨hx, _, _, hm⟩ := indexXorb_spec h
  intro y info' k hy hc' hk
  rw [hx, Table.mem_orInsert] at hy
  rcases hy with rfl | hy
  · rw [(gate.one_list _ _ _ hc' hc).1] at hk
    exact Index.indexChunksFrom_covers hm hk
  · obtain ⟨loc, hl⟩ := Table.mem_iff.mp (hi y info' k hy hc' hk)
    exact Table.mem_of_lookup (Index.indexChunksFrom_keeps hm hl)

/-- A collection keeps the dedup index complete exactly when it spares it. -/
theorem Complete.collected {app : AppState Hash β} {order : List Hash}
    (hi : Complete core app.index) (all : order.Perm app.index.xorbs.keys) :
    Complete core (sweep app.index (garbage app.index order)) ↔ Spares core app .gc := by
  constructor
  · intro hc _ h loc hl hlx hlr x info hx hr hcommits hh
    have hin := hc x info h ((mem_collected all).mpr ⟨hx, hr⟩) hcommits hh
    obtain ⟨loc', hl'⟩ := Table.mem_iff.mp hin
    rw [sweep_chunkIndex, hl] at hl'
    obtain ⟨he, hkeep⟩ := Option.filter_eq_some_iff.mp hl'
    obtain rfl := Option.some.inj he
    exact of_decide_eq_true hkeep ((mem_garbage all).mpr ⟨hlx, hlr⟩)
  · intro hs x info h hx hcommits hh
    obtain ⟨hx, hr⟩ := (mem_collected all).mp hx
    obtain ⟨loc, hl⟩ := Table.mem_iff.mp (hi x info h hx hcommits hh)
    refine Table.mem_iff.mpr ⟨loc, ?_⟩
    rw [sweep_chunkIndex, hl]
    refine Option.filter_eq_some_iff.mpr ⟨rfl, decide_eq_true ?_⟩
    intro hg
    obtain ⟨hlx, hlr⟩ := (mem_garbage all).mp hg
    exact hs rfl h loc hl hlx hlr x info hx hr hcommits hh

/-- What one request that is served alone does to the completeness. -/
theorem Complete.serves (gate : core.GateLaws) {app app' : AppState Hash β} {r : Request}
    {a : Answer} (hi : Complete core app.index) (hs : Serves core store P app r a app') :
    Complete core app'.index ↔ Spares core app r := by
  have hchange := serves_index hs
  generalize app'.index = idx' at hchange ⊢
  cases hchange with
  | same _ other => exact ⟨fun _ h => absurd h other, fun _ => hi⟩
  | uploaded _ hash info _ other commits done =>
    exact ⟨fun _ h => absurd h other, fun _ => hi.indexXorb gate commits done⟩
  | registered _ fh req result _ other done =>
    refine ⟨fun _ h => absurd h other, fun _ => ?_⟩
    obtain ⟨_, _, _, hx, hch⟩ := registerFile_spec done
    intro x info h hm
    rw [hx] at hm
    rw [hch]
    exact hi x info h hm
  | collected order all => exact hi.collected all

theorem reported (hx : core.HexLaws) {app : AppState Hash β} (clean : app.poisoned = false)
    {h : Hash} (hm : h ∈ app.index.chunkIndex) (ns : String) : ∃ hit app',
      respond core store app (.globalDedup ns (core.hex h)) =
        some (app', .globalDedup (.ok hit)) := by
  obtain ⟨loc, hl⟩ := Table.mem_iff.mp hm
  simp only [respond, start, hx.from_hex, runAlone, advance, lock, clean, Bool.false_eq_true,
    ↓reduceIte, Option.bind_some, hl, dedupAnswer]
  exact ⟨_, _, rfl⟩

/-- Over any requests that are served one after another, when each collection
spares the index: the dedup index has every chunk of every indexed xorb, and
reports it. A collection that does not spare it breaks this. -/
theorem dedup_index_complete (gate : core.GateLaws) (hx : core.HexLaws) (blob : β)
    (requests : List Request) (answers : List Answer) (app : AppState Hash β)
    (run : Run.Runs (fun app r a app' => Spares core app r ∧ Serves core store P app r a app')
      { blob } requests answers app) :
    Complete core app.index ∧
    (∀ x info h ns, x ∈ app.index.xorbs → core.Commits x info → h ∈ info.chunkHashes →
      ∃ hit app', respond core store app (.globalDedup ns (core.hex h)) =
        some (app', .globalDedup (.ok hit))) ∧
    ∀ a app', Serves core store P app .gc a app' →
      (Complete core app'.index ↔ Spares core app .gc) := by
  have hi : Complete core app.index ∧ app.poisoned = false := by
    refine Run.Runs.invariant (I := fun app : AppState Hash β =>
      Complete core app.index ∧ app.poisoned = false) ?_ ⟨?_, rfl⟩ run
    · rintro app r a app' ⟨hi, hp⟩ ⟨hspares, hs⟩
      exact ⟨(hi.serves gate hs).mpr hspares, (completes_poisoned hs).trans hp⟩
    · intro x info h hm
      exact absurd hm (AList.notMem_empty x)
  refine ⟨hi.1, ?_, fun a app' hs => hi.1.serves gate hs⟩
  intro x info h ns hm hc hh
  exact reported hx hi.2 (hi.1 x info h hm hc hh) ns

/-- Two uploads that share a chunk, a file, and a collection. -/
def sharedChunk (file : RegisterTerm) : List Request :=
  [.putXorb "default" (Plain.hex [1, 1, 1, 2]) [0, 1, 1, 0, 1, 2, 2],
    .putXorb "default" (Plain.hex [1, 2, 1, 3]) [0, 1, 2, 0, 1, 3, 2],
    .registerFile ⟨Plain.hex [7], 2, [file], some "vol", some "/f"⟩, .gc]

/-- In the only collection of the run the file is the first xorb, which has no
chunk of the second one's entry. -/
def sparesFirst (app : AppState Plain.PlainHash (LocalFs Plain.PlainHash)) : Request → Bool
  | .gc => app.index.chunkIndex.keys = [[3], [2], [1]] &&
      app.index.chunkIndex.lookup [1] = some ⟨[1, 1, 1, 2], 0, 1⟩ &&
      app.index.chunkIndex.lookup [2] = some ⟨[1, 1, 1, 2], 1, 1⟩ &&
      referenced app.index = [[1, 1, 1, 2]]
  | _ => true

theorem commits_first : Plain.plain.Commits [1, 1, 1, 2] ⟨2, [[1], [2]], [3, 6], [1, 2]⟩ :=
  ⟨[0, 1, 1, 0, 1, 2, 2], by decide⟩

theorem sparesFirst_sound {app : AppState Plain.PlainHash (LocalFs Plain.PlainHash)} {r : Request}
    (h : sparesFirst app r = true) : Spares Plain.plain app r := by
  rintro rfl k loc hl _ hlr x info _ hr hc
  simp only [sparesFirst, Bool.and_eq_true, decide_eq_true_eq] at h
  obtain ⟨⟨⟨hkeys, h1⟩, h2⟩, href⟩ := h
  rw [href, List.mem_singleton] at hr
  subst hr
  rw [href, List.mem_singleton] at hlr
  have hk := AList.mem_keys.mp (Table.mem_of_lookup hl)
  simp only [hkeys, List.mem_cons, List.not_mem_nil, or_false] at hk
  rw [(Plain.plain_gate.one_list _ _ _ hc commits_first).1]
  rcases hk with rfl | rfl | rfl
  · decide
  · rw [h2] at hl
    cases hl
    exact absurd rfl hlr
  · rw [h1] at hl
    cases hl
    exact absurd rfl hlr

theorem dedup_index_complete_shared : ∃ app answers, serveAll Plain.plain (localFs Plain.plain "") 9
    { blob := {} } (sharedChunk ⟨Plain.hex [1, 1, 1, 2], 0, 2, 2⟩) = some (app, answers) ∧
    app.index.xorbs.keys = [[1, 1, 1, 2]] ∧ Complete Plain.plain app.index := by
  have hrun : (serveAll Plain.plain (localFs Plain.plain "") 9 { blob := {} }
      (sharedChunk ⟨Plain.hex [1, 1, 1, 2], 0, 2, 2⟩)).map (fun p => p.1.index.xorbs.keys) =
        some [[1, 1, 1, 2]] := by decide
  obtain ⟨⟨app, answers⟩, hs, hx⟩ := Option.map_eq_some_iff.mp hrun
  refine ⟨app, answers, hs, hx, ?_⟩
  have hg : Run.Guarded (fun app r => (runAlone Plain.plain (localFs Plain.plain "") 9 app
      (start Plain.plain r)).map Prod.fst) (Spares Plain.plain) { blob := {} }
      (sharedChunk ⟨Plain.hex [1, 1, 1, 2], 0, 2, 2⟩) :=
    Run.guarded_of_test (fun _ _ => sparesFirst_sound) (by decide)
  exact (dedup_index_complete Plain.plain_gate Plain.plain_hex {} _ answers app
    (serveAll_runs (P := Choice.Works) (fun _ => rfl) hg hs)).1

/-- The collection drops the first xorb with the entry of the shared chunk, and
keeps the second xorb, which has that chunk too. -/
theorem shared_chunk_forgotten : ∃ app answers,
    serveAll Plain.plain (localFs Plain.plain "") 9 { blob := {} }
      (sharedChunk ⟨Plain.hex [1, 2, 1, 3], 0, 2, 2⟩) = some (app, answers) ∧
    ¬ Complete Plain.plain app.index := by
  have hrun : (serveAll Plain.plain (localFs Plain.plain "") 9 { blob := {} }
      (sharedChunk ⟨Plain.hex [1, 2, 1, 3], 0, 2, 2⟩)).map (fun p =>
        (p.1.index.xorbs.keys, p.1.index.chunkIndex.keys)) = some ([[1, 2, 1, 3]], [[3]]) := by
    decide
  obtain ⟨⟨app, answers⟩, hs, he⟩ := Option.map_eq_some_iff.mp hrun
  simp only [Prod.mk.injEq] at he
  refine ⟨app, answers, hs, ?_⟩
  intro hc
  have hsecond : Plain.plain.Commits [1, 2, 1, 3] ⟨2, [[2], [3]], [3, 6], [1, 2]⟩ :=
    ⟨[0, 1, 2, 0, 1, 3, 2], by decide⟩
  have hx : [1, 2, 1, 3] ∈ app.index.xorbs := AList.mem_keys.mpr (by simp [he.1])
  have hm := AList.mem_keys.mp (hc _ _ [2] hx hsecond (by simp))
  rw [he.2] at hm
  exact absurd hm (by decide)

end Dejaveph.Proofs.DedupComplete

import Dejaveph.PlainCore
import Dejaveph.Server.Steps

namespace Dejaveph.Proofs.DedupSound
open Lib Server

variable {Hash β : Type} {core : XetCore Hash}

/-- The location names a chunk of the footer: its hash and its length. -/
structure Locates (info : XorbObjectInfoV1 Hash) (h : Hash) (loc : ChunkLoc Hash) : Prop where
  hash : info.chunkHashes[loc.index.toNat]? = some h
  len : info.unpackedLen loc.index.toNat = some loc.unpackedLen.toNat

theorem locates_commits (gate : core.GateLaws) {x h : Hash} {info info' : XorbObjectInfoV1 Hash}
    {loc : ChunkLoc Hash} (hc : core.Commits x info) (hc' : core.Commits x info')
    (hl : Locates info h loc) : Locates info' h loc := by
  obtain ⟨hh, hu⟩ := gate.one_list _ _ _ hc hc'
  exact ⟨hh ▸ hl.hash, by simpa [XorbObjectInfoV1.unpackedLen, hu] using hl.len⟩

theorem Locates.lt {info : XorbObjectInfoV1 Hash} {h : Hash} {loc : ChunkLoc Hash}
    (hl : Locates info h loc) (hw : info.WellFormed) : loc.index.toNat < info.numChunks.toNat := by
  rw [← hw.hashes]
  exact (List.getElem?_eq_some_iff.mp hl.hash).1

/-- The running differences of `indexChunks` are the chunks' lengths. -/
theorem new_locates {x k : Hash} {info : XorbObjectInfoV1 Hash} (hw : info.WellFormed) {j : ℕ}
    {b e : UInt32} (hj : info.chunkHashes[j]? = some k)
    (he : info.unpackedChunkOffsets[j]? = some e)
    (hb : (0 :: info.unpackedChunkOffsets)[j]? = some b) (hle : b ≤ e) :
    Locates info k ⟨x, UInt32.ofNat j, e - b⟩ := by
  have hlt : j < 2 ^ 32 := by
    have hj' := (List.getElem?_eq_some_iff.mp hj).1
    rw [hw.hashes] at hj'
    exact Nat.lt_trans hj' info.numChunks.toNat_lt
  have hi : (UInt32.ofNat j).toNat = j := UInt32.toNat_ofNat_of_lt' hlt
  constructor
  · rw [hi, hj]
  · simp only [XorbObjectInfoV1.unpackedLen, hi, he, hb, Option.bind_eq_bind, Option.bind_some]
    rw [UInt32.toNat_sub_of_le _ _ hle]

/-- An upload in flight carries a footer that the gate accepted. -/
def Accepted (core : XetCore Hash) : Handler Hash → Prop
  | .putStore hash info _ | .putIndex hash info _ => core.Commits hash info
  | _ => True

theorem quiet_accepted {h : Handler Hash} (hq : h.Quiet) : Accepted core h := by
  cases h <;> trivial

theorem afterPut_accepted {hash : Hash} {info : XorbObjectInfoV1 Hash} (len : ℕ)
    (out : PutOut Hash) (hc : core.Commits hash info) :
    Accepted core (afterPut hash info len out) := by
  unfold afterPut
  split <;> first | exact hc | trivial

theorem gcNext_accepted (swept : ℕ) (todo : List Hash) : Accepted core (gcNext swept todo) := by
  cases todo <;> trivial

variable [DecidableEq Hash] {store : BlobStore Hash β}

/-- Every indexed xorb carries a footer that the gate accepted for it, and every
entry of the dedup index points into one of them. -/
structure Sound (core : XetCore Hash) (idx : Index Hash) : Prop where
  metas : ∀ x xorbMeta, idx.xorbs.lookup x = some xorbMeta →
    ∃ info, core.Commits x info ∧ xorbMeta = XorbMeta.fromInfo info
  entries : ∀ h loc, idx.chunkIndex.lookup h = some loc → loc.xorb ∈ idx.xorbs ∧
    ∃ info, core.Commits loc.xorb info ∧ Locates info h loc

theorem Sound.indexXorb {idx idx' : Index Hash} {x : Hash} {info : XorbObjectInfoV1 Hash}
    (gate : core.GateLaws) (hs : Sound core idx) (hc : core.Commits x info)
    (h : indexXorb idx x info = some idx') : Sound core idx' := by
  obtain ⟨hx, _, _, hm⟩ := indexXorb_spec h
  constructor
  · intro y xorbMeta hy
    rw [hx, Table.lookup_orInsert] at hy
    split at hy
    · rename_i he
      subst he
      cases hold : idx.xorbs.lookup y with
      | some old =>
        simp only [hold, Option.getD_some, Option.some.injEq] at hy
        subst hy
        exact hs.metas y old hold
      | none =>
        simp only [hold, Option.getD_none, Option.some.injEq] at hy
        exact ⟨info, hc, hy.symm⟩
    · exact hs.metas y xorbMeta hy
  · intro k loc hk
    rw [hx]
    rcases Index.indexChunksFrom_new rfl hm hk with hold | ⟨j, b, e, hj, he, hb, hle, rfl⟩
    · obtain ⟨hm, hl⟩ := hs.entries k loc hold
      exact ⟨Table.mem_orInsert.mpr (.inr hm), hl⟩
    · rw [Nat.zero_add] at he hb
      refine ⟨Table.mem_orInsert.mpr (.inl rfl), info, hc, ?_⟩
      simpa using new_locates (gate.well_formed _ _ hc) hj he hb hle

theorem Sound.evict {idx : Index Hash} (hs : Sound core idx) (x : Hash) :
    Sound core (evict idx x) := by
  constructor
  · intro y xorbMeta hy
    simp only [Server.evict, Table.lookup_erase_if] at hy
    split at hy
    · cases hy
    · exact hs.metas y xorbMeta hy
  · intro k loc hk
    simp only [Server.evict, Table.lookup_retain, Option.filter_eq_some_iff] at hk
    obtain ⟨hm, hl⟩ := hs.entries k loc hk.1
    exact ⟨AList.mem_erase.mpr ⟨by simpa using hk.2, hm⟩, hl⟩

/-- The server invariant behind the dedup index. -/
structure Invariant (core : XetCore Hash) (s : State Hash β) : Prop where
  sound : Sound core s.app.index
  accepted : ∀ i t, s.tasks i = some t → Accepted core t.handler

omit [DecidableEq Hash] in
theorem start_accepted (r : Request) : Accepted core (start core r) := by
  have hs := start_started core r
  generalize start core r = g at hs
  cases hs with
  | putXorb ns hashHex body hash info accepted => exact ⟨body, (gate_commits accepted).2⟩
  | quiet _ _ still => exact quiet_accepted still
  | _ => trivial

theorem effect_accepted {c : Choice Hash} {app app' : AppState Hash β} {g g' : Handler Hash}
    (heff : Effect core store c app g app' g') (h : Accepted core g) : Accepted core g' := by
  cases heff with
  | stored hash info call => exact afterPut_accepted _ _ h
  | marked clean all => exact gcNext_accepted _ _
  | evicted swept x todo clean => exact gcNext_accepted _ _
  | quiet _ _ metrics live still => exact quiet_accepted still
  | _ => trivial

theorem step_invariant (gate : core.GateLaws) {s s' : State Hash β} {l : Label Hash}
    (hi : Invariant core s) (h : step core store s l = some s') : Invariant core s' := by
  obtain ⟨i, r, rfl, _, rfl⟩ | ⟨i, c, t, app, h', rfl, ht, heff, rfl⟩ := step_cases core store h
  · exact ⟨hi.sound, Run.update_forall hi.accepted (start_accepted r)⟩
  · have hacc := hi.accepted i t ht
    refine ⟨?_, Run.update_forall hi.accepted (effect_accepted heff hacc)⟩
    generalize t.handler = handler at hacc heff
    cases heff with
    | indexed hash info len index metrics clean done => exact hi.sound.indexXorb gate hacc done
    | registered fh req result index clean done =>
      obtain ⟨terms, _, _, hx, hch⟩ := registerFile_spec done
      constructor
      · simpa only [hx] using hi.sound.metas
      · simpa only [hx, hch] using hi.sound.entries
    | evicted swept x todo clean => exact hi.sound.evict x
    | _ => exact hi.sound

theorem boot_invariant (blob : β) : Invariant core (boot blob : State Hash β) := by
  refine ⟨⟨?_, ?_⟩, ?_⟩
  · intro x xorbMeta hx
    cases hx
  · intro h loc hl
    cases hl
  · intro i t ht
    cases ht

theorem run_invariant (gate : core.GateLaws) {blob : β} {labels : List (Label Hash)}
    {s : State Hash β} (run : Run.exec (step core store) (boot blob) labels = some s) :
    Invariant core s :=
  Run.exec_preserves (fun _ _ _ hi h => step_invariant gate hi h) (boot_invariant blob) run

/-- Every dedup entry of every reachable state names an indexed xorb, a
position of its chunk list with that hash, and that chunk's length. So no
answer hands out a swept xorb once its eviction has run. -/
theorem dedup_index_sound (gate : core.GateLaws) (blob : β) (labels : List (Label Hash))
    (s : State Hash β) (run : Run.exec (step core store) (boot blob) labels = some s) :
    (∀ h loc, s.app.index.chunkIndex.lookup h = some loc →
      (∃ info, core.Commits loc.xorb info ∧
        s.app.index.xorbs.lookup loc.xorb = some (XorbMeta.fromInfo info) ∧
        loc.index.toNat < info.numChunks.toNat) ∧
      ∀ info, core.Commits loc.xorb info → Locates info h loc) ∧
    (∀ h hit, dedupAnswer core (s.app.index.chunkIndex.lookup h) = .ok hit →
      ∃ x ∈ s.app.index.xorbs, hit.xorb = core.hex x) ∧
    (∀ i c r swept x todo s', s.tasks i = some ⟨r, .gcEvict swept x todo⟩ →
      s.app.poisoned = false → step core store s (.step i c) = some s' →
      x ∉ s'.app.index.xorbs ∧ ∀ h loc, s'.app.index.chunkIndex.lookup h = some loc →
        loc.xorb ≠ x) := by
  have hs := (run_invariant gate run).sound
  refine ⟨?_, ?_, ?_⟩
  · intro h loc hl
    obtain ⟨hm, info, hc, hloc⟩ := hs.entries h loc hl
    obtain ⟨xorbMeta, hx⟩ := Table.mem_iff.mp hm
    obtain ⟨info', hc', rfl⟩ := hs.metas _ _ hx
    have hloc' := locates_commits gate hc hc' hloc
    exact ⟨⟨info', hc', hx, hloc'.lt (gate.well_formed _ _ hc')⟩,
      fun info'' hc'' => locates_commits gate hc hc'' hloc⟩
  · intro h hit hd
    cases hl : s.app.index.chunkIndex.lookup h with
    | none => simp [dedupAnswer, hl] at hd
    | some loc =>
      simp only [dedupAnswer, hl, Except.ok.injEq] at hd
      exact ⟨loc.xorb, (hs.entries h loc hl).1, by rw [← hd]⟩
  · intro i c r swept x todo s' ht hp hstep
    have hs' : s'.app.index = Server.evict s.app.index x := by
      simp only [step, ht, advance, lock, hp, Bool.false_eq_true, ↓reduceIte, Option.map_some,
        Option.some.injEq] at hstep
      subst hstep
      rfl
    rw [hs']
    refine ⟨by simp [Server.evict, AList.mem_erase], ?_⟩
    intro h loc hl
    simp only [Server.evict, Table.lookup_retain, Option.filter_eq_some_iff] at hl
    simpa using hl.2

/-- An upload of two chunks, indexed, and a collection up to its mark phase. -/
def uploadThenMark : List (Label Plain.PlainHash) :=
  [.request 0 (.putXorb "default" (Plain.hex [1, 1, 1, 2]) [0, 1, 1, 0, 1, 2, 2]),
    .step 0 {}, .step 0 {}, .request 1 .gc, .step 1 { order := [[1, 1, 1, 2]] }, .step 1 {}]

theorem dedup_index_sound_upload : ∃ s : State Plain.PlainHash (Table Plain.PlainHash Bytes),
    s.app.index.chunkIndex.lookup [2] = some ⟨[1, 1, 1, 2], 1, 1⟩ ∧
    ∀ h loc, s.app.index.chunkIndex.lookup h = some loc →
      ∀ info, Plain.plain.Commits loc.xorb info → Locates info h loc := by
  have hrun : (Run.exec (step Plain.plain (writeOnce Plain.plain "")) (boot ∅)
      uploadThenMark).map (fun s => s.app.index.chunkIndex.lookup [2]) =
        some (some ⟨[1, 1, 1, 2], 1, 1⟩) := by decide
  obtain ⟨s, hs, hl⟩ := Option.map_eq_some_iff.mp hrun
  have hsound := dedup_index_sound Plain.plain_gate ∅ uploadThenMark s hs
  exact ⟨s, hl, fun h loc he => (hsound.1 h loc he).2⟩

end Dejaveph.Proofs.DedupSound

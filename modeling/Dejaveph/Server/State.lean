import Dejaveph.Lib.Table
import Dejaveph.XetCore

namespace Dejaveph.Server
open Lib

structure Metrics where
  xorbPuts : ℕ := 0
  novelBytes : ℕ := 0
  chunkQueryHit : ℕ := 0
  chunkQueryMiss : ℕ := 0
deriving DecidableEq

structure XorbMeta where
  numChunks : UInt32
  /-- Compressed end offset of each chunk within the serialized xorb. -/
  boundaryOffsets : List UInt32
  /-- Uncompressed cumulative end offset of each chunk. -/
  unpackedOffsets : List UInt32
deriving DecidableEq

def XorbMeta.fromInfo {Hash : Type} (info : XorbObjectInfoV1 Hash) : XorbMeta where
  numChunks := info.numChunks
  boundaryOffsets := info.chunkBoundaryOffsets
  unpackedOffsets := info.unpackedChunkOffsets

/-- A reconstruction term: the chunks `[start, end_)` of one xorb. -/
structure Term (Hash : Type) where
  xorb : Hash
  start : UInt32
  end_ : UInt32
  unpackedLength : ℕ
deriving DecidableEq

structure FileRecord (Hash : Type) where
  totalSize : ℕ
  terms : List (Term Hash)
deriving DecidableEq

structure ChunkLoc (Hash : Type) where
  xorb : Hash
  index : UInt32
  unpackedLen : UInt32
deriving DecidableEq

structure Index (Hash : Type) where
  xorbs : Table Hash XorbMeta := ∅
  files : Table Hash (FileRecord Hash) := ∅
  catalog : Table (String × String) Hash := ∅
  chunkIndex : Table Hash (ChunkLoc Hash) := ∅

namespace Index
variable {Hash : Type} [DecidableEq Hash]

def putXorb (idx : Index Hash) (hash : Hash) (info : XorbObjectInfoV1 Hash) : Index Hash :=
  { idx with xorbs := Table.orInsert idx.xorbs hash (XorbMeta.fromInfo info) }

/-- The loop of `indexChunks` from position `i` on. It fails where the source
panics: an offset out of bounds, or one below its predecessor. -/
def indexChunksFrom (xorb : Hash) (offsets : List UInt32) :
    ℕ → UInt32 → List Hash → Table Hash (ChunkLoc Hash) → Option (Table Hash (ChunkLoc Hash))
  | _, _, [], m => some m
  | i, prevEnd, h :: hs, m =>
    match offsets[i]? with
    | none => none
    | some e =>
      if e < prevEnd then none
      else indexChunksFrom xorb offsets (i + 1) e hs
        (Table.orInsert m h ⟨xorb, UInt32.ofNat i, e - prevEnd⟩)

/-- Index every chunk of a freshly stored xorb into the global dedup index. -/
def indexChunks (idx : Index Hash) (xorb : Hash) (info : XorbObjectInfoV1 Hash) :
    Option (Index Hash) :=
  (indexChunksFrom xorb info.unpackedChunkOffsets 0 0 info.chunkHashes idx.chunkIndex).map
    (fun m => { idx with chunkIndex := m })

variable {xorb : Hash} {offsets : List UInt32} {m m' : Table Hash (ChunkLoc Hash)}

theorem indexChunksFrom_cons {i : ℕ} {prev : UInt32} {h : Hash} {hs : List Hash} :
    indexChunksFrom xorb offsets i prev (h :: hs) m = some m' ↔
      ∃ e, offsets[i]? = some e ∧ prev ≤ e ∧ indexChunksFrom xorb offsets (i + 1) e hs
        (Table.orInsert m h ⟨xorb, UInt32.ofNat i, e - prev⟩) = some m' := by
  simp only [indexChunksFrom]
  cases ho : offsets[i]? with
  | none => simp
  | some e =>
    by_cases hlt : e < prev
    · simp [hlt, UInt32.not_le]
    · simp [hlt, UInt32.not_lt.mp hlt]

theorem indexChunksFrom_keeps {i : ℕ} {prev : UInt32} {hs : List Hash}
    (hr : indexChunksFrom xorb offsets i prev hs m = some m') {k : Hash} {loc : ChunkLoc Hash}
    (hk : m.lookup k = some loc) : m'.lookup k = some loc := by
  induction hs generalizing i prev m with
  | nil =>
    cases hr
    exact hk
  | cons h hs ih =>
    obtain ⟨e, _, _, hr⟩ := indexChunksFrom_cons.mp hr
    exact ih hr (Table.lookup_orInsert_of_some hk)

theorem indexChunksFrom_covers {i : ℕ} {prev : UInt32} {hs : List Hash}
    (hr : indexChunksFrom xorb offsets i prev hs m = some m') {k : Hash} (hk : k ∈ hs) :
    k ∈ m' := by
  induction hs generalizing i prev m with
  | nil => cases hk
  | cons h hs ih =>
    obtain ⟨e, _, _, hr⟩ := indexChunksFrom_cons.mp hr
    rcases List.mem_cons.mp hk with rfl | hk
    · obtain ⟨loc, hl⟩ := Table.mem_iff.mp (Table.mem_orInsert.mpr (Or.inl rfl) :
        k ∈ Table.orInsert m k ⟨xorb, UInt32.ofNat i, e - prev⟩)
      exact Table.mem_of_lookup (indexChunksFrom_keeps hr hl)
    · exact ih hr hk

/-- A new entry names the xorb, and a position of its chunk list with the
running difference of the offsets there. -/
theorem indexChunksFrom_new {i : ℕ} {prev : UInt32} {hs : List Hash}
    (hp : (0 :: offsets)[i]? = some prev)
    (hr : indexChunksFrom xorb offsets i prev hs m = some m') {k : Hash} {loc : ChunkLoc Hash}
    (hk : m'.lookup k = some loc) :
    m.lookup k = some loc ∨ ∃ j b e, hs[j]? = some k ∧ offsets[i + j]? = some e ∧
      (0 :: offsets)[i + j]? = some b ∧ b ≤ e ∧ loc = ⟨xorb, UInt32.ofNat (i + j), e - b⟩ := by
  induction hs generalizing i prev m with
  | nil =>
    cases hr
    exact .inl hk
  | cons h hs ih =>
    obtain ⟨e, he, hle, hr⟩ := indexChunksFrom_cons.mp hr
    have hnext : (0 :: offsets)[i + 1]? = some e := by simpa using he
    rcases ih hnext hr with hm | ⟨j, b, e', hj, he', hb, hle', rfl⟩
    · rw [Table.lookup_orInsert] at hm
      split at hm
      · rename_i hkh
        subst hkh
        cases hold : m.lookup k with
        | some old =>
          simp only [hold, Option.getD_some] at hm
          exact .inl hm
        | none =>
          simp only [hold, Option.getD_none, Option.some.injEq] at hm
          exact .inr ⟨0, prev, e, rfl, he, hp, hle, hm.symm⟩
      · exact .inl hm
    · refine .inr ⟨j + 1, b, e', by simpa using hj, ?_, ?_, hle', ?_⟩
      · rw [← he', Nat.add_assoc, Nat.add_comm 1 j]
      · rw [← hb, Nat.add_assoc, Nat.add_comm 1 j]
      · rw [Nat.add_assoc, Nat.add_comm 1 j]

theorem indexChunksFrom_total {i : ℕ} {prev : UInt32} {hs : List Hash}
    (hp : (0 :: offsets)[i]? = some prev) (hlen : offsets.length = i + hs.length)
    (hinc : (0 :: offsets).Pairwise (· < ·)) :
    ∃ m', indexChunksFrom xorb offsets i prev hs m = some m' := by
  induction hs generalizing i prev m with
  | nil => exact ⟨m, rfl⟩
  | cons h hs ih =>
    have hi : i < offsets.length := by
      simp only [List.length_cons] at hlen
      omega
    have hnext : (0 :: offsets)[i + 1]? = some offsets[i] := by simp [hi]
    have hlt : prev < offsets[i] := by
      obtain ⟨hi', rfl⟩ := List.getElem?_eq_some_iff.mp hp
      have := List.pairwise_iff_getElem.mp hinc i (i + 1) hi' (by simpa using hi)
        (Nat.lt_succ_self i)
      simpa using this
    obtain ⟨m', hm'⟩ := ih (m := Table.orInsert m h ⟨xorb, UInt32.ofNat i, offsets[i] - prev⟩)
      hnext (by simp only [List.length_cons] at hlen; omega)
    exact ⟨m', indexChunksFrom_cons.mpr
      ⟨offsets[i], List.getElem?_eq_getElem hi, UInt32.le_of_lt hlt, hm'⟩⟩

end Index

/-- The state behind the handlers. `poisoned` is the state of the index mutex:
a panic under the lock sets it, and every later lock then panics too. -/
structure AppState (Hash β : Type) where
  blob : β
  index : Index Hash := {}
  poisoned : Bool := false
  metrics : Metrics := {}

end Dejaveph.Server

import Dejaveph.Mount.Xetfs
import Dejaveph.PlainCore

namespace Dejaveph.Mount
open Lib

/-- A server that is only a catalog: the file hash of a byte string is the byte
string, and it says how often it was called. -/
structure Shelf where
  calls : ℕ := 0
  catalog : Table (String × String) String := ∅

namespace Shelf

def fileHash (b : Bytes) : String := Plain.hex (Plain.dataHash b)

/-- The agent of a shelf that answers the calls it is up at. -/
def agent (up : ℕ → Bool) : XetAgent Shelf where
  ingestBytes volume dest b s :=
    if up s.calls then
      (.ok (fileHash b), ⟨s.calls + 1, s.catalog.insert (volume, dest) (fileHash b)⟩)
    else (.error "connection refused", ⟨s.calls + 1, s.catalog⟩)
  reconstruct fh _ :=
    match Plain.fromHex fh with
    | some h => .ok (h.map UInt8.ofNat)
    | none => .error "file not found"
  catalog key s := s.catalog.lookup key

variable {up : ℕ → Bool}

theorem reconstruct_fileHash (b : Bytes) (s : Shelf) :
    (agent up).reconstruct (fileHash b) s = .ok b := by
  have hx : Plain.fromHex (fileHash b) = some (Plain.dataHash b) := Plain.plain_hex.from_hex _
  have hb : (Plain.dataHash b).map UInt8.ofNat = b := by
    simp [Plain.dataHash, Function.comp_def]
  simp only [agent, hx, hb]

theorem ingest_ok {volume dest : String} {b : Bytes} {s s' : Shelf} {fh : String}
    (h : (agent up).ingestBytes volume dest b s = (.ok fh, s')) :
    fh = fileHash b ∧ s'.catalog = s.catalog.insert (volume, dest) (fileHash b) := by
  simp only [agent] at h
  split at h
  · cases h
    exact ⟨rfl, rfl⟩
  · cases h

theorem records : (agent up).Records where
  catalog volume dest b s fh s' h := by
    obtain ⟨rfl, hs⟩ := ingest_ok h
    change s'.catalog.lookup _ = _
    rw [hs, AList.lookup_insert]
  content volume dest b s fh s' h := by
    obtain ⟨rfl, _⟩ := ingest_ok h
    exact reconstruct_fileHash b s'
  others volume dest b s fh s' h key hne := by
    obtain ⟨_, hs⟩ := ingest_ok h
    change s'.catalog.lookup _ = s.catalog.lookup _
    rw [hs, AList.lookup_insert_ne hne]
  keeps _ _ _ _ _ _ _ _ _ hr := hr

theorem faithful : (agent (fun _ => true)).Faithful fileHash where
  toRecords := records
  ingests _ _ _ _ := ⟨_, rfl⟩

end Shelf

end Dejaveph.Mount

import Dejaveph.Agent.Ingest

namespace Dejaveph.Agent
open Lib Server

variable {Hash : Type} (core : XetCore Hash)

def deserializeChunks : ℕ → Bytes → Except String Bytes
  | 0, _ => .ok []
  | n + 1, bytes =>
    match core.deserializeChunk bytes with
    | .error e => .error ("deserialize chunk: " ++ e)
    | .ok (data, rest) => (deserializeChunks n rest).map (fun out => data ++ out)

def covers (range : ChunkRange) (fi : FetchInfo) : Bool :=
  fi.range.start ≤ range.start && range.end_ ≤ fi.range.end_

def pick (fetchInfo : Table String (List FetchInfo)) (t : ReconTerm) : Except String FetchInfo :=
  match fetchInfo.lookup t.hash with
  | none => .error "missing fetch_info for xorb"
  | some entries =>
    match entries.find? (covers t.range) with
    | none => .error "no fetch_info range covers this term"
    | some fi => .ok fi

theorem pick_mem {fetchInfo : Table String (List FetchInfo)} {t : ReconTerm} {fi : FetchInfo}
    (h : pick fetchInfo t = .ok fi) : ∃ fis, fetchInfo.lookup t.hash = some fis ∧ fi ∈ fis := by
  unfold pick at h
  split at h
  · cases h
  · rename_i fis hl
    split at h
    · cases h
    · rename_i fi' hf
      cases h
      exact ⟨fis, hl, List.mem_of_find?_eq_some hf⟩

/-- The loop of `reconstruct` over the terms of the response. -/
def assemble (fetch : FetchInfo → Except String Bytes) (fetchInfo : Table String (List FetchInfo)) :
    List ReconTerm → Except String Bytes
  | [] => .ok []
  | t :: ts => do
    let fi ← pick fetchInfo t
    let body ← fetch fi
    let data ← deserializeChunks core (t.range.end_.toNat - t.range.start.toNat) body
    let out ← assemble fetch fetchInfo ts
    .ok (data ++ out)

/-- The file without the part of its first range that comes before it. -/
def dropOffset (offset : ℕ) (out : Bytes) : Bytes :=
  if 0 < offset ∧ offset ≤ out.length then out.drop offset else out

variable [DecidableEq Hash] (publicBase : String) (app : AppState Hash (LocalFs Hash))

/-- The body of a ranged GET. Its status is not looked at. -/
def fetchRange (fi : FetchInfo) : Except String Bytes :=
  match xorbDataRoute publicBase fi.url with
  | none => .error "fetch xorb range"
  | some hashHex =>
    match respond core (localFs core publicBase) app
      (.xorbData hashHex (some (rangeHeader fi.urlRange.start fi.urlRange.end_))) with
    | some (_, .xorbData (.ok content)) => .ok content.body
    | some (_, .xorbData (.error f)) => .ok f.text.toUTF8.toList
    | _ => .error "fetch xorb range"

/-- Fetch the reconstruction of a file and reassemble its bytes, against a server
that does nothing else meanwhile. -/
def reconstruct (fileHashHex : String) : Except String Bytes :=
  match respond core (localFs core publicBase) app (.reconstruct fileHashHex) with
  | some (app, .reconstruct (.ok resp)) => do
    let out ← assemble core (fetchRange core publicBase app) resp.fetchInfo resp.terms
    .ok (dropOffset resp.offsetIntoFirstRange out)
  | some (_, .reconstruct (.error f)) =>
    .error ("reconstruction query failed: HTTP " ++ statusText f.status)
  | _ => .error "query reconstruction"

end Dejaveph.Agent

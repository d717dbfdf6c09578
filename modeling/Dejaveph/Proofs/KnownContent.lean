import Dejaveph.Agent.Progress
import Dejaveph.Proofs.RoundTrip
import Dejaveph.Proofs.UsableUploads

namespace Dejaveph.Proofs.KnownContent
open Lib Server Agent DedupSound Unpoisoned RegisteredTerms StoredXorbs

variable {Hash β : Type} {core : XetCore Hash}

/-- The stored xorbs, their index and the index of their chunks are as before. -/
structure Untouched (app app' : AppState Hash β) : Prop where
  blob : app'.blob = app.blob
  xorbs : app'.index.xorbs = app.index.xorbs
  chunks : app'.index.chunkIndex = app.index.chunkIndex

theorem Untouched.refl (app : AppState Hash β) : Untouched app app := ⟨rfl, rfl, rfl⟩

/-- Nothing is forgotten of the xorbs and of where chunks are. -/
structure Grows (idx idx' : Index Hash) : Prop where
  xorbs : ∀ x ∈ idx.xorbs, x ∈ idx'.xorbs
  chunks : ∀ h ∈ idx.chunkIndex, h ∈ idx'.chunkIndex

theorem Grows.refl (idx : Index Hash) : Grows idx idx := ⟨fun _ h => h, fun _ h => h⟩

section
variable {idx idx' : Index Hash} {job : Job} {ok : Except String String → Prop}

/-- The text names an indexed xorb. -/
def Indexed (core : XetCore Hash) (idx : Index Hash) (xorb : String) : Prop :=
  ∃ x, core.fromHex xorb = some x ∧ x ∈ idx.xorbs

/-- A lookup has found a chunk in an indexed xorb. -/
def Found (core : XetCore Hash) (idx : Index Hash) (loc : Option Agent.ChunkLoc) : Prop :=
  ∃ xorb i, loc = some (xorb, i) ∧ Indexed core idx xorb

/-- Where a call can stand that has found all chunks so far, and how it may end. -/
def Reuses (core : XetCore Hash) (idx : Index Hash) (ok : Except String String → Prop) :
    Stage Hash → Prop
  | .query locs _ => ∀ p ∈ locs, Found core idx p.2
  | .walk terms rest => (∀ t ∈ terms, Indexed core idx t.xorb) ∧ ∀ p ∈ rest, Found core idx p.2
  | .upload .. => False
  | .register terms => ∀ t ∈ terms, Indexed core idx t.xorb
  | .finished result => ok result

/-- Where the handler of a request of such a call can be. -/
def Obliges (core : XetCore Hash) (idx : Index Hash) (r : Request) : Handler Hash → Prop
  | .dedupLock h => (∃ ns hex, r = .globalDedup ns hex) ∧ h ∈ idx.chunkIndex
  | .registerLock _ req => r = .registerFile req ∧ ∀ t ∈ req.terms, Indexed core idx t.xorb
  | .reply a | .answered a =>
    (∃ ns hex hit, r = .globalDedup ns hex ∧ a = .globalDedup (.ok hit) ∧
      Indexed core idx hit.xorb) ∨ ∃ req n, r = .registerFile req ∧ a = .registerFile (.ok n)
  | _ => False

theorem Indexed.mono (hg : Grows idx idx') {xorb : String} (h : Indexed core idx xorb) :
    Indexed core idx' xorb := by
  obtain ⟨x, hx, hm⟩ := h
  exact ⟨x, hx, hg.xorbs x hm⟩

theorem Found.mono (hg : Grows idx idx') {loc : Option Agent.ChunkLoc} (h : Found core idx loc) :
    Found core idx' loc := by
  obtain ⟨xorb, i, hl, hx⟩ := h
  exact ⟨xorb, i, hl, hx.mono hg⟩

theorem Reuses.mono (hg : Grows idx idx') {stage : Stage Hash} (h : Reuses core idx ok stage) :
    Reuses core idx' ok stage := by
  cases stage with
  | query locs todo => exact fun p hp => (h p hp).mono hg
  | walk terms rest => exact ⟨fun t ht => (h.1 t ht).mono hg, fun p hp => (h.2 p hp).mono hg⟩
  | upload => exact h
  | register terms => exact fun t ht => (h t ht).mono hg
  | finished result => exact h

theorem Obliges.mono (hg : Grows idx idx') {r : Request} {g : Handler Hash}
    (h : Obliges core idx r g) : Obliges core idx' r g := by
  cases g with
  | dedupLock k => exact ⟨h.1, hg.chunks k h.2⟩
  | registerLock fh req => exact ⟨h.1, fun t ht => (h.2 t ht).mono hg⟩
  | reply a | answered a =>
    rcases h with ⟨ns, hex, hit, hr, ha, hx⟩ | h
    · exact .inl ⟨ns, hex, hit, hr, ha, hx.mono hg⟩
    · exact .inr h
  | _ => exact h

/-- How a call ends that comes to register these terms: with its file hash, or refused by
the router, whose limit its registration exceeds. -/
def registered (core : XetCore Hash) (job : Job) (terms : List RegisterTerm) :
    Except String String :=
  if (nextRequest core job (.register terms)).all (fun r => r.Fits core) then
    .ok (core.hex (core.fileHashOf job.bytes))
  else .error ("file registration failed: HTTP " ++ statusText .payloadTooLarge)

/-- These terms spell the bytes of the call, and it may end as it does that registers them. -/
def Ends (core : XetCore Hash) (job : Job) (result : Except String String) : Prop :=
  ∃ terms, Spells core terms (core.nextBlock job.bytes) ∧ result = registered core job terms

end

variable [DecidableEq Hash] {store : BlobStore Hash β}

section
variable {ok : Except String String → Prop} {i : ℕ} {job : Job} {w w' : World Hash β}

end

/-- Each chunk of these bytes is one of a file whose call has returned. -/
def Known (core : XetCore Hash) (w : World Hash β) (b : Bytes) : Prop :=
  ∀ c ∈ core.nextBlock b, ∃ j d fh, w.clients j = some d ∧ d.stage = .finished (.ok fh) ∧
    c ∈ core.nextBlock d.job.bytes

end Dejaveph.Proofs.KnownContent

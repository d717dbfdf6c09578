import Mathlib.Data.List.Perm.Basic
import Dejaveph.Lib.Run
import Dejaveph.Server.Handlers

namespace Dejaveph.Server
open Lib

/-- A request, as the router hands it to a handler. -/
inductive Request where
  | putXorb (ns hashHex : String) (body : Bytes)
  | registerFile (req : RegisterFile)
  | reconstruct (fileHashHex : String)
  | globalDedup (ns chunkHex : String)
  | listEntries (volume : String)
  | xorbData (hashHex : String) (range : Option HeaderValue)
  | gc
  | scrub
deriving DecidableEq

def maxBodyBytes : ℕ := 128 * 1024 * 1024

section
variable {Hash : Type} (core : XetCore Hash)

/-- The length of the body that a client of this repository sends. -/
def Request.bodyLength : Request → ℕ
  | .putXorb _ _ body => body.length
  | .registerFile req => (core.registrationJson req).length
  | _ => 0

/-- The body is within the limit of the router. -/
def Request.Fits (r : Request) : Prop := r.bodyLength core ≤ maxBodyBytes

instance (r : Request) : Decidable (r.Fits core) := inferInstanceAs (Decidable (_ ≤ _))

end

structure DedupHit where
  xorb : String
  chunkIndex : UInt32
  unpackedLength : UInt32
deriving DecidableEq

inductive Answer where
  | putXorb (wasInserted : Except Failure Bool)
  | registerFile (result : Except Failure ℕ)
  | reconstruct (result : Except Failure ReconResponse)
  | globalDedup (hit : Except Failure DedupHit)
  | listEntries (entries : List EntryOut)
  | xorbData (content : Except Failure PartialContent)
  | gc (swept : ℕ)
  | scrub (checked quarantined : ℕ)

/-- A handler between two of its steps. A step is one lock section of the
index, one call of the blob store (one file operation of a `put`), or the
sending of the response. -/
inductive Handler (Hash : Type) where
  | putStore (hash : Hash) (info : XorbObjectInfoV1 Hash) (call : PutCall Hash)
  | putIndex (hash : Hash) (info : XorbObjectInfoV1 Hash) (len : ℕ)
  | registerLock (fh : Hash) (req : RegisterFile)
  | reconLock (fh : Hash)
  | reconPresign (collected : List (Resolved Hash))
  | dedupLock (ch : Hash)
  | entriesLock (volume : String)
  | dataHead (hash : Hash) (hashHex : String) (range : Option HeaderValue)
  | dataRead (hash : Hash) (hashHex : String) (start stop len : ℕ)
  | gcMark
  | gcDelete (swept : ℕ) (x : Hash) (todo : List Hash)
  | gcEvict (swept : ℕ) (x : Hash) (todo : List Hash)
  | scrubLock
  | scrubHead (checked quarantined : ℕ) (x : Hash) (todo : List Hash)
  | scrubRead (checked quarantined : ℕ) (x : Hash) (len : ℕ) (todo : List Hash)
  | reply (answer : Answer)
  | answered (answer : Answer)
  | panicked

/-- What the environment decides in one step: the outcome of a file operation,
and the order in which a hash map is walked. -/
structure Choice (Hash : Type) where
  io : Io := .ok
  order : List Hash := []

variable {Hash β : Type} [DecidableEq Hash] (core : XetCore Hash) (store : BlobStore Hash β)

/-- The part of a handler before its first lock or blob-store call. -/
def start : Request → Handler Hash
  | .putXorb _ hashHex body =>
    match gate core hashHex body with
    | .error f => .reply (.putXorb (.error f))
    | .ok (hash, info) => .putStore hash info (PutCall.start hash body)
  | .registerFile req =>
    match core.fromHex req.fileHash with
    | none => .reply (.registerFile (.error ⟨.badRequest, "malformed file hash"⟩))
    | some fh => .registerLock fh req
  | .reconstruct fileHashHex =>
    match core.fromHex fileHashHex with
    | none => .reply (.reconstruct (.error ⟨.badRequest, "malformed file hash"⟩))
    | some fh => .reconLock fh
  | .globalDedup _ chunkHex =>
    match core.fromHex chunkHex with
    | none => .reply (.globalDedup (.error ⟨.badRequest, "malformed chunk hash"⟩))
    | some ch => .dedupLock ch
  | .listEntries volume => .entriesLock volume
  | .xorbData hashHex range =>
    match core.fromHex hashHex with
    | none => .reply (.xorbData (.error ⟨.badRequest, "malformed xorb hash"⟩))
    | some hash => .dataHead hash hashHex range
  | .gc => .gcMark
  | .scrub => .scrubLock

/-- Take the index lock: a poisoned mutex makes the handler panic. -/
def lock (app : AppState Hash β) (section_ : AppState Hash β × Handler Hash) :
    AppState Hash β × Handler Hash :=
  if app.poisoned then (app, .panicked) else section_

def panicLocked (app : AppState Hash β) : AppState Hash β × Handler Hash :=
  ({ app with poisoned := true }, .panicked)

/-- Where a `put` handler goes after a file operation. -/
def afterPut (hash : Hash) (info : XorbObjectInfoV1 Hash) (len : ℕ) : PutOut Hash → Handler Hash
  | .pending call => .putStore hash info call
  | .done (.ok true) => .putIndex hash info len
  | .done (.ok false) => .reply (.putXorb (.ok false))
  | .done (.error e) => .reply (.putXorb (.error ⟨.internalServerError, "blob store: " ++ e⟩))

/-- The sweep loop: the next xorb that is not referenced. -/
def gcNext (swept : ℕ) : List Hash → Handler Hash
  | [] => .reply (.gc swept)
  | x :: todo => .gcDelete swept x todo

def scrubNext (checked quarantined : ℕ) : List Hash → Handler Hash
  | [] => .reply (.scrub checked quarantined)
  | x :: todo => .scrubHead (checked + 1) quarantined x todo

/-- What `globalDedup` answers for an entry of the dedup index. -/
def dedupAnswer : Option (ChunkLoc Hash) → Except Failure DedupHit
  | some loc => .ok ⟨core.hex loc.xorb, loc.index, loc.unpackedLen⟩
  | none => .error ⟨.notFound, ""⟩

/-- The next step of a handler. There is none once it has answered or
panicked, or when the chosen order is not one of the walked map. -/
def advance (c : Choice Hash) (app : AppState Hash β) :
    Handler Hash → Option (AppState Hash β × Handler Hash)
  | .putStore hash info call =>
    let (out, blob) := store.putStep call c.io app.blob
    some ({ app with blob }, afterPut hash info call.bytes.length out)
  | .putIndex hash info len => some <| lock app <|
    match indexXorb app.index hash info with
    | none => panicLocked app
    | some index =>
      ({ app with
          index
          metrics := { app.metrics with
            xorbPuts := app.metrics.xorbPuts + 1
            novelBytes := app.metrics.novelBytes + len } },
        .reply (.putXorb (.ok true)))
  | .registerLock fh req => some <| lock app <|
    match registerFile core app.index fh req with
    | .error f => (app, .reply (.registerFile (.error f)))
    | .ok (result, index) => ({ app with index }, .reply (.registerFile (.ok result)))
  | .reconLock fh => some <| lock app <|
    match collect app.index fh with
    | none => panicLocked app
    | some (.error status) => (app, .reply (.reconstruct (.error ⟨status, ""⟩)))
    | some (.ok collected) => (app, .reconPresign collected)
  | .reconPresign collected =>
    some (app, .reply (.reconstruct (presignTerms core store.presignGet collected [] ∅)))
  | .dedupLock ch => some <| lock app <|
    let hit := app.index.chunkIndex.lookup ch
    let metrics := match hit with
      | some _ => { app.metrics with chunkQueryHit := app.metrics.chunkQueryHit + 1 }
      | none => { app.metrics with chunkQueryMiss := app.metrics.chunkQueryMiss + 1 }
    ({ app with metrics }, .reply (.globalDedup (dedupAnswer core hit)))
  | .entriesLock volume => some <| lock app <|
    (app, .reply (.listEntries (listEntries core app.index volume)))
  | .dataHead hash hashHex range =>
    match store.head hash c.io app.blob with
    | .ok (some len) =>
      match parseRange range len with
      | some (start, stop) => some (app, .dataRead hash hashHex start stop len)
      | none => some (app, .reply (.xorbData (.error ⟨.rangeNotSatisfiable, ""⟩)))
    | _ => some (app, .reply (.xorbData (.error ⟨.notFound, ""⟩)))
  | .dataRead hash hashHex start stop len =>
    match store.getRange hash start stop c.io app.blob with
    | none => some (app, .panicked)
    | some (.error e) =>
      some (app, .reply (.xorbData (.error ⟨.internalServerError, "read: " ++ e⟩)))
    | some (.ok bytes) =>
      some (app, .reply (.xorbData (.ok (partialContent hashHex start stop len bytes))))
  | .gcMark =>
    if c.order.Perm app.index.xorbs.keys then some <| lock app <|
      (app, gcNext 0 (c.order.filter (fun x => x ∉ referenced app.index)))
    else none
  | .gcDelete swept x todo =>
    some ({ app with blob := (store.delete x c.io app.blob).2 }, .gcEvict swept x todo)
  | .gcEvict swept x todo => some <| lock app <|
    ({ app with index := evict app.index x }, gcNext (swept + 1) todo)
  | .scrubLock =>
    if c.order.Perm app.index.xorbs.keys then
      some <| lock app (app, scrubNext 0 0 c.order)
    else none
  | .scrubHead checked quarantined x todo =>
    match store.head x c.io app.blob with
    | .ok (some len) => some (app, .scrubRead checked quarantined x len todo)
    | _ => some (app, scrubNext checked (quarantined + 1) todo)
  | .scrubRead checked quarantined x len todo =>
    match store.getRange x 0 (len - 1) c.io app.blob with
    | none => some (app, .panicked)
    | some (.error _) => some (app, scrubNext checked (quarantined + 1) todo)
    | some (.ok bytes) =>
      match core.validateXorbObject bytes x with
      | .ok (some _) => some (app, scrubNext checked quarantined todo)
      | _ => some (app, scrubNext checked (quarantined + 1) todo)
  | .reply a => some (app, .answered a)
  | .answered _ => none
  | .panicked => none

/-- The response of a handler that runs alone, with no failing file operation,
when it comes within `n` steps. -/
def runAlone : ℕ → AppState Hash β → Handler Hash → Option (AppState Hash β × Answer)
  | _, app, .reply a => some (app, a)
  | 0, _, _ => none
  | n + 1, app, g => (advance core store { order := app.index.xorbs.keys } app g).bind
      (fun p => runAlone n p.1 p.2)

/-- The response to a reading request that is served alone. Such a request is
answered after at most two steps. -/
def respond (app : AppState Hash β) (r : Request) : Option (AppState Hash β × Answer) :=
  runAlone core store 2 app (start core r)

/-- The path parameter of a GET of this URL, when the URL is that of the bytes of
a xorb on the server. -/
def xorbDataRoute (publicBase url : String) : Option String := do
  let segment ← Text.stripPrefix (publicBase ++ xorbDataPath).toList url.toList
  if segment ≠ [] ∧ segment.all (fun c => c ∉ ['/', '?', '#', '%']) then
    some (String.ofList segment)
  else none

structure Exchange (Hash : Type) where
  request : Request
  handler : Handler Hash

/-- The server: its shared state, and the handler of every request so far. -/
structure State (Hash β : Type) where
  app : AppState Hash β
  tasks : Run.Pool (Exchange Hash)

inductive Label (Hash : Type) where
  | request (i : ℕ) (r : Request)
  | step (i : ℕ) (c : Choice Hash)

/-- One atomic step of the server: a request arrives, or one handler advances. -/
def step (s : State Hash β) : Label Hash → Option (State Hash β)
  | .request i r =>
    match s.tasks i with
    | some _ => none
    | none => some { s with tasks := Function.update s.tasks i (some ⟨r, start core r⟩) }
  | .step i c =>
    match s.tasks i with
    | none => none
    | some t => (advance core store c s.app t.handler).map (fun p =>
        { app := p.1, tasks := Function.update s.tasks i (some ⟨t.request, p.2⟩) })

def boot (blob : β) : State Hash β := ⟨{ blob }, fun _ => none⟩

def Handler.running : Handler Hash → Bool
  | .answered _ | .panicked => false
  | _ => true

/-- Some collection is in flight. -/
def GcInFlight (s : State Hash β) : Prop :=
  ∃ i t, s.tasks i = some t ∧ t.request = .gc ∧ t.handler.running = true

end Dejaveph.Server

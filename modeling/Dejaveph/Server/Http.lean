import Dejaveph.Server.Alone

namespace Dejaveph.Server
open Lib

inductive AuthMode where
  | loopback
  | tokens
deriving DecidableEq

inductive Method where
  | get
  | head
  | post
  | other (name : String)
deriving DecidableEq

/-- A request on the wire. Header names are in lower case. -/
structure HttpRequest where
  method : Method
  path : String
  headers : List (String × HeaderValue) := []
  body : Bytes := []
deriving DecidableEq

def HttpRequest.header (r : HttpRequest) (name : String) : Option HeaderValue :=
  r.headers.lookup name

/-- A response. Of the response to a `HEAD` the transport drops the body. -/
inductive HttpResponse where
  | text (status : ℕ) (body : String)
  | answer (a : Answer)
  | metric (value : ℕ)
  | token (value : String)
  | noop

/-- How the server was started: the part of its state that never changes. -/
structure Config where
  auth : AuthMode
  readToken : String
  writeToken : String
  testHooks : Bool
deriving DecidableEq

/-- `format!("{b:02x}")`, written out. -/
def hexByte (b : UInt8) : List Char :=
  [Nat.digitChar (b.toNat / 16), Nat.digitChar (b.toNat % 16)]

/-- The token of a scope, from what `/dev/urandom` left in the buffer. -/
def randomToken (scope : String) (buf : Vector UInt8 16) : String :=
  scope ++ "-" ++ String.ofList (buf.toList.flatMap hexByte)

/-- The bearer token of a request, empty when there is none. -/
def bearer (r : HttpRequest) : String :=
  String.ofList ((((r.header "authorization").bind HeaderValue.toStr).bind
    (Text.stripPrefix "Bearer ".toList)).getD [])

def adminPath (path : String) : Bool := "/admin/".toList.isPrefixOf path.toList

/-- The response of the authentication layer, when it does not let the request
through. -/
def authMw (cfg : Config) (r : HttpRequest) : Option HttpResponse :=
  if cfg.auth = .loopback ∨ adminPath r.path then none
  else
    let token := bearer r
    if token = "" then some (.text 401 "missing bearer token")
    else
      let ok :=
        if r.method = .post then token = cfg.writeToken
        else token = cfg.readToken ∨ token = cfg.writeToken
      if ok then none else some (.text 403 "insufficient scope")

inductive Endpoint where
  | reconstruct
  | globalDedup
  | putXorb
  | putShard
  | registerFile
  | listEntries
  | xorbData
  | testMetric
  | testMintToken
  | testNoop
  | testGc
  | testScrub
deriving DecidableEq

structure Route where
  pattern : String
  method : Method
  endpoint : Endpoint
deriving DecidableEq

def apiRoutes : List Route :=
  [⟨"/api/v1/reconstructions/{file_hash}", .get, .reconstruct⟩,
    ⟨"/api/v1/chunks/{namespace}/{chunk_hash}", .get, .globalDedup⟩,
    ⟨"/api/v1/xorbs/{namespace}/{xorb_hash}", .post, .putXorb⟩,
    ⟨"/api/v1/shards", .post, .putShard⟩,
    ⟨"/api/v1/files", .post, .registerFile⟩,
    ⟨"/api/v1/volumes/{volume}/entries", .get, .listEntries⟩,
    ⟨"/api/v1/xorb-data/{xorb_hash}", .get, .xorbData⟩]

def testRoutes : List Route :=
  [⟨"/admin/test/metric/{name}", .get, .testMetric⟩,
    ⟨"/admin/test/mint_token", .post, .testMintToken⟩,
    ⟨"/admin/test/fault", .post, .testNoop⟩,
    ⟨"/admin/test/crash_at", .post, .testNoop⟩,
    ⟨"/admin/test/dedup_key", .post, .testNoop⟩,
    ⟨"/admin/test/gc", .post, .testGc⟩,
    ⟨"/admin/test/scrub", .post, .testScrub⟩]

def routes (testHooks : Bool) : List Route :=
  if testHooks then apiRoutes ++ testRoutes else apiRoutes

/-- A `get` route serves `HEAD` too. -/
def Route.serves (route : Route) (m : Method) : Bool :=
  m = route.method ∨ (route.method = .get ∧ m = .head)

/-- What the web framework does with a path and a body. -/
structure Axum where
  /-- The parameters of a path under a pattern that matches it, or the rejection
  of one that does not decode. -/
  capture : String → String → Option (Except HttpResponse (List String))
  /-- The body of a request, below a limit. -/
  bytes : ℕ → HttpRequest → Except HttpResponse Bytes
  /-- The body of a registration, read from JSON. -/
  registerFile : ℕ → HttpRequest → Except HttpResponse RegisterFile
  /-- The text at `scope` in a JSON body. -/
  scope : ℕ → HttpRequest → Except HttpResponse (Option String)

/-- The text of a pattern before its first parameter. -/
def literal (pattern : String) : List Char := pattern.toList.takeWhile (· ≠ '{')

/-- The text before the first parameter is matched as it stands. -/
def Axum.MatchesLiterally (ax : Axum) : Prop :=
  ∀ pattern path, ax.capture pattern path ≠ none → literal pattern <+: path.toList

/-- What becomes of a request: a response at once, a handler, or the value of a
counter. -/
inductive Target where
  | reply (response : HttpResponse)
  | handle (request : Request)
  | metric (name : String)

def Target.ofExtracted {α : Type} (f : α → Target) : Except HttpResponse α → Target
  | .ok a => f a
  | .error rejection => .reply rejection

/-- The handler of an endpoint, up to where it first looks at the shared state.
Parameters that do not fit the handler are an error of the framework. -/
def Endpoint.target (cfg : Config) (ax : Axum) (r : HttpRequest) : Endpoint → List String → Target
  | .reconstruct, [fileHash] => .handle (.reconstruct fileHash)
  | .globalDedup, [ns, chunkHash] => .handle (.globalDedup ns chunkHash)
  | .putXorb, [ns, xorbHash] =>
    .ofExtracted (fun body => .handle (.putXorb ns xorbHash body)) (ax.bytes maxBodyBytes r)
  | .putShard, [] => .reply (.text 501 "")
  | .registerFile, [] =>
    .ofExtracted (fun req => .handle (.registerFile req)) (ax.registerFile maxBodyBytes r)
  | .listEntries, [volume] => .handle (.listEntries volume)
  | .xorbData, [xorbHash] => .handle (.xorbData xorbHash (r.header "range"))
  | .testMetric, [name] => .metric name
  | .testMintToken, [] =>
    .ofExtracted (fun scope => .reply (.token
      (if scope.getD "read" = "write" then cfg.writeToken else cfg.readToken)))
      (ax.scope maxBodyBytes r)
  | .testNoop, [] => .reply .noop
  | .testGc, [] => .handle .gc
  | .testScrub, [] => .handle .scrub
  | _, _ => .reply (.text 500 "")

/-- The routes, behind the authentication layer. -/
def router (cfg : Config) (ax : Axum) (r : HttpRequest) : Target :=
  match (routes cfg.testHooks).findSome? (fun route =>
    (ax.capture route.pattern r.path).map (fun params => (route, params))) with
  | none => .reply (.text 404 "")
  | some (route, params) =>
    if route.serves r.method then .ofExtracted (route.endpoint.target cfg ax r) params
    else .reply (.text 405 "")

def accept (cfg : Config) (ax : Axum) (r : HttpRequest) : Target :=
  match authMw cfg r with
  | some response => .reply response
  | none => router cfg ax r

def Metrics.get (m : Metrics) (name : String) : ℕ :=
  if name = "xorb_puts" then m.xorbPuts
  else if name = "novel_bytes" then m.novelBytes
  else if name = "chunk_query_hit" then m.chunkQueryHit
  else if name = "chunk_query_miss" then m.chunkQueryMiss
  else 0

/-- The server behind its HTTP interface: the handlers, and the responses that
were given without one. -/
structure HttpState (Hash β : Type) where
  server : State Hash β
  replies : Run.Pool HttpResponse

inductive HttpLabel (Hash : Type) where
  | request (i : ℕ) (r : HttpRequest)
  | step (i : ℕ) (c : Choice Hash)

variable {Hash β : Type} [DecidableEq Hash] (core : XetCore Hash) (store : BlobStore Hash β)
  (cfg : Config) (ax : Axum)

def HttpState.reply (s : HttpState Hash β) (i : ℕ) (response : HttpResponse) : HttpState Hash β :=
  { s with replies := Function.update s.replies i (some response) }

/-- One atomic step behind HTTP: a request arrives, or one handler advances. -/
def httpStep (s : HttpState Hash β) : HttpLabel Hash → Option (HttpState Hash β)
  | .request i r =>
    if s.replies i = none ∧ s.server.tasks i = none then
      match accept cfg ax r with
      | .reply response => some (s.reply i response)
      | .metric name => some (s.reply i (.metric (s.server.app.metrics.get name)))
      | .handle q => (step core store s.server (.request i q)).map (fun t => { s with server := t })
    else none
  | .step i c => (step core store s.server (.step i c)).map (fun t => { s with server := t })

def HttpState.response (s : HttpState Hash β) (i : ℕ) : Option HttpResponse :=
  match s.replies i with
  | some response => some response
  | none => (s.server.tasks i).bind (fun t =>
    match t.handler with
    | .answered a => some (.answer a)
    | _ => none)

end Dejaveph.Server

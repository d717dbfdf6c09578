import Dejaveph.Agent.Reconstruct
import Dejaveph.Server.S3

namespace Dejaveph.Agent
open Lib Server

variable {Hash σ : Type} (core : XetCore Hash) (client : ObjectStore σ)

/-- A ranged GET of a signed URL, which goes to the object store and not to the server.
The status is not looked at. -/
def fetchObject (s : σ) (fi : FetchInfo) : Except String Bytes :=
  match client.getUrl fi.url fi.urlRange.start fi.urlRange.end_ s with
  | .noResponse => .error "fetch xorb range"
  | .brokenOff => .error "read xorb range body"
  | .body content => .ok content

def reconstructPresigned [DecidableEq Hash] (app : AppState Hash σ) (fileHashHex : String) :
    Except String Bytes :=
  match respond core (s3 core client) app (.reconstruct fileHashHex) with
  | some (app, .reconstruct (.ok resp)) => do
    let out ← assemble core (fetchObject client app.blob) resp.fetchInfo resp.terms
    .ok (dropOffset resp.offsetIntoFirstRange out)
  | some (_, .reconstruct (.error f)) =>
    .error ("reconstruction query failed: HTTP " ++ statusText f.status)
  | _ => .error "query reconstruction"

end Dejaveph.Agent

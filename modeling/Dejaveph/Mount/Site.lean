import Dejaveph.Agent.Reader
import Dejaveph.Mount.Folder
import Dejaveph.Mount.Served

namespace Dejaveph.Mount
open Lib Server Agent

variable {ι Hash : Type} [DecidableEq ι] [DecidableEq Hash] (core : XetCore Hash)
  (publicBase : String)

/-- The agent, when every request of a call is served and answered. -/
def servedAgent : XetAgent (AppState Hash (LocalFs Hash)) where
  ingestBytes volume dest b app :=
    (ingestAlone core (localFs core publicBase) 5 ⟨volume, dest, b⟩
      (3 * (core.nextBlock b).length + 4) [] (.query [] (core.nextBlock b)) app).getD
        (firstLost core b, app)
  reconstruct fh app :=
    (fetchAlone core publicBase app fh (fetchSteps core publicBase app fh) .query).getD
      (.error "query reconstruction")
  catalog key app := catalogFileHash core app.index key.1 key.2

structure Site (ι Hash : Type) where
  server : AppState Hash (LocalFs Hash)
  mounts : ι → Option Xetfs

/-- One thing that goes on. A volume is put into the path of a URL as it is: `decoded` is
what the router reads there, when it has a route. -/
def Site.step (decoded : String → Option String) (s : Site ι Hash) :
    Act ι (AppState Hash (LocalFs Hash)) → Option (Site ι Hash × Response)
  | .mount i volume uid gid =>
    match decoded volume with
    | none => some (s, .other)
    | some v => (connect volume (listEntries core s.server.index v) uid gid).map (fun fs =>
        ({ s with mounts := Function.update s.mounts i (some fs) }, .mounted))
  | .request i r =>
    (s.mounts i).bind (fun fs =>
      (serve (servedAgent core publicBase) ⟨fs, s.server⟩ r).map (fun p =>
        (⟨p.1.server, Function.update s.mounts i (some p.1.fs)⟩, .served p.2)))
  | .ingest job =>
    let r := (servedAgent core publicBase).ingestBytes job.volume job.dest job.bytes s.server
    some ({ s with server := r.2 }, .ingested r.1)
  | .fetch volume path =>
    let fh := (decoded volume).bind (fun v => catalogFileHash core s.server.index v path)
    some (s, .fetched (fh.map (fun fh => (servedAgent core publicBase).reconstruct fh s.server)))
  | .client _ _ server | .collect server => some ({ s with server }, .other)

end Dejaveph.Mount

import Dejaveph.Server.Disk

namespace Dejaveph.Server
open Lib
variable {Hash β : Type}

/-- A call of a `BlobStore` in flight, or one that has returned. -/
inductive StoreTask (Hash : Type) where
  | put (call : PutCall Hash)
  | head (key : Hash)
  | getRange (key : Hash) (start stop : ℕ)
  | delete (key : Hash)
  | returned (call : BlobCall Hash) (result : BlobResult)
deriving DecidableEq

def BlobCall.begin : BlobCall Hash → StoreTask Hash
  | .put key bytes => .put (.start key bytes)
  | .head key => .head key
  | .getRange key start stop => .getRange key start stop
  | .delete key => .delete key

def StoreTask.call : StoreTask Hash → BlobCall Hash
  | .put call => .put call.key call.bytes
  | .head key => .head key
  | .getRange key start stop => .getRange key start stop
  | .delete key => .delete key
  | .returned call _ => call

/-- One operation of the store for a call in flight. -/
def StoreTask.advance (store : BlobStore Hash β) (io : Io) (blob : β) :
    StoreTask Hash → Option (StoreTask Hash × β)
  | .put call =>
    match store.putStep call io blob with
    | (.pending call', blob') => some (.put call', blob')
    | (.done r, blob') => some (.returned (.put call.key call.bytes) (.put r), blob')
  | .head key => some (.returned (.head key) (.head (store.head key io blob)), blob)
  | .getRange key start stop =>
    some (.returned (.getRange key start stop) (.range (store.getRange key start stop io blob)),
      blob)
  | .delete key =>
    some (.returned (.delete key) (.delete (store.delete key io blob).1),
      (store.delete key io blob).2)
  | .returned _ _ => none

/-- A store and the calls on it, in flight or returned. -/
structure StoreState (Hash β : Type) where
  blob : β
  tasks : Run.Pool (StoreTask Hash) := fun _ => none

inductive StoreLabel (Hash : Type) where
  | call (i : ℕ) (c : BlobCall Hash)
  | step (i : ℕ) (io : Io)
deriving DecidableEq

def storeStep (store : BlobStore Hash β) (s : StoreState Hash β) :
    StoreLabel Hash → Option (StoreState Hash β)
  | .call i c =>
    match s.tasks i with
    | none => some { s with tasks := Function.update s.tasks i (some c.begin) }
    | some _ => none
  | .step i io =>
    (s.tasks i).bind fun task => (task.advance store io s.blob).map fun p =>
      ⟨p.2, Function.update s.tasks i (some p.1)⟩

theorem storeStep_call {store : BlobStore Hash β} {s : StoreState Hash β} {i : ℕ}
    (c : BlobCall Hash) (h : s.tasks i = none) : storeStep store s (.call i c) =
      some { s with tasks := Function.update s.tasks i (some c.begin) } := by
  simp only [storeStep, h]

theorem storeStep_step {store : BlobStore Hash β} {s : StoreState Hash β} {i : ℕ} {io : Io}
    {task : StoreTask Hash} {p : StoreTask Hash × β} (h : s.tasks i = some task)
    (hp : task.advance store io s.blob = some p) : storeStep store s (.step i io) =
      some ⟨p.2, Function.update s.tasks i (some p.1)⟩ := by
  simp only [storeStep, h, Option.bind_some, hp, Option.map_some]

end Dejaveph.Server

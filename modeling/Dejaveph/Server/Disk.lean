import Dejaveph.Lib.Cells
import Dejaveph.Lib.Run
import Dejaveph.Server.Blob

namespace Dejaveph.Server
open Lib

/-- What the operating system answers to one file operation: a success, with
how many bytes a read or write moved, or an error other than a missing file. -/
inductive Os where
  | ok (moved : ℕ)
  | fail (error : String)
deriving DecidableEq

/-- The text of an error of kind `NotFound`. -/
def notFound : String := "No such file or directory (os error 2)"

/-- The files below the root as a directory of inodes: an open file is read and
written by its inode, whatever its path leads to by then. -/
structure Disk (Hash : Type) where
  contents : ℕ → Bytes := fun _ => []
  files : Table Hash ℕ := ∅
  tmp : Table Hash ℕ := ∅
  next : ℕ := 0

inductive BlobCall (Hash : Type) where
  | put (key : Hash) (bytes : Bytes)
  | head (key : Hash)
  | getRange (key : Hash) (start stop : ℕ)
  | delete (key : Hash)
deriving DecidableEq

/-- What a call returns; a `getRange` whose arithmetic overflows gives `none`. -/
inductive BlobResult where
  | put (result : Except String Bool)
  | head (result : Except String (Option ℕ))
  | range (result : Option (Except String Bytes))
  | delete (result : Except String Unit)
deriving DecidableEq

/-- Where a `put` stands, before one file-system step. -/
inductive PutPc where
  | tryExists
  | createDir
  | create
  | write (inode done : ℕ)
  | rename
  | recheck (error : String)
  | removeTmp
deriving DecidableEq

/-- Where a `getRange` stands: before opening the file, or reading it. -/
inductive ReadPc where
  | open_
  | read (inode : ℕ) (data : Bytes)
deriving DecidableEq

/-- A call in flight, or one that has returned. -/
inductive BlobTask (Hash : Type) where
  | put (key : Hash) (bytes : Bytes) (pc : PutPc)
  | head (key : Hash)
  | getRange (key : Hash) (start stop : ℕ) (pc : ReadPc)
  | delete (key : Hash)
  | returned (call : BlobCall Hash) (result : BlobResult)
deriving DecidableEq

variable {Hash : Type}

def BlobCall.start : BlobCall Hash → BlobTask Hash
  | .put key bytes => .put key bytes .tryExists
  | .head key => .head key
  | .getRange key start stop => .getRange key start stop .open_
  | .delete key => .delete key

def BlobTask.call : BlobTask Hash → BlobCall Hash
  | .put key bytes _ => .put key bytes
  | .head key => .head key
  | .getRange key start stop _ => .getRange key start stop
  | .delete key => .delete key
  | .returned call _ => call

/-- `write_all` with `done` bytes written: it ends when none are left. -/
def PutPc.writing (bytes : Bytes) (inode done : ℕ) : PutPc :=
  if done < bytes.length then .write inode done else .rename

variable [DecidableEq Hash]

namespace Disk

def body (d : Disk Hash) (key : Hash) : Option Bytes := (d.files.lookup key).map d.contents

/-- The temporary file of a key is opened for writing: truncated, or made. -/
def create (d : Disk Hash) (key : Hash) : ℕ × Disk Hash :=
  match d.tmp.lookup key with
  | some inode => (inode, { d with contents := Function.update d.contents inode [] })
  | none =>
    (d.next, { d with
      contents := Function.update d.contents d.next []
      tmp := d.tmp.insert key d.next
      next := d.next + 1 })

def write (d : Disk Hash) (inode off : ℕ) (piece : Bytes) : Disk Hash :=
  { d with
    contents := Function.update d.contents inode (Cells.overlay 0 (d.contents inode) off piece) }

/-- One file-system step of a `put`. -/
def putStep (key : Hash) (bytes : Bytes) (pc : PutPc) (os : Os) (d : Disk Hash) :
    BlobTask Hash × Disk Hash :=
  let at_ := BlobTask.put key bytes
  let done := fun r => BlobTask.returned (.put key bytes) (.put r)
  match pc, os with
  | .tryExists, .ok _ => if key ∈ d.files then (done (.ok false), d) else (at_ .createDir, d)
  | .tryExists, .fail _ => (at_ .createDir, d)
  | .createDir, .ok _ => (at_ .create, d)
  | .createDir, .fail e => (done (.error e), d)
  | .create, .ok _ => (at_ (.writing bytes (d.create key).1 0), (d.create key).2)
  | .create, .fail e => (done (.error e), d)
  | .write inode n, .ok moved =>
    let piece := (bytes.drop n).take moved
    if piece = [] then (done (.error "failed to write whole buffer"), d)
    else (at_ (.writing bytes inode (n + piece.length)), d.write inode n piece)
  | .write _ _, .fail e => (done (.error e), d)
  | .rename, .ok _ =>
    match d.tmp.lookup key with
    | some inode =>
      (done (.ok true), { d with files := d.files.insert key inode, tmp := d.tmp.erase key })
    | none => (at_ (.recheck notFound), d)
  | .rename, .fail e => (at_ (.recheck e), d)
  | .recheck e, .ok _ => if key ∈ d.files then (at_ .removeTmp, d) else (done (.error e), d)
  | .recheck e, .fail _ => (done (.error e), d)
  | .removeTmp, .ok _ => (done (.ok false), { d with tmp := d.tmp.erase key })
  | .removeTmp, .fail _ => (done (.ok false), d)

def head (key : Hash) (os : Os) (d : Disk Hash) : Except String (Option ℕ) :=
  match os with
  | .ok _ => .ok ((d.body key).map List.length)
  | .fail e => .error e

/-- One file-system step of a `getRange`: a read moves at least one byte
unless the end of the file is reached. -/
def getRangeStep (key : Hash) (start stop : ℕ) (pc : ReadPc) (os : Os) (d : Disk Hash) :
    BlobTask Hash :=
  let at_ := BlobTask.getRange key start stop
  let done := fun r => BlobTask.returned (.getRange key start stop) (.range r)
  match pc, os with
  | .open_, .ok _ =>
    match d.files.lookup key with
    | some inode => at_ (.read inode [])
    | none => done (some (.error notFound))
  | .open_, .fail e => done (some (.error e))
  | .read inode data, .ok moved =>
    let piece := ((d.contents inode).drop data.length).take (max moved 1)
    if piece = [] then done ((readRange data start stop).map .ok)
    else at_ (.read inode (data ++ piece))
  | .read _ _, .fail e => done (some (.error e))

/-- A read that moves nothing has read all there is. -/
theorem read_ended {data b : Bytes} {n : ℕ} (h : data <+: b)
    (hnil : (b.drop data.length).take (max n 1) = []) : data = b := by
  obtain ⟨rest, rfl⟩ := h
  rw [List.drop_left, List.take_eq_nil_iff] at hnil
  rw [hnil.resolve_left (by omega), List.append_nil]

def delete (key : Hash) (os : Os) (d : Disk Hash) : Except String Unit × Disk Hash :=
  match os with
  | .ok _ => (.ok (), { d with files := d.files.erase key })
  | .fail e => (.error e, d)

end Disk

def BlobTask.advance (os : Os) (d : Disk Hash) : BlobTask Hash → Option (BlobTask Hash × Disk Hash)
  | .put key bytes pc => some (d.putStep key bytes pc os)
  | .head key => some (.returned (.head key) (.head (d.head key os)), d)
  | .getRange key start stop pc => some (d.getRangeStep key start stop pc os, d)
  | .delete key =>
    some (.returned (.delete key) (.delete (d.delete key os).1), (d.delete key os).2)
  | .returned _ _ => none

/-- The disk and the calls on it, in flight or returned. -/
structure BlobState (Hash : Type) where
  disk : Disk Hash
  tasks : Run.Pool (BlobTask Hash) := fun _ => none

inductive BlobLabel (Hash : Type) where
  | call (i : ℕ) (c : BlobCall Hash)
  | step (i : ℕ) (os : Os)
deriving DecidableEq

/-- A new call is made, or a call in flight takes its next file-system step. -/
def blobStep (s : BlobState Hash) : BlobLabel Hash → Option (BlobState Hash)
  | .call i c =>
    match s.tasks i with
    | none => some { s with tasks := Function.update s.tasks i (some c.start) }
    | some _ => none
  | .step i os =>
    (s.tasks i).bind fun task => (task.advance os s.disk).map fun p =>
      ⟨p.2, Function.update s.tasks i (some p.1)⟩

theorem blobStep_call {s t : BlobState Hash} {i : ℕ} {c : BlobCall Hash}
    (h : blobStep s (.call i c) = some t) :
    s.tasks i = none ∧ t = { s with tasks := Function.update s.tasks i (some c.start) } := by
  simp only [blobStep] at h
  split at h
  · exact ⟨‹_›, (Option.some.inj h).symm⟩
  · cases h

theorem blobStep_step {s t : BlobState Hash} {i : ℕ} {os : Os}
    (h : blobStep s (.step i os) = some t) :
    ∃ task p, s.tasks i = some task ∧ task.advance os s.disk = some p ∧
      t = ⟨p.2, Function.update s.tasks i (some p.1)⟩ := by
  obtain ⟨task, ht, h⟩ := Option.bind_eq_some_iff.mp h
  obtain ⟨p, hp, rfl⟩ := Option.map_eq_some_iff.mp h
  exact ⟨task, p, ht, hp, rfl⟩

theorem blobStep_below {s t : BlobState Hash} {l : BlobLabel Hash} {n : ℕ}
    (hs : Run.Below n s.tasks) (hl : ∀ i c, l = .call i c → i < n) (h : blobStep s l = some t) :
    Run.Below n t.tasks := by
  cases l with
  | call i c =>
    obtain ⟨_, rfl⟩ := blobStep_call h
    exact hs.update (hl i c rfl)
  | step i os =>
    obtain ⟨task, p, hi, _, rfl⟩ := blobStep_step h
    exact hs.update (hs.lt hi)

end Dejaveph.Server

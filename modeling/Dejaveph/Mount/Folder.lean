import Dejaveph.Agent.Ingest
import Dejaveph.Mount.Paths
import Dejaveph.Mount.Posix

namespace Dejaveph.Mount
open Lib Agent

def pathOf (names : List String) : String := "/" ++ String.intercalate "/" names

/-- An inode without its content. -/
structure Entry where
  name : String
  kind : Kind
  parent : ℕ
  children : List ℕ
deriving DecidableEq

/-- A mount as its kernel sees it: a tree of named inodes, the names from the root down to
each, the bytes of the files, and which files have changes that no flush has followed. -/
structure Folder where
  volume : String
  uid : ℕ
  gid : ℕ
  entries : ℕ → Option Entry
  names : ℕ → List String
  files : Files
  pending : ℕ → Bool

namespace Folder
variable (f : Folder)

def size (ino : ℕ) : ℕ := ((f.files ino).map List.length).getD 0

def attr (ino : ℕ) : Option FileAttr :=
  (f.entries ino).map (fun e =>
    { ino
      size := f.size ino
      blocks := (f.size ino + 511) / 512
      kind := e.kind
      perm := if e.kind = .dir then 0o755 else 0o644
      nlink := if e.kind = .dir then 2 else 1
      uid := f.uid
      gid := f.gid })

def child (parent : ℕ) (name : String) : Option ℕ :=
  (((f.entries parent).map Entry.children).getD []).find? (fun c =>
    (f.entries c).any (fun e => e.name = name))

/-- What a directory lists: itself, its parent and its children. -/
def listing (ino : ℕ) (e : Entry) : List (ℕ × Kind × String) :=
  (ino, .dir, ".") :: (e.parent, .dir, "..") ::
    e.children.filterMap (fun c => (f.entries c).map (fun d => (c, d.kind, d.name)))

/-- A page of what is listed, each entry with the offset that comes after it. -/
def page (ino : ℕ) (offset : ℤ) (room : ℕ) : Reply :=
  match f.entries ino with
  | none => .error .enoent
  | some e =>
    if e.kind ≠ .dir then .error .enotdir
    else
      let listed := (f.listing ino e).zipIdx.map (fun p => (p.1.1, p.2 + 1, p.1.2))
      .directory (if offset < 0 then [] else (listed.drop offset.toNat).take room)

def put (ino : ℕ) (b : Bytes) : Folder :=
  { f with
    files := Function.update f.files ino (some b)
    pending := Function.update f.pending ino true }

/-- The changes of the file have been flushed. -/
def settle (ino : ℕ) : Folder := { f with pending := Function.update f.pending ino false }

/-- A new empty file in a directory. -/
def add (parent : ℕ) (e : Entry) (name : String) (ino : ℕ) : Folder :=
  { f with
    entries := Function.update (Function.update f.entries ino (some ⟨name, .file, parent, []⟩))
      parent (some { e with children := e.children ++ [ino] })
    names := Function.update f.names ino (f.names parent ++ [name])
    files := Function.update f.files ino (some [])
    pending := Function.update f.pending ino true }

/-- What a request is replied, and what it makes of the folder. -/
inductive Serves : Request → Reply → Folder → Prop
  | found (parent : ℕ) (name : String) (ino : ℕ) (a : FileAttr)
      (child : f.child parent name = some ino) (attr : f.attr ino = some a) :
      Serves (.lookup parent name) (.entry a) f
  | missing (parent : ℕ) (name : String) (child : f.child parent name = none) :
      Serves (.lookup parent name) (.error .enoent) f
  | getattr (ino : ℕ) (a : FileAttr) (attr : f.attr ino = some a) :
      Serves (.getattr ino) (.attr a) f
  | gone (ino : ℕ) (entry : f.entries ino = none) : Serves (.getattr ino) (.error .enoent) f
  | open_ (ino : ℕ) (b : Bytes) (file : f.files ino = some b) : Serves (.open_ ino) .opened f
  | readdir (ino fh : ℕ) (offset : ℤ) (room : ℕ) :
      Serves (.readdir ino fh offset room) (f.page ino offset room) f
  | create (parent : ℕ) (name : String) (e : Entry) (ino : ℕ) (a : FileAttr)
      (entry : f.entries parent = some e) (dir : e.kind = .dir) (new : f.child parent name = none)
      (fresh : f.entries ino = none) (attr : (f.add parent e name ino).attr ino = some a) :
      Serves (.create parent name) (.created a) (f.add parent e name ino)
  | read (ino fh : ℕ) (offset : ℤ) (size : ℕ) (b : Bytes) (file : f.files ino = some b) :
      Serves (.read ino fh offset size) (.data (Cells.window b offset.toNat size)) f
  | write (ino fh : ℕ) (offset : ℤ) (data b : Bytes) (file : f.files ino = some b) :
      Serves (.write ino fh offset data) (.written data.length)
        (f.put ino (Cells.overlay 0 b offset.toNat data))
  | touch (ino : ℕ) (a : FileAttr) (b : Bytes) (file : f.files ino = some b)
      (attr : f.attr ino = some a) : Serves (.setattr ino none) (.attr a) f
  | resize (ino size : ℕ) (a : FileAttr) (b : Bytes) (file : f.files ino = some b)
      (attr : (f.put ino (Cells.truncate 0 b size)).attr ino = some a) :
      Serves (.setattr ino (some size)) (.attr a) (f.put ino (Cells.truncate 0 b size))
  | fsync (ino fh : ℕ) (b : Bytes) (file : f.files ino = some b) :
      Serves (.fsync ino fh) .ok (f.settle ino)
  | flush (ino fh : ℕ) (b : Bytes) (file : f.files ino = some b) :
      Serves (.flush ino fh) .ok (f.settle ino)
  | release (ino fh : ℕ) (b : Bytes) (file : f.files ino = some b) :
      Serves (.release ino fh) .ok (f.settle ino)

end Folder

/-- Byte strings by volume and path. -/
abbrev Stored := String × String → Option Bytes

/-- What a request leaves in the store: a flush of a file with changes writes it. -/
def Folder.save (f : Folder) (r : Request) (stored : Stored) : Stored :=
  match r.flushed with
  | none => stored
  | some ino =>
    if f.pending ino then Function.update stored (f.volume, pathOf (f.names ino)) (f.files ino)
    else stored

/-- A stored byte string whose path has a name. -/
def Shown (stored : Stored) (volume p : String) (b : Bytes) : Prop :=
  stored (volume, p) = some b ∧ trimmed p ≠ []

/-- A folder that has just been opened: a tree of one file for each stored path, of the
directories above these, once each, and of no changes. -/
structure Opened (stored : Stored) (volume : String) (uid gid : ℕ) (f : Folder) : Prop where
  of : f.volume = volume ∧ f.uid = uid ∧ f.gid = gid
  clean : ∀ ino, f.pending ino = false
  top : f.names root = [] ∧ ∃ e, f.entries root = some e ∧ e.kind = .dir ∧ e.parent = root
  below : ∀ ino e, f.entries ino = some e → ino ≠ root →
    f.names ino = f.names e.parent ++ [e.name] ∧
      ∃ p, f.entries e.parent = some p ∧ p.kind = .dir
  listed : ∀ ino e, f.entries ino = some e → e.children.Nodup ∧
    ∀ c, c ∈ e.children ↔ c ≠ root ∧ ∃ d, f.entries c = some d ∧ d.parent = ino
  kinds : ∀ ino, (∃ b, f.files ino = some b) ↔ ∃ e, f.entries ino = some e ∧ e.kind = .file
  above : ∀ ino e, f.entries ino = some e → e.kind = .dir → ino ≠ root →
    ∃ j b, f.files j = some b ∧ f.names ino <+: f.names j ∧ f.names ino ≠ f.names j
  once : ∀ i j e d, f.entries i = some e → e.kind = .dir → f.entries j = some d →
    d.kind = .dir → f.names i = f.names j → i = j
  files : ∃ inode : String → ℕ,
    (∀ p b, Shown stored volume p b →
      f.files (inode p) = some b ∧ f.names (inode p) = components p) ∧
    (∀ ino b, f.files ino = some b → ∃ p, Shown stored volume p b ∧ inode p = ino) ∧
    ∀ p q b c, Shown stored volume p b → Shown stored volume q c → inode p = inode q → p = q

/-- What a server with mounts is for: a store of byte strings, and folders that were
opened from it. -/
structure Drive (ι : Type) where
  stored : Stored
  folders : ι → Option Folder

/-- What goes on at a server with mounts, one thing at a time. -/
inductive Act (ι σ : Type) where
  | mount (i : ι) (volume : String) (uid gid : ℕ)
  | request (i : ι) (r : Request)
  | ingest (job : Job)
  | fetch (volume path : String)
  /-- A call of another client, however it ends, and the server after it. -/
  | client (job : Job) (result : Except String String) (server : σ)
  /-- A collection, and the server after it. -/
  | collect (server : σ)

inductive Response where
  | mounted
  | served (reply : Reply)
  | ingested (result : Except String String)
  | fetched (bytes : Option (Except String Bytes))
  | other
deriving DecidableEq

inductive Drive.Does {ι σ : Type} [DecidableEq ι] (fileHash : Bytes → String) (d : Drive ι) :
    Act ι σ → Response → Drive ι → Prop
  | mounted (i : ι) (volume : String) (uid gid : ℕ) (f : Folder)
      (opened : Opened d.stored volume uid gid f) :
      Does fileHash d (.mount i volume uid gid) .mounted
        { d with folders := Function.update d.folders i (some f) }
  | served (i : ι) (r : Request) (reply : Reply) (f f' : Folder) (folder : d.folders i = some f)
      (serves : f.Serves r reply f') :
      Does fileHash d (.request i r) (.served reply)
        ⟨f.save r d.stored, Function.update d.folders i (some f')⟩
  | ingested (job : Job) : Does fileHash d (.ingest job) (.ingested (.ok (fileHash job.bytes)))
      { d with stored := Function.update d.stored (job.volume, job.dest) (some job.bytes) }
  | fetched (volume path : String) :
      Does fileHash d (.fetch volume path) (.fetched ((d.stored (volume, path)).map .ok)) d
  | succeeded (job : Job) (fh : String) (server : σ) :
      Does fileHash d (.client job (.ok fh) server) .other
        { d with stored := Function.update d.stored (job.volume, job.dest) (some job.bytes) }
  /-- A call that has failed may have registered its file. -/
  | failed (job : Job) (e : String) (server : σ) (stored : Stored)
      (kept : stored = d.stored ∨
        stored = Function.update d.stored (job.volume, job.dest) (some job.bytes)) :
      Does fileHash d (.client job (.error e) server) .other { d with stored }
  | collected (server : σ) : Does fileHash d (.collect server) .other d

end Dejaveph.Mount

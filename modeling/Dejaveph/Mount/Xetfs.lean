import Dejaveph.Server.Handlers

namespace Dejaveph.Mount
open Lib Server

def root : ℕ := 1

inductive Kind where
  | dir
  | file
deriving DecidableEq

structure Node where
  name : String
  kind : Kind
  parent : ℕ
  children : List ℕ
  fileHash : Option String
  size : ℕ
deriving DecidableEq

/-- Write-back staging for an open-for-write file. -/
structure Staging where
  buf : Bytes
  dirty : Bool
deriving DecidableEq

structure Xetfs where
  volume : String
  nodes : Table ℕ Node
  openFiles : Table ℕ Staging := ∅
  cache : Table ℕ Bytes := ∅
  next : ℕ
  uid : ℕ
  gid : ℕ

/-- What the mount calls of `xet_agent`, over a server state. -/
structure XetAgent (σ : Type) where
  ingestBytes : (volume dest : String) → Bytes → σ → Except String String × σ
  reconstruct : String → σ → Except String Bytes
  /-- The file hash that the server's catalog has for a volume and a path. -/
  catalog : String × String → σ → Option String

/-- What the server has recorded once an ingest has succeeded. -/
structure XetAgent.Records {σ : Type} (agent : XetAgent σ) : Prop where
  catalog : ∀ volume dest b s fh s', agent.ingestBytes volume dest b s = (.ok fh, s') →
    agent.catalog (volume, dest) s' = some fh
  content : ∀ volume dest b s fh s', agent.ingestBytes volume dest b s = (.ok fh, s') →
    agent.reconstruct fh s' = .ok b
  /-- Another entry of the catalog stays. -/
  others : ∀ volume dest b s fh s', agent.ingestBytes volume dest b s = (.ok fh, s') →
    ∀ key, key ≠ (volume, dest) → agent.catalog key s' = agent.catalog key s
  /-- What could be reconstructed still can. -/
  keeps : ∀ volume dest b s fh s', agent.ingestBytes volume dest b s = (.ok fh, s') →
    ∀ fh' c, agent.reconstruct fh' s = .ok c → agent.reconstruct fh' s' = .ok c

/-- A server whose every ingest succeeds, with the hash of the bytes. -/
structure XetAgent.Faithful {σ : Type} (agent : XetAgent σ) (fileHash : Bytes → String) :
    Prop extends agent.Records where
  ingests : ∀ volume dest b s, ∃ s', agent.ingestBytes volume dest b s = (.ok (fileHash b), s')

/-- Insert a node, then list it with its parent. It fails where the source
unwraps a parent that is not there. -/
def addNode (nodes : Table ℕ Node) (ino : ℕ) (n : Node) : Option (Table ℕ Node) :=
  let nodes := nodes.insert ino n
  (nodes.lookup n.parent).map (fun p =>
    nodes.insert n.parent { p with children := p.children ++ [ino] })

/-- The inode tree while `connect` builds it. -/
structure Builder where
  nodes : Table ℕ Node
  dirIno : Table String ℕ
  next : ℕ

/-- The loop of `connect` over the components of a path. -/
def placeAt (e : EntryOut) : List String → ℕ → String → Builder → Option Builder
  | [], _, _, b => some b
  | comp :: rest, parent, accum, b =>
    let accum := (if accum = "" then accum else accum ++ "/") ++ comp
    if rest = [] then
      (addNode b.nodes b.next ⟨comp, .file, parent, [], some e.fileHash, e.size⟩).map
        (fun nodes => { b with nodes, next := b.next + 1 })
    else
      match b.dirIno.lookup accum with
      | some ino => placeAt e rest ino accum b
      | none =>
        (addNode b.nodes b.next ⟨comp, .dir, parent, [], none, 0⟩).bind (fun nodes =>
          placeAt e rest b.next accum
            { nodes, dirIno := b.dirIno.insert accum b.next, next := b.next + 1 })

def placeEntry (b : Builder) (e : EntryOut) : Option Builder :=
  let path := e.path.toList.dropWhile (· = '/')
  if path = [] then some b
  else placeAt e ((path.splitOn '/').map String.ofList) root "" b

def rootOnly : Builder where
  nodes := (∅ : Table ℕ Node).insert root ⟨"/", .dir, root, [], none, 0⟩
  dirIno := ∅
  next := 2

/-- A mount of a volume, of the entries that are listed for it. -/
def connect (volume : String) (entries : List EntryOut) (uid gid : ℕ) : Option Xetfs :=
  (entries.foldlM placeEntry rootOnly).map
    (fun b => { volume, nodes := b.nodes, next := b.next, uid, gid })

structure FileAttr where
  ino : ℕ
  size : ℕ
  blocks : ℕ
  kind : Kind
  perm : ℕ
  nlink : ℕ
  uid : ℕ
  gid : ℕ
  rdev : ℕ := 0
  blksize : ℕ := 512
  flags : ℕ := 0
deriving DecidableEq

inductive Errno where
  | enoent
  | enotdir
  | eio
deriving DecidableEq

inductive Reply where
  | entry (attr : FileAttr)
  | attr (attr : FileAttr)
  | opened
  | created (attr : FileAttr)
  | data (bytes : Bytes)
  | written (size : ℕ)
  | directory (entries : List (ℕ × ℕ × Kind × String))
  | ok
  | error (e : Errno)
deriving DecidableEq

/-- A request of the kernel. The file handles are those that `open` replied. -/
inductive Request where
  | lookup (parent : ℕ) (name : String)
  | getattr (ino : ℕ)
  | open_ (ino : ℕ)
  | create (parent : ℕ) (name : String)
  | read (ino fh : ℕ) (offset : ℤ) (size : ℕ)
  | write (ino fh : ℕ) (offset : ℤ) (data : Bytes)
  | setattr (ino : ℕ) (size : Option ℕ)
  | fsync (ino fh : ℕ)
  | flush (ino fh : ℕ)
  | release (ino fh : ℕ)
  | readdir (ino fh : ℕ) (offset : ℤ) (room : ℕ)
deriving DecidableEq

namespace Xetfs
variable (fs : Xetfs)

def attr (ino : ℕ) : Option FileAttr :=
  (fs.nodes.lookup ino).map (fun n =>
    { ino
      size := n.size
      blocks := (n.size + 511) / 512
      kind := n.kind
      perm := if n.kind = .dir then 0o755 else 0o644
      nlink := if n.kind = .dir then 2 else 1
      uid := fs.uid
      gid := fs.gid })

/-- The names from the root down to an inode, when the walk up to it ends within
so many steps. -/
def pathParts (nodes : Table ℕ Node) : ℕ → ℕ → Option (List String)
  | 0, cur => if cur = root then some [] else none
  | n + 1, cur =>
    if cur = root then some []
    else
      match nodes.lookup cur with
      | none => some []
      | some node => (pathParts nodes n node.parent).map (fun parts => parts ++ [node.name])

def fullPath (ino : ℕ) : Option String :=
  (pathParts fs.nodes (ino + 1) ino).map (fun parts => "/" ++ String.intercalate "/" parts)

def childNamed (parent : ℕ) (name : String) : Option ℕ :=
  (((fs.nodes.lookup parent).map Node.children).getD []).find? (fun c =>
    (fs.nodes.lookup c).any (fun n => n.name = name))

def modifyNode (ino : ℕ) (f : Node → Node) : Xetfs :=
  match fs.nodes.lookup ino with
  | none => fs
  | some n => { fs with nodes := fs.nodes.insert ino (f n) }

variable {σ : Type} (agent : XetAgent σ) (server : σ)

/-- The bytes of a file, cached per inode. -/
def fileBytes (ino : ℕ) : Option Bytes × Xetfs :=
  match fs.cache.lookup ino with
  | some bytes => (some bytes, fs)
  | none =>
    match (fs.nodes.lookup ino).bind Node.fileHash with
    | none => (none, fs)
    | some fh =>
      match agent.reconstruct fh server with
      | .error _ => (none, fs)
      | .ok bytes => (some bytes, { fs with cache := fs.cache.insert ino bytes })

/-- Ensure a staging buffer exists, seeding it from the current bytes. -/
def ensureStaging (ino : ℕ) : Staging × Xetfs :=
  match fs.openFiles.lookup ino with
  | some st => (st, fs)
  | none =>
    let (bytes, fs) := fs.fileBytes agent server ino
    let st : Staging := ⟨bytes.getD [], false⟩
    (st, { fs with openFiles := fs.openFiles.insert ino st })

def ingested (ino : ℕ) (fh : String) (len : ℕ) : Xetfs :=
  let fs := fs.modifyNode ino (fun n => { n with fileHash := some fh, size := len })
  { fs with cache := fs.cache.erase ino }

/-- Ingest a file's staged bytes. An error is only printed. -/
def flushBytes (ino : ℕ) (buf : Bytes) : Option (Xetfs × σ) :=
  (fs.fullPath ino).map (fun path =>
    match agent.ingestBytes fs.volume path buf server with
    | (.ok fh, server) => (fs.ingested ino fh buf.length, server)
    | (.error _, server) => (fs, server))

/-- Clear the dirty flag of a staging buffer. -/
def markClean (ino : ℕ) (st : Staging) : Xetfs :=
  { fs with openFiles := fs.openFiles.insert ino { st with dirty := false } }

def flushIfDirty (ino : ℕ) : Option (Xetfs × σ) :=
  match fs.openFiles.lookup ino with
  | some st =>
    if st.dirty then (fs.markClean ino st).flushBytes agent server ino st.buf
    else some (fs, server)
  | none => some (fs, server)

def resize (buf : Bytes) (n : ℕ) : Bytes := buf.take n ++ List.replicate (n - buf.length) 0

/-- `buf[off..off + data.len()].copy_from_slice(data)` -/
def copyFromSlice (buf : Bytes) (off : ℕ) (data : Bytes) : Bytes :=
  buf.take off ++ data ++ buf.drop (off + data.length)

/-- `bytes[start..end]` for a range clipped to the bytes. -/
def clip (bytes : Bytes) (off size : ℕ) : Bytes :=
  let start := min off bytes.length
  Pieces.slice bytes start (min (start + size) bytes.length)

def create (parent : ℕ) (name : String) : Option (Xetfs × Reply) := do
  let (ino, fs) ← match fs.childNamed parent name with
    | some i => some (i, fs)
    | none => (addNode fs.nodes fs.next ⟨name, .file, parent, [], none, 0⟩).map (fun nodes =>
        (fs.next, { fs with nodes, next := fs.next + 1 }))
  let fs := { fs with openFiles := fs.openFiles.insert ino ⟨[], true⟩ }
  some (fs, match fs.attr ino with
    | some a => .created a
    | none => .error .eio)

def read (ino : ℕ) (offset : ℤ) (size : ℕ) : Xetfs × Reply :=
  match fs.openFiles.lookup ino with
  | some st => (fs, .data (clip st.buf offset.toNat size))
  | none =>
    match fs.fileBytes agent server ino with
    | (some bytes, fs) => (fs, .data (clip bytes offset.toNat size))
    | (none, fs) => (fs, .error .enoent)

/-- The staging buffer after a write. -/
def written (buf : Bytes) (off : ℕ) (data : Bytes) : Bytes :=
  let stop := off + data.length
  copyFromSlice (if buf.length < stop then resize buf stop else buf) off data

def write (ino : ℕ) (offset : ℤ) (data : Bytes) : Xetfs × Reply :=
  let (st, fs) := fs.ensureStaging agent server ino
  let buf := written st.buf offset.toNat data
  let fs := { fs with openFiles := fs.openFiles.insert ino ⟨buf, true⟩ }
  (fs.modifyNode ino (fun n => { n with size := buf.length }), .written data.length)

def setattr (ino : ℕ) (size : Option ℕ) : Xetfs × Reply :=
  let fs := match size with
    | none => fs
    | some sz =>
      let (st, fs) := fs.ensureStaging agent server ino
      let fs := { fs with openFiles := fs.openFiles.insert ino ⟨resize st.buf sz, true⟩ }
      fs.modifyNode ino (fun n => { n with size := sz })
  (fs, match fs.attr ino with
    | some a => .attr a
    | none => .error .enoent)

def readdir (ino : ℕ) (offset : ℤ) (room : ℕ) : Option Reply :=
  match fs.nodes.lookup ino with
  | none => some (.error .enoent)
  | some node =>
    if node.kind ≠ .dir then some (.error .enotdir)
    else
      (node.children.mapM (fun c => (fs.nodes.lookup c).map (fun n => (c, n.kind, n.name)))).map
        (fun children =>
          let entries := (ino, Kind.dir, ".") :: (node.parent, Kind.dir, "..") :: children
          let listed := entries.zipIdx.map (fun p => (p.1.1, p.2 + 1, p.1.2))
          .directory (if offset < 0 then [] else (listed.drop offset.toNat).take room))

end Xetfs

structure Mounted (σ : Type) where
  fs : Xetfs
  server : σ

variable {σ : Type} (agent : XetAgent σ)

/-- One request. It fails where the source panics or does not return. -/
def serve (m : Mounted σ) : Request → Option (Mounted σ × Reply)
  | .lookup parent name =>
    some (m, match (m.fs.childNamed parent name).bind m.fs.attr with
      | some a => .entry a
      | none => .error .enoent)
  | .getattr ino =>
    some (m, match m.fs.attr ino with
      | some a => .attr a
      | none => .error .enoent)
  | .open_ _ => some (m, .opened)
  | .create parent name => (m.fs.create parent name).map (fun r => ({ m with fs := r.1 }, r.2))
  | .read ino _ offset size =>
    let r := m.fs.read agent m.server ino offset size
    some ({ m with fs := r.1 }, r.2)
  | .write ino _ offset data =>
    let r := m.fs.write agent m.server ino offset data
    some ({ m with fs := r.1 }, r.2)
  | .setattr ino size =>
    let r := m.fs.setattr agent m.server ino size
    some ({ m with fs := r.1 }, r.2)
  | .fsync ino _ | .flush ino _ =>
    (m.fs.flushIfDirty agent m.server ino).map (fun r => (⟨r.1, r.2⟩, .ok))
  | .release ino _ =>
    (m.fs.flushIfDirty agent m.server ino).map (fun r =>
      (⟨{ r.1 with openFiles := r.1.openFiles.erase ino }, r.2⟩, .ok))
  | .readdir ino _ offset room => (m.fs.readdir ino offset room).map (fun reply => (m, reply))

def next (m : Mounted σ) (r : Request) : Option (Mounted σ) := (serve agent m r).map Prod.fst

end Dejaveph.Mount

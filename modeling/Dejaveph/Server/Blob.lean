import Dejaveph.Server.State

namespace Dejaveph.Server
open Lib

/-- What the operating system does with one file operation. A failing write
may leave part of the file behind. -/
inductive Io where
  | ok
  | fail (error : String) (left : Option Bytes)
deriving DecidableEq

/-- Where a `put` stands: each stage is one file operation. -/
inductive PutStage where
  | tryExists
  | createDir
  | write
  | rename
  | recheck (error : String)
  | removeTmp
deriving DecidableEq

/-- A `put` call in flight. -/
structure PutCall (Hash : Type) where
  key : Hash
  bytes : Bytes
  stage : PutStage
deriving DecidableEq

inductive PutOut (Hash : Type) where
  | pending (call : PutCall Hash)
  | done (result : Except String Bool)

/-- The `BlobStore` trait over a store state `β`. Every operation but `put` is
one step; `getRange` fails with `none` where its arithmetic overflows. -/
structure BlobStore (Hash β : Type) where
  putStep : PutCall Hash → Io → β → PutOut Hash × β
  head : Hash → Io → β → Except String (Option ℕ)
  getRange : Hash → ℕ → ℕ → Io → β → Option (Except String Bytes)
  presignGet : Hash → Except String String
  delete : Hash → Io → β → Except String Unit × β

variable {Hash : Type}

def PutCall.start (key : Hash) (bytes : Bytes) : PutCall Hash := ⟨key, bytes, .tryExists⟩

def PutCall.at (call : PutCall Hash) (stage : PutStage) : PutOut Hash :=
  .pending { call with stage }

/-- `data[lo..hi.max(lo)]` for the inclusive range `[start, stop]`. -/
def readRange (data : Bytes) (start stop : ℕ) : Option Bytes :=
  if 2 ^ 64 ≤ stop + 1 then none
  else
    let lo := min start data.length
    let hi := min (stop + 1) data.length
    some (Pieces.slice data lo (max hi lo))

variable [DecidableEq Hash]

/-- The files below the root: the one at each key's path, and the one at its
temporary path. -/
structure LocalFs (Hash : Type) where
  files : Table Hash Bytes := ∅
  tmp : Table Hash Bytes := ∅

namespace LocalFs

abbrev object (fs : LocalFs Hash) (key : Hash) : Option Bytes := fs.files.lookup key

/-- The file is written in one step, which no caller can tell while the `put`s of a key take
turns at its temporary file. -/
def putStep (call : PutCall Hash) (io : Io) (fs : LocalFs Hash) : PutOut Hash × LocalFs Hash :=
  match call.stage, io with
  | .tryExists, .ok =>
    if call.key ∈ fs.files then (.done (.ok false), fs) else (call.at .createDir, fs)
  | .tryExists, .fail _ _ => (call.at .createDir, fs)
  | .createDir, .ok => (call.at .write, fs)
  | .createDir, .fail e _ => (.done (.error e), fs)
  | .write, .ok => (call.at .rename, { fs with tmp := fs.tmp.insert call.key call.bytes })
  | .write, .fail e none => (.done (.error e), fs)
  | .write, .fail e (some left) =>
    (.done (.error e), { fs with tmp := fs.tmp.insert call.key left })
  | .rename, .ok =>
    match fs.tmp.lookup call.key with
    | some b =>
      (.done (.ok true), { files := fs.files.insert call.key b, tmp := fs.tmp.erase call.key })
    | none => (call.at (.recheck "No such file or directory (os error 2)"), fs)
  | .rename, .fail e _ => (call.at (.recheck e), fs)
  | .recheck e, .ok =>
    if call.key ∈ fs.files then (call.at .removeTmp, fs) else (.done (.error e), fs)
  | .recheck e, .fail _ _ => (.done (.error e), fs)
  | .removeTmp, .ok => (.done (.ok false), { fs with tmp := fs.tmp.erase call.key })
  | .removeTmp, .fail _ _ => (.done (.ok false), fs)

/-- A file operation of a `put` leaves the stored files alone, or it is the
rename that puts the temporary file in place. -/
theorem putStep_cases (call : PutCall Hash) (io : Io) (fs : LocalFs Hash) :
    ((putStep call io fs).2.files = fs.files ∧ (putStep call io fs).1 ≠ .done (.ok true)) ∨
      ∃ b, call.stage = .rename ∧ io = .ok ∧ fs.tmp.lookup call.key = some b ∧
        (putStep call io fs).1 = .done (.ok true) ∧
        (putStep call io fs).2.files = fs.files.insert call.key b := by
  unfold putStep
  split
  case h_8 =>
    rename_i hstage
    split
    · rename_i b hb
      exact .inr ⟨b, hstage, rfl, hb, rfl, rfl⟩
    · exact .inl ⟨rfl, by simp [PutCall.at]⟩
  all_goals
    first
      | exact .inl ⟨rfl, by simp [PutCall.at]⟩
      | (split <;> exact .inl ⟨rfl, by simp [PutCall.at]⟩)

theorem putStep_pending {call call' : PutCall Hash} {io : Io} {fs : LocalFs Hash}
    (h : (putStep call io fs).1 = .pending call') :
    call'.key = call.key ∧ call'.bytes = call.bytes := by
  revert h
  unfold putStep PutCall.at
  repeat' split
  all_goals
    intro h
    cases h
  all_goals exact ⟨rfl, rfl⟩

def head (key : Hash) (io : Io) (fs : LocalFs Hash) : Except String (Option ℕ) :=
  match io with
  | .fail e _ => .error e
  | .ok => .ok ((fs.files.lookup key).map List.length)

def getRange (key : Hash) (start stop : ℕ) (io : Io) (fs : LocalFs Hash) :
    Option (Except String Bytes) :=
  match io, fs.files.lookup key with
  | .fail e _, _ => some (.error e)
  | .ok, none => some (.error "No such file or directory (os error 2)")
  | .ok, some data => (readRange data start stop).map .ok

def delete (key : Hash) (io : Io) (fs : LocalFs Hash) : Except String Unit × LocalFs Hash :=
  match io with
  | .ok => (.ok (), { fs with files := fs.files.erase key })
  | .fail e _ => (.error e, fs)

/-- A `put` that ends without having written, or removes its temporary file,
has found the blob of its key in place. -/
theorem putStep_found {call : PutCall Hash} {io : Io} {fs : LocalFs Hash}
    (h : (putStep call io fs).1 = .done (.ok false) ∨
      ∃ call', (putStep call io fs).1 = .pending call' ∧ call'.stage = .removeTmp) :
    call.stage = .removeTmp ∨
      ((call.stage = .tryExists ∨ ∃ e, call.stage = .recheck e) ∧ io = .ok ∧
        call.key ∈ fs.files) := by
  revert h
  unfold putStep PutCall.at
  repeat' split
  all_goals simp_all

theorem delete_lookup {key k : Hash} {io : Io} {fs : LocalFs Hash} (hk : k ≠ key) :
    (delete key io fs).2.files.lookup k = fs.files.lookup k := by
  cases io with
  | ok => exact AList.lookup_erase_ne hk
  | fail e left => rfl

end LocalFs

/-- The path under which the server serves the bytes of a xorb. -/
def xorbDataPath : String := "/api/v1/xorb-data/"

def localFs (core : XetCore Hash) (publicBase : String) : BlobStore Hash (LocalFs Hash) where
  putStep := LocalFs.putStep
  head := LocalFs.head
  getRange := LocalFs.getRange
  presignGet := fun key => .ok (publicBase ++ xorbDataPath ++ core.hex key)
  delete := LocalFs.delete

namespace WriteOnce

def putStep (call : PutCall Hash) (io : Io) (m : Table Hash Bytes) :
    PutOut Hash × Table Hash Bytes :=
  match io with
  | .fail e _ => (.done (.error e), m)
  | .ok =>
    if call.key ∈ m then (.done (.ok false), m)
    else (.done (.ok true), m.insert call.key call.bytes)

theorem putStep_cases (call : PutCall Hash) (io : Io) (m : Table Hash Bytes) :
    ((putStep call io m).2 = m ∧ (putStep call io m).1 ≠ .done (.ok true)) ∨
      (putStep call io m).2 = m.insert call.key call.bytes := by
  cases io with
  | fail e left => exact .inl ⟨rfl, by simp [putStep]⟩
  | ok =>
    by_cases hm : call.key ∈ m
    · exact .inl (by simp [putStep, hm])
    · exact .inr (by simp [putStep, hm])

theorem putStep_done {call call' : PutCall Hash} {io : Io} {m : Table Hash Bytes} :
    (putStep call io m).1 ≠ .pending call' := by
  cases io with
  | fail e left => simp [putStep]
  | ok => by_cases hm : call.key ∈ m <;> simp [putStep, hm]

end WriteOnce

def WriteOnce.delete (key : Hash) (io : Io) (m : Table Hash Bytes) :
    Except String Unit × Table Hash Bytes :=
  match io with
  | .ok => (.ok (), m.erase key)
  | .fail e _ => (.error e, m)

theorem WriteOnce.mem_delete {key k : Hash} {io : Io} {m : Table Hash Bytes} (hk : k ≠ key)
    (hm : k ∈ m) : k ∈ (WriteOnce.delete key io m).2 := by
  cases io with
  | ok => exact AList.mem_erase.mpr ⟨hk, hm⟩
  | fail e left => exact hm

/-- What a blob store is for: a map in which a key is written once and keeps
its bytes until it is deleted, every operation being one step. -/
def writeOnce (core : XetCore Hash) (publicBase : String) : BlobStore Hash (Table Hash Bytes) where
  putStep := WriteOnce.putStep
  head := fun key io m =>
    match io with
    | .fail e _ => .error e
    | .ok => .ok ((m.lookup key).map List.length)
  getRange := fun key start stop io m =>
    match io, m.lookup key with
    | .fail e _, _ => some (.error e)
    | .ok, none => some (.error "not found")
    | .ok, some data => (readRange data start stop).map .ok
  presignGet := fun key => .ok (publicBase ++ xorbDataPath ++ core.hex key)
  delete := WriteOnce.delete

end Dejaveph.Server

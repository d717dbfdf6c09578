import Dejaveph.Mount.Connect
import Dejaveph.Mount.Posix
import Dejaveph.Mount.Served
import Dejaveph.PlainCore

namespace Dejaveph.Proofs.WriteBack
open Lib Server Agent Mount

/-- The path has exactly one leading slash. -/
def Rooted (p : String) : Prop := ∃ rest, p.toList = '/' :: rest ∧ rest.head? ≠ some '/'

/-- The path that the mount gives to the file of a listed path. -/
def mountPath (p : String) : String := "/" ++ String.ofList (trimmed p)

theorem rooted_iff (p : String) : Rooted p ↔ mountPath p = p := by
  have hl : mountPath p = p ↔ '/' :: trimmed p = p.toList := by
    rw [← String.toList_inj, mountPath, String.toList_append, String.toList_ofList,
      String.toList_ofList]
    rfl
  rw [hl, trimmed]
  constructor
  · rintro ⟨rest, hp, hrest⟩
    rw [hp, List.dropWhile_cons_of_pos (by simp)]
    cases rest with
    | nil => rfl
    | cons c cs =>
      have hc : c ≠ '/' := fun he => hrest (by rw [he]; rfl)
      rw [List.dropWhile_cons_of_neg (by simpa using hc)]
  · intro he
    refine ⟨_, he.symm, ?_⟩
    intro hs
    have hnot := List.head?_dropWhile_not (· = '/') p.toList
    rw [hs] at hnot
    simp at hnot

section
variable {σ : Type} {agent : XetAgent σ} {volume : String} {ino : ℕ} {names : List String}

/-- The inode has these names, in the volume. -/
structure Placed (volume : String) (ino : ℕ) (names : List String) (m : Mounted σ) : Prop where
  closed : Closed m.fs.nodes m.fs.next
  volume : m.fs.volume = volume
  mem : ino ∈ m.fs.nodes
  parts : partsOf m.fs.nodes ino = some names

theorem Placed.next {m m' : Mounted σ} (hp : Placed volume ino names m) {l : Mount.Request ⊕ σ}
    (h : sharedNext agent m l = some m') : Placed volume ino names m' := by
  cases l with
  | inr server =>
    cases h
    exact ⟨hp.closed, hp.volume, hp.mem, hp.parts⟩
  | inl r =>
    obtain ⟨⟨m'', reply⟩, hs, rfl⟩ := Option.map_eq_some_iff.mp h
    obtain ⟨hv, ⟨hn, ho⟩ | ⟨parent, name, hc⟩⟩ := serve_nodes hs
    · exact ⟨hn ▸ ho.closed hp.closed, hv.trans hp.volume, ho.mem.mpr hp.mem,
        (ho.pathParts _ _).trans hp.parts⟩
    · have hne : ino ≠ m.fs.next := Nat.ne_of_lt (hp.closed.below ino hp.mem)
      exact ⟨hc.next ▸ hp.closed.addNode hc.added, hv.trans hp.volume,
        (addNode_mem hc.added).mpr (.inr hp.mem),
        (hp.closed.pathParts hc.added _ hne).trans hp.parts⟩

theorem listed_placed {entries : List EntryOut} {uid gid : ℕ} {fs : Xetfs} {server : σ}
    (hc : connect volume entries uid gid = some fs) {labels : List (Mount.Request ⊕ σ)}
    {m : Mounted σ} (run : Run.exec (sharedNext agent) ⟨fs, server⟩ labels = some m)
    {e : EntryOut} (he : (ino, e) ∈ fileInodes rootOnly entries) :
    Placed volume ino (components e.path) m := by
  obtain ⟨fs', hc', ht, _, _, hfiles, _, _⟩ := connect_built volume entries uid gid
  obtain rfl := Option.some.inj (hc.symm.trans hc')
  obtain ⟨fs', hc', hv, _⟩ := connect_ok volume entries uid gid
  obtain rfl := Option.some.inj (hc.symm.trans hc')
  have hfile := hfiles _ he
  exact Run.exec_preserves (fun _ _ _ hi h => Placed.next hi h)
    ⟨ht.closed, hv, hfile.mem, hfile.parts⟩ run

theorem Placed.fullPath {p : String} {m : Mounted σ}
    (hp : Placed volume ino (components p) m) : m.fs.fullPath ino = some (mountPath p) := by
  rw [partsOf_fullPath hp.parts, intercalate_components, mountPath]

/-- A flush ingests the staged bytes of an inode. -/
structure Flushed (agent : XetAgent σ) (m : Mounted σ) (r : Mount.Request) (ino : ℕ) (b : Bytes)
    (fh : String) (m' : Mounted σ) : Prop where
  request : r.flushed = some ino
  staged : m.fs.openFiles.lookup ino = some ⟨b, true⟩
  served : Mount.next agent m r = some m'
  accepted : ∃ path, m.fs.fullPath ino = some path ∧
    (agent.ingestBytes m.fs.volume path b m.server).1 = .ok fh

theorem Flushed.ingested {m m' : Mounted σ} {r : Mount.Request} {b : Bytes} {fh path : String}
    (h : Flushed agent m r ino b fh m') (hp : m.fs.fullPath ino = some path) :
    agent.ingestBytes m.fs.volume path b m.server = (.ok fh, m'.server) := by
  obtain ⟨path', hpath, hok⟩ := h.accepted
  obtain rfl := Option.some.inj (hp.symm.trans hpath)
  obtain ⟨fs', hflush, _⟩ := Xetfs.flushIfDirty_ok h.staged rfl hp (Prod.ext hok rfl)
  have hserved := h.served
  cases r with
  | fsync i f | flush i f | release i f =>
    obtain rfl := Option.some.inj h.request
    simp only [Mount.next, serve, hflush, Option.map_some, Option.some.injEq] at hserved
    rw [← hserved]
    exact Prod.ext hok rfl
  | _ => cases h.request

end

section
variable {Hash β : Type} [DecidableEq Hash]

/-- The entry of a path has the new hash, also for who asks for it, and no other
entry has changed. -/
structure WrittenBack (core : XetCore Hash) (volume p fh : String) (before after : Index Hash) :
    Prop where
  entry : (after.catalog.lookup (volume, p)).map core.hex = some fh
  asked : catalogFileHash core after volume p = some fh
  others : ∀ key, key ≠ (volume, p) → after.catalog.lookup key = before.catalog.lookup key

/-- The entries of a path and of the one that the mount gives to its file both have
this hash. -/
def Agree (idx : Index Hash) (volume p : String) (h : Hash) : Prop :=
  idx.catalog.lookup (volume, p) = some h ∧ idx.catalog.lookup (volume, mountPath p) = some h

/-- An entry written under the path of the mount is written back when that is the
listed path, or when there is nothing to write. -/
theorem writtenBack_iff {core : XetCore Hash} (hx : core.HexLaws) {volume p : String} {h : Hash}
    {before after : Index Hash}
    (hc : after.catalog = before.catalog.insert (volume, mountPath p) h) :
    WrittenBack core volume p (core.hex h) before after ↔ Rooted p ∨ Agree before volume p h := by
  constructor
  · intro hw
    by_cases hr : Rooted p
    · exact .inl hr
    have hne : mountPath p ≠ p := fun he => hr ((rooted_iff p).mpr he)
    have hentry := hw.entry
    have hother := hw.others (volume, mountPath p) (fun he => hne (Prod.mk.inj he).2)
    rw [hc, AList.lookup_insert_ne (fun he => hne (Prod.mk.inj he).2.symm)] at hentry
    rw [hc, AList.lookup_insert] at hother
    obtain ⟨h', hl, hh⟩ := Option.map_eq_some_iff.mp hentry
    rw [hx.hex_injective hh] at hl
    exact .inr ⟨hl, hother.symm⟩
  · intro hor
    have hsame : after.catalog.lookup (volume, p) = some h ∧
        ∀ key, key ≠ (volume, p) → after.catalog.lookup key = before.catalog.lookup key := by
      rcases hor with hr | ⟨hp, hm⟩
      · rw [(rooted_iff p).mp hr] at hc
        rw [hc, AList.lookup_insert]
        exact ⟨rfl, fun key hk => AList.lookup_insert_ne hk⟩
      · have hall : ∀ key, after.catalog.lookup key = before.catalog.lookup key := by
          intro key
          rw [hc, Table.lookup_insert_if]
          split
          · rename_i hk
            rw [hk, hm]
          · rfl
        exact ⟨(hall _).trans hp, fun key _ => hall key⟩
    refine ⟨?_, ?_, hsame.2⟩
    · rw [hsame.1, Option.map_some]
    · rw [catalogFileHash_eq, hsame.1, Option.map_some]

/-- The mount gives the file of a listed path that path exactly when it has one
leading slash, and a successful flush of the file then updates the entry that it
came from. Of the other paths only entries that have the hash already are left as
they should be. -/
theorem write_back_iff {core : XetCore Hash} {store : BlobStore Hash β} (hx : core.HexLaws)
    (agent : XetAgent (AppState Hash β)) (follows : Follows core store agent) (volume : String)
    (entries : List EntryOut) (uid gid : ℕ) (app : AppState Hash β) (fs : Xetfs)
    (hc : connect volume entries uid gid = some fs)
    (labels : List (Mount.Request ⊕ AppState Hash β)) (m : Mounted (AppState Hash β))
    (run : Run.exec (sharedNext agent) ⟨fs, app⟩ labels = some m) (ino : ℕ) (e : EntryOut)
    (he : (ino, e) ∈ fileInodes rootOnly entries) :
    (m.fs.fullPath ino = some e.path ↔ Rooted e.path) ∧
    ∀ r b fh m', Flushed agent m r ino b fh m' →
      (WrittenBack core volume e.path fh m.server.index m'.server.index ↔
        Rooted e.path ∨ Agree m.server.index volume e.path (core.fileHashOf b)) := by
  have hplaced := listed_placed hc run he
  have hpath := hplaced.fullPath
  constructor
  · rw [hpath, rooted_iff, Option.some.injEq]
  · intro r b fh m' hf
    have hingest := follows m.fs.volume (mountPath e.path) b m.server
    rw [hf.ingested hpath] at hingest
    obtain ⟨cut, hingest⟩ := hingest
    obtain ⟨rfl, hcat⟩ := ingests_catalog hx (by nofun) hingest
    rw [hplaced.volume] at hcat
    exact writtenBack_iff hx hcat

end

section

/-- The state of a server of one-byte chunks. -/
abbrev PlainApp := AppState Plain.PlainHash (LocalFs Plain.PlainHash)

def plainAgent : XetAgent PlainApp := agentAlone Plain.plain "" 9

/-- A server to which one file has been ingested under this path. -/
def stocked (path : String) : PlainApp :=
  (plainAgent.ingestBytes "v" path [5] { blob := {} }).2

/-- The listing of that server. -/
def listed (path : String) : List EntryOut := listEntries Plain.plain (stocked path).index "v"

/-- The mount of that listing, and the states before and after a flush of its file. -/
def edit (path : String) : Option (Xetfs × Mounted PlainApp × Mounted PlainApp) := do
  let fs ← connect "v" (listed path) 0 0
  let m ← Run.exec (sharedNext plainAgent) ⟨fs, stocked path⟩ [.inl (.write 2 0 1 [1])]
  let m' ← Mount.next plainAgent m (.flush 2 0)
  some (fs, m, m')

/-- The flush of an edit has ingested what was written. -/
def edits (path : String) (test : Mounted PlainApp → Mounted PlainApp → Bool) : Bool :=
  (edit path).any (fun p => test p.2.1 p.2.2 && (p.2.1.fs.openFiles.lookup 2 = some ⟨[5, 1], true⟩ &&
    (p.2.1.fs.fullPath 2).any (fun path =>
      (plainAgent.ingestBytes p.2.1.fs.volume path [5, 1] p.2.1.server).1.isOk)))

theorem edits_flushed {path : String} {test : Mounted PlainApp → Mounted PlainApp → Bool}
    (h : edits path test = true) : ∃ fs m m' fh, connect "v" (listed path) 0 0 = some fs ∧
      Run.exec (sharedNext plainAgent) ⟨fs, stocked path⟩ [.inl (.write 2 0 1 [1])] = some m ∧
      Flushed plainAgent m (.flush 2 0) 2 [5, 1] fh m' ∧ test m m' = true := by
  obtain ⟨⟨fs, m, m'⟩, hedit, h⟩ := Option.any_eq_true _ _ |>.mp h
  simp only [Bool.and_eq_true, decide_eq_true_eq, Option.any_eq_true] at h
  obtain ⟨htest, hstaged, p, hp, hok⟩ := h
  simp only [edit, Option.bind_eq_bind, Option.bind_eq_some_iff, Option.some.injEq,
    Prod.mk.injEq] at hedit
  obtain ⟨fs, hc, m, hm, m', hn, rfl, rfl, rfl⟩ := hedit
  cases hi : (plainAgent.ingestBytes m.fs.volume p [5, 1] m.server).1 with
  | error e =>
    rw [hi] at hok
    cases hok
  | ok fh => exact ⟨fs, m, m', fh, hc, hm, ⟨rfl, hstaged, hn, p, hp, hi⟩, htest⟩

theorem write_back_iff_rooted : ∃ fs m m' fh, connect "v" (listed "/a") 0 0 = some fs ∧
    Run.exec (sharedNext plainAgent) ⟨fs, stocked "/a"⟩ [.inl (.write 2 0 1 [1])] = some m ∧
    Flushed plainAgent m (.flush 2 0) 2 [5, 1] fh m' ∧
    WrittenBack Plain.plain "v" "/a" fh m.server.index m'.server.index := by
  have hedits : edits "/a" (fun _ _ => true) = true := by decide +kernel
  obtain ⟨fs, m, m', fh, hc, hm, hf, _⟩ := edits_flushed hedits
  have hiff := (write_back_iff Plain.plain_hex plainAgent (agentAlone_follows "" 9) "v"
    (listed "/a") 0 0 (stocked "/a") fs hc _ m hm 2 ⟨"/a", Plain.hex [2, 1, 5], 1⟩
    (by decide +kernel)).2 (.flush 2 0) [5, 1] fh m' hf
  exact ⟨fs, m, m', fh, hc, hm, hf, hiff.mpr (.inl ⟨['a'], rfl, by decide⟩)⟩

/-- The entry of a path without a leading slash stays as it was, and the flush
creates another one. -/
theorem unrooted_entry_stale : ∃ fs m m' fh, connect "v" (listed "a") 0 0 = some fs ∧
    (2, ⟨"a", Plain.hex [2, 1, 5], 1⟩) ∈ fileInodes rootOnly (listed "a") ∧
    Run.exec (sharedNext plainAgent) ⟨fs, stocked "a"⟩ [.inl (.write 2 0 1 [1])] = some m ∧
    Flushed plainAgent m (.flush 2 0) 2 [5, 1] fh m' ∧
    ¬ WrittenBack Plain.plain "v" "a" fh m.server.index m'.server.index ∧
    m'.server.index.catalog.keys = [("v", "/a"), ("v", "a")] := by
  have hedits : edits "a" (fun m m' => m.server.index.catalog.keys = [("v", "a")] &&
      m'.server.index.catalog.keys = [("v", "/a"), ("v", "a")]) = true := by decide +kernel
  obtain ⟨fs, m, m', fh, hc, hm, hf, htest⟩ := edits_flushed hedits
  rw [Bool.and_eq_true, decide_eq_true_eq, decide_eq_true_eq] at htest
  refine ⟨fs, m, m', fh, hc, by decide +kernel, hm, hf, ?_, htest.2⟩
  intro hw
  have hmem : ("v", "/a") ∈ m'.server.index.catalog := by
    rw [AList.mem_keys, htest.2]
    simp
  rw [Table.mem_iff, hw.others _ (by decide), ← Table.mem_iff, AList.mem_keys, htest.1] at hmem
  simp at hmem

end

end Dejaveph.Proofs.WriteBack

import Dejaveph.Proofs.MountRefines
import Dejaveph.Proofs.WriteBack

namespace Dejaveph.Proofs.PartialWrite
open Lib Server Mount MountRefines WriteBack

variable {σ : Type} {agent : XetAgent σ} {o : Option String}

/-- What a fetch goes on: an ingest that succeeds has stored its bytes, and none
loses any, whether it succeeds or not. -/
structure Stores (agent : XetAgent σ) : Prop where
  content : ∀ volume dest b s fh s', agent.ingestBytes volume dest b s = (.ok fh, s') →
    agent.reconstruct fh s' = .ok b
  keeps : ∀ volume dest b s fh c, agent.reconstruct fh s = .ok c →
    agent.reconstruct fh (agent.ingestBytes volume dest b s).2 = .ok c

theorem Stores.kept (stores : Stores agent) {volume dest : String} {b : Bytes} {s s' : σ}
    {result : Except String String} (h : agent.ingestBytes volume dest b s = (result, s')) :
    ∀ fh c, agent.reconstruct fh s = .ok c → agent.reconstruct fh s' = .ok c := by
  intro fh c hr
  have hkeep := stores.keeps volume dest b s fh c hr
  rwa [h] at hkeep

/-- The agent of a request whose fetch fails with this error, if with any. -/
def fetching (agent : XetAgent σ) : Option String → XetAgent σ
  | none => agent
  | some e => { agent with reconstruct := fun _ _ => .error e }

/-- The state after a request and what becomes of its fetch. -/
def fetchNext (agent : XetAgent σ) (m : Mounted σ) (l : Mount.Request × Option String) :
    Option (Mounted σ) :=
  next (fetching agent l.2) m l.1

theorem fetching_ingestBytes : (fetching agent o).ingestBytes = agent.ingestBytes := by
  cases o <;> rfl

theorem fetching_reconstruct {fh : String} {server : σ} {c : Bytes}
    (h : (fetching agent o).reconstruct fh server = .ok c) :
    agent.reconstruct fh server = .ok c := by
  cases o with
  | none => exact h
  | some e => cases h

/-- The cache has copies of what the server has for the inodes. -/
structure Fetched (agent : XetAgent σ) (m : Mounted σ) : Prop where
  closed : Closed m.fs.nodes m.fs.next
  cached : ∀ ino c, m.fs.cache.lookup ino = some c → Durable agent m ino c

section
variable {m m' : Mounted σ} {fs' : Xetfs} {ino : ℕ} {b c : Bytes}

theorem Durable.kept (hh : m'.fs.hashOf ino = m.fs.hashOf ino)
    (hk : ∀ fh c, agent.reconstruct fh m.server = .ok c → agent.reconstruct fh m'.server = .ok c)
    (h : Durable agent m ino b) : Durable agent m' ino b := by
  obtain ⟨fh, hfh, hr⟩ := h
  exact ⟨fh, hh.trans hfh, hk fh b hr⟩

theorem Fetched.fetch (hf : Fetched agent m)
    (hc : m.fs.cache.lookup ino = some c ∨ ∃ fh, m.fs.hashOf ino = some fh ∧
      (fetching agent o).reconstruct fh m.server = .ok c) : Durable agent m ino c := by
  rcases hc with hc | ⟨fh, hfh, hr⟩
  · exact hf.cached ino c hc
  · exact ⟨fh, hfh, fetching_reconstruct hr⟩

theorem Fetched.stages (hf : Fetched agent m) (hs : Xetfs.Stages m.fs fs' ino b)
    (hc : ∀ i c, fs'.cache.lookup i = some c → Durable agent m i c) :
    Fetched agent { m with fs := fs' } := by
  constructor
  · have hclosed := hs.outline.closed hf.closed
    rwa [← hs.next] at hclosed
  · exact fun i c hi => Durable.congr (hs.hashes i) rfl (hc i c hi)

theorem Fetched.creates (hf : Fetched agent m) {parent : ℕ} {name : String}
    (h : Xetfs.Creates m.fs fs' parent name) : Fetched agent { m with fs := fs' } := by
  constructor
  · have hclosed := hf.closed.addNode h.added
    rwa [← h.next] at hclosed
  · intro i c hi
    rw [h.cache] at hi
    have hd := hf.cached i c hi
    have hne : i ≠ m.fs.next := by
      obtain ⟨fh, hfh, _⟩ := hd
      obtain ⟨n, hn, _⟩ := Option.bind_eq_some_iff.mp hfh
      exact Nat.ne_of_lt (hf.closed.below i (Table.mem_of_lookup hn))
    exact Durable.congr (Creates.hashOf h hne) rfl hd

theorem Fetched.flushes (stores : Stores agent) (hf : Fetched agent m) {server' : σ}
    (h : m.fs.flushIfDirty (fetching agent o) m.server ino = some (fs', server')) :
    Fetched agent ⟨fs', server'⟩ := by
  obtain ⟨_, hnext, hshape⟩ := Xetfs.flushIfDirty_frame h
  have hclosed := hshape.outline.closed hf.closed
  rw [← hnext] at hclosed
  refine ⟨hclosed, ?_⟩
  obtain ⟨rfl, rfl, _⟩ | ⟨st, path, result, _, _, _, hingest, rfl⟩ := Xetfs.flushIfDirty_cases h
  · exact hf.cached
  · rw [fetching_ingestBytes] at hingest
    have hk := stores.kept hingest
    intro i c hi
    cases result with
    | error e => exact Durable.kept (m := m) rfl hk (hf.cached i c hi)
    | ok fh =>
      have hflush : Xetfs.Flushes m.fs ((m.fs.markClean ino st).ingested ino fh st.buf.length) ino
        st.buf fh := Xetfs.ingested_flushes st fh
      have hcache := hflush.cache i
      rw [show ((m.fs.markClean ino st).ingested ino fh st.buf.length).cache.lookup i = some c
        from hi] at hcache
      split at hcache
      · cases hcache
      · rename_i hne
        refine Durable.kept (m := m) ?_ hk (hf.cached i c hcache.symm)
        exact (hflush.hashes i).trans (if_neg hne)

theorem Fetched.next (stores : Stores agent) (hf : Fetched agent m) {r : Mount.Request}
    {reply : Reply} (h : serve (fetching agent o) m r = some (m', reply)) : Fetched agent m' := by
  cases r with
  | create parent name =>
    obtain ⟨⟨fs', reply'⟩, hc, he⟩ := Option.map_eq_some_iff.mp h
    cases he
    have hcache := Xetfs.create_cache hc
    obtain ⟨a, _, hst | ⟨_, hcr⟩⟩ := Xetfs.create_cases hc
    · exact hf.stages hst (fun i c hi => hf.cached i c (by rwa [← hcache]))
    · exact hf.creates hcr
  | write i fh offset data =>
    cases h
    refine hf.stages (Xetfs.write_stages offset data) ?_
    intro j c hj
    rw [Xetfs.write_cache] at hj
    exact hf.fetch (Xetfs.ensureStaging_cache hj)
  | setattr i size =>
    cases h
    cases size with
    | none => exact hf
    | some size =>
      refine hf.stages (Xetfs.setattr_stages size) ?_
      intro j c hj
      rw [Xetfs.setattr_cache] at hj
      exact hf.fetch (Xetfs.ensureStaging_cache hj)
  | read i fh offset size =>
    cases h
    have hcached : ∀ j c, (m.fs.read (fetching agent o) m.server i offset size).1.cache.lookup j =
        some c → Durable agent m j c := fun j c hj => hf.fetch (Xetfs.read_cache hj)
    obtain ⟨cache, hc⟩ : ∃ cache, (m.fs.read (fetching agent o) m.server i offset size).1 =
      { m.fs with cache := cache } := Xetfs.read_frame offset size
    rw [hc] at hcached ⊢
    exact ⟨hf.closed, hcached⟩
  | fsync i fh | flush i fh =>
    obtain ⟨⟨fs', server'⟩, hflush, he⟩ := Option.map_eq_some_iff.mp h
    cases he
    exact hf.flushes stores hflush
  | release i fh =>
    obtain ⟨⟨fs', server'⟩, hflush, he⟩ := Option.map_eq_some_iff.mp h
    cases he
    have hf' := hf.flushes stores hflush
    exact ⟨hf'.closed, hf'.cached⟩
  | readdir i fh offset room =>
    obtain ⟨reply', _, he⟩ := Option.map_eq_some_iff.mp h
    cases he
    exact hf
  | _ =>
    cases h
    exact hf

theorem fetched_connect {volume : String} {entries : List EntryOut} {uid gid : ℕ} {fs : Xetfs}
    (h : connect volume entries uid gid = some fs) (server : σ) : Fetched agent ⟨fs, server⟩ := by
  obtain ⟨fs', hc, _, _, hcache, ht, _⟩ := connect_ok volume entries uid gid
  obtain rfl := Option.some.inj (h.symm.trans hc)
  refine ⟨ht.closed, ?_⟩
  intro ino c hi
  rw [hcache] at hi
  cases hi

end

/-- The requests that change the bytes of a file, each with the change. -/
inductive Edits : Mount.Request → ℕ → (Bytes → Bytes) → Prop
  | write (ino fh : ℕ) (offset : ℤ) (data : Bytes) :
      Edits (.write ino fh offset data) ino (fun b => Cells.overlay 0 b offset.toNat data)
  | resize (ino size : ℕ) : Edits (.setattr ino (some size)) ino (fun b => Cells.truncate 0 b size)

/-- Nothing of the bytes is left by the request but zeros. -/
def Replaces : Mount.Request → Bytes → Prop
  | .write _ _ offset data, c =>
    c.length ≤ offset.toNat + data.length ∧ ∀ x ∈ c.take offset.toNat, x = 0
  | .setattr _ (some size), c => ∀ x ∈ c.take size, x = 0
  | _, _ => False

/-- Staging, nodes and catalog are what they were. -/
structure Untouched (agent : XetAgent σ) (m m' : Mounted σ) : Prop where
  openFiles : m'.fs.openFiles = m.fs.openFiles
  nodes : m'.fs.nodes = m.fs.nodes
  catalog : ∀ key, agent.catalog key m'.server = agent.catalog key m.server

/-- A request has staged these bytes, or it has replied an error and changed nothing,
also for the flush or release that follows. -/
def Preserved (agent : XetAgent σ) (m m' : Mounted σ) (reply : Reply) (ino : ℕ) (b : Bytes) :
    Prop :=
  (∃ st, m'.fs.openFiles.lookup ino = some st ∧ st.buf = b) ∨
    ∃ e, reply = .error e ∧ Untouched agent m m' ∧ ∀ r o m'' reply', r.flushed = some ino →
      serve (fetching agent o) m' r = some (m'', reply') → Untouched agent m m''

section
variable {m m' : Mounted σ} {r : Mount.Request} {ino : ℕ} {f : Bytes → Bytes} {c : Bytes}

theorem edits_nil_iff (he : Edits r ino f) : f [] = f c ↔ Replaces r c := by
  cases he with
  | write => exact Cells.overlay_nil_iff
  | resize => exact Cells.truncate_nil_iff

variable (agent) in
theorem edits_serve (he : Edits r ino f) (file : IsFile m.fs ino) : ∃ m' reply,
    serve agent m r = some (m', reply) ∧ m'.server = m.server ∧
      Xetfs.Stages m.fs m'.fs ino (f (m.fs.ensureStaging agent m.server ino).1.buf) ∧
      ∀ e, reply ≠ .error e := by
  cases he with
  | write ino fh offset data =>
    have hst : Xetfs.Stages m.fs (m.fs.write agent m.server ino offset data).1 ino _ :=
      Xetfs.write_stages offset data
    rw [written_overlay] at hst
    exact ⟨_, _, rfl, rfl, hst, nofun⟩
  | resize ino size =>
    have hst : Xetfs.Stages m.fs (m.fs.setattr agent m.server ino (some size)).1 ino _ :=
      Xetfs.setattr_stages size
    rw [resize_truncate] at hst
    refine ⟨_, _, rfl, rfl, hst, ?_⟩
    have hfile : IsFile (m.fs.setattr agent m.server ino (some size)).1 ino :=
      (IsFile.congr hst.outline).mpr file
    obtain ⟨a, ha⟩ := attr_file (m := ⟨_, m.server⟩) hfile
    intro e
    rw [Xetfs.setattr_reply ha]
    nofun

theorem fileBytes_fetched (hf : Fetched agent m) (content : Durable agent m ino c)
    (hfetch : (m.fs.cache.lookup ino).isSome = true ∨ o = none) :
    (m.fs.fileBytes (fetching agent o) m.server ino).1 = some c := by
  obtain ⟨fh, hfh, hrec⟩ := content
  unfold Xetfs.fileBytes
  cases hc : m.fs.cache.lookup ino with
  | some d =>
    obtain ⟨fh', hfh', hrec'⟩ := hf.cached ino d hc
    obtain rfl := Option.some.inj (hfh.symm.trans hfh')
    exact congrArg some (Except.ok.inj (hrec'.symm.trans hrec))
  | none =>
    rw [hc] at hfetch
    obtain rfl := hfetch.resolve_left nofun
    change (m.fs.nodes.lookup ino).bind Node.fileHash = some fh at hfh
    simp only [hfh, fetching, hrec]

theorem seeded_fetched (hf : Fetched agent m) (unstaged : m.fs.openFiles.lookup ino = none)
    (content : Durable agent m ino c)
    (hfetch : (m.fs.cache.lookup ino).isSome = true ∨ o = none) :
    (m.fs.ensureStaging (fetching agent o) m.server ino).1.buf = c := by
  simp only [Xetfs.ensureStaging, unstaged, fileBytes_fetched hf content hfetch, Option.getD_some]

theorem seeded_empty (unstaged : m.fs.openFiles.lookup ino = none)
    (hc : m.fs.cache.lookup ino = none) (e : String) :
    (m.fs.ensureStaging (fetching agent (some e)) m.server ino).1.buf = [] := by
  simp only [Xetfs.ensureStaging, unstaged, Xetfs.fileBytes, hc, fetching]
  cases (m.fs.nodes.lookup ino).bind Node.fileHash <;> rfl

/-- What is staged is the change of the content exactly when the seed is there, or
would not have mattered. -/
theorem edited_iff (hf : Fetched agent m) (unstaged : m.fs.openFiles.lookup ino = none)
    (content : Durable agent m ino c) (he : Edits r ino f) :
    f (m.fs.ensureStaging (fetching agent o) m.server ino).1.buf = f c ↔
      (m.fs.cache.lookup ino).isSome = true ∨ o = none ∨ Replaces r c := by
  by_cases hfetch : (m.fs.cache.lookup ino).isSome = true ∨ o = none
  · rw [seeded_fetched hf unstaged content hfetch, ← or_assoc]
    exact iff_of_true rfl (.inl hfetch)
  · obtain ⟨hc, ho⟩ := not_or.mp hfetch
    obtain ⟨e, rfl⟩ := Option.ne_none_iff_exists'.mp ho
    rw [Option.not_isSome_iff_eq_none] at hc
    rw [seeded_empty unstaged hc, edits_nil_iff he, ← or_assoc, or_iff_right hfetch]

/-- What an accepted flush leaves the server with is what was staged. -/
theorem flushed_durable (stores : Stores agent) (file : IsFile m.fs ino) {b : Bytes} {fh : String}
    (h : Flushed (fetching agent o) m r ino b fh m') : Durable agent m' ino c ↔ b = c := by
  obtain ⟨path, hpath, hok⟩ := h.accepted
  obtain ⟨fs', hflush, hfl⟩ := Xetfs.flushIfDirty_ok h.staged rfl hpath (Prod.ext hok rfl)
  have hserver := h.ingested hpath
  rw [fetching_ingestBytes] at hserver
  have hstored := stores.content _ _ _ _ _ _ hserver
  have hash : m'.fs.hashOf ino = some fh := by
    have hhash : fs'.hashOf ino = some fh := hfl.hashOf file.mem
    have hserved := h.served
    cases r with
    | fsync i g | flush i g | release i g =>
      obtain rfl := Option.some.inj h.request
      simp only [Mount.next, serve, hflush, Option.map_some, Option.some.injEq] at hserved
      rw [← hserved]
      exact hhash
    | _ => cases h.request
  constructor
  · rintro ⟨fh', hfh', hrec⟩
    obtain rfl := Option.some.inj (hash.symm.trans hfh')
    exact Except.ok.inj (hstored.symm.trans hrec)
  · rintro rfl
    exact ⟨fh, hash, hstored⟩

end

/-- In every reachable state, whatever ingests and fetches have failed before, a
partial write of a file preserves the rest, also for the flush that takes it to the
server, exactly when the content is cached or fetched, or nothing of it but zeros is
to be left. -/
theorem partial_write_iff (stores : Stores agent) (volume : String) (entries : List EntryOut)
    (uid gid : ℕ) (server : σ) (fs : Xetfs) (hc : connect volume entries uid gid = some fs)
    (labels : List (Mount.Request × Option String)) (m : Mounted σ)
    (run : Run.exec (fetchNext agent) ⟨fs, server⟩ labels = some m) (ino : ℕ) (c : Bytes)
    (file : IsFile m.fs ino) (unstaged : m.fs.openFiles.lookup ino = none)
    (content : Durable agent m ino c) (r : Mount.Request) (f : Bytes → Bytes)
    (edit : Edits r ino f) (o : Option String) :
    ∃ m' reply, serve (fetching agent o) m r = some (m', reply) ∧
      (Preserved agent m m' reply ino (f c) ↔
        (m.fs.cache.lookup ino).isSome = true ∨ o = none ∨ Replaces r c) ∧
      ∀ r' o' b fh m'', Flushed (fetching agent o') m' r' ino b fh m'' →
        (Durable agent m'' ino (f c) ↔
          (m.fs.cache.lookup ino).isSome = true ∨ o = none ∨ Replaces r c) := by
  have hstep : ∀ m l m', Fetched agent m → fetchNext agent m l = some m' → Fetched agent m' := by
    intro m l m' hf h
    obtain ⟨⟨m'', reply⟩, hs, rfl⟩ := Option.map_eq_some_iff.mp h
    exact hf.next stores hs
  have hf := Run.exec_preserves hstep (fetched_connect hc server) run
  obtain ⟨m', reply, hs, _, hst, hreply⟩ := edits_serve (fetching agent o) edit file
  have hiff := edited_iff (o := o) hf unstaged content edit
  have hstaged := (hst.files ino).trans (if_pos rfl)
  refine ⟨m', reply, hs, ?_, ?_⟩
  · rw [← hiff]
    constructor
    · intro hp
      rcases hp with ⟨st, hl, hb⟩ | ⟨e, he, _⟩
      · obtain rfl := Option.some.inj (hstaged.symm.trans hl)
        exact hb
      · exact absurd he (hreply e)
    · exact fun hb => .inl ⟨_, hstaged, hb⟩
  · intro r' o' b fh m'' hflush
    rw [flushed_durable stores ((IsFile.congr hst.outline).mpr file) hflush, ← hiff]
    obtain ⟨rfl, _⟩ := Staging.mk.inj (Option.some.inj (hstaged.symm.trans hflush.staged))
    rfl

/-- A shelf with one file of two bytes, and its listing. -/
def shelved : Shelf :=
  { catalog := (∅ : Table (String × String) String).insert ("v", "/a") (Shelf.fileHash [1, 2]) }

def listed : List EntryOut := [⟨"/a", Shelf.fileHash [1, 2], 2⟩]

theorem shelf_stores {up : ℕ → Bool} : Stores (Shelf.agent up) where
  content := Shelf.records.content
  keeps _ _ _ _ _ _ h := h

theorem shelf_durable {up : ℕ → Bool} {m : Mounted Shelf} {ino : ℕ} {b : Bytes}
    (h : m.fs.hashOf ino = some (Shelf.fileHash b)) : Durable (Shelf.agent up) m ino b :=
  ⟨_, h, Shelf.reconstruct_fileHash b m.server⟩

/-- A fetch fails after a read has cached the file. -/
theorem partial_write_iff_cached : ∃ fs m m' reply, connect "v" listed 0 0 = some fs ∧
    Run.exec (fetchNext (Shelf.agent (fun _ => true))) ⟨fs, shelved⟩ [(.read 2 0 0 1, none)] =
      some m ∧
    serve (fetching (Shelf.agent (fun _ => true)) (some "timed out")) m (.write 2 0 1 [9]) =
      some (m', reply) ∧
    Preserved (Shelf.agent (fun _ => true)) m m' reply 2 (Cells.overlay 0 [1, 2] 1 [9]) := by
  have hrun : (connect "v" listed 0 0).any (fun fs =>
      (Run.exec (fetchNext (Shelf.agent (fun _ => true))) ⟨fs, shelved⟩
        [(.read 2 0 0 1, none)]).any (fun m => decide (IsFile m.fs 2) &&
          m.fs.openFiles.lookup 2 = none && m.fs.hashOf 2 = some (Shelf.fileHash [1, 2]) &&
          (m.fs.cache.lookup 2).isSome)) = true := by decide
  simp only [Option.any_eq_true, Bool.and_eq_true, decide_eq_true_eq] at hrun
  obtain ⟨fs, hc, m, hm, ⟨⟨hfile, hopen⟩, hhash⟩, hcache⟩ := hrun
  obtain ⟨m', reply, hs, hiff, _⟩ := partial_write_iff shelf_stores "v" listed 0 0 shelved fs hc
    _ m hm 2 [1, 2] hfile hopen (shelf_durable hhash) _ _ (.write 2 0 1 [9]) (some "timed out")
  exact ⟨fs, m, m', reply, hc, hm, hs, hiff.mpr (.inl hcache)⟩

/-- A write whose fetch fails is acknowledged, and the flush that follows puts zeros
in the place of the byte before it. -/
theorem failed_fetch_overwrites : ∃ fs m' m'', connect "v" listed 0 0 = some fs ∧
    IsFile fs 2 ∧ fs.openFiles.lookup 2 = none ∧
    Durable (Shelf.agent (fun _ => true)) ⟨fs, shelved⟩ 2 [1, 2] ∧
    serve (fetching (Shelf.agent (fun _ => true)) (some "timed out")) ⟨fs, shelved⟩
      (.write 2 0 1 [9]) = some (m', .written 1) ∧
    ¬ Preserved (Shelf.agent (fun _ => true)) ⟨fs, shelved⟩ m' (.written 1) 2
      (Cells.overlay 0 [1, 2] 1 [9]) ∧
    serve (Shelf.agent (fun _ => true)) m' (.flush 2 0) = some (m'', .ok) ∧
    m''.server.catalog.lookup ("v", "/a") = some (Shelf.fileHash [0, 9]) := by
  have hrun : (connect "v" listed 0 0).any (fun fs => decide (IsFile fs 2) &&
      fs.openFiles.lookup 2 = none && fs.hashOf 2 = some (Shelf.fileHash [1, 2]) &&
      (serve (fetching (Shelf.agent (fun _ => true)) (some "timed out")) ⟨fs, shelved⟩
        (.write 2 0 1 [9])).any (fun p => p.2 = .written 1 &&
          p.1.fs.openFiles.lookup 2 = some ⟨[0, 9], true⟩ &&
          (serve (Shelf.agent (fun _ => true)) p.1 (.flush 2 0)).any (fun q => q.2 = .ok &&
            q.1.server.catalog.lookup ("v", "/a") = some (Shelf.fileHash [0, 9])))) = true := by
    decide
  simp only [Option.any_eq_true, Bool.and_eq_true, decide_eq_true_eq] at hrun
  obtain ⟨fs, hc, ⟨⟨hfile, hopen⟩, hhash⟩, ⟨m', _⟩, hs, ⟨rfl, hst⟩, ⟨m'', _⟩, hflush, rfl, hcat⟩ :=
    hrun
  refine ⟨fs, m', m'', hc, hfile, hopen, shelf_durable hhash, hs, ?_, hflush, hcat⟩
  rintro (⟨st, hl, hb⟩ | ⟨_, he, _⟩)
  · obtain rfl := Option.some.inj (hst.symm.trans hl)
    exact absurd hb (by decide)
  · cases he

end Dejaveph.Proofs.PartialWrite

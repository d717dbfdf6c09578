import Dejaveph.Proofs.FolderView
import Dejaveph.Proofs.QuietServer

namespace Dejaveph.Proofs.SiteRefines
open Lib Server Agent Mount RegisteredTerms DistinctChunks AtRest MountRefines SizeReadable
  QuietServer FolderView
open IngestSucceeds (Packs plain_packs)

variable {Hash : Type} [DecidableEq Hash] {core : XetCore Hash} {publicBase : String}

section
variable {σ : Type} {agent : XetAgent σ} {server server' : σ} {fs fs' : Xetfs} {files : Files}
  {ino : ℕ} {fh : String}

theorem Related.moved (hr : Related agent ⟨fs, server⟩ files) (keeps : ∀ ino b,
    Durable agent ⟨fs, server⟩ ino b → Durable agent ⟨fs, server'⟩ ino b) :
    Related agent ⟨fs, server'⟩ files where
  tree := hr.tree
  inodes := hr.inodes
  staged := hr.staged
  durable ino b hb hclean := keeps ino b (hr.durable ino b hb hclean)
  cached ino c hc := keeps ino c (hr.cached ino c hc)

/-- The agent of a server that has the bytes already. -/
def holding (agent : XetAgent σ) (fh : String) : XetAgent σ where
  ingestBytes _ _ b s :=
    match agent.reconstruct fh s with
    | .ok c => if c = b then (.ok fh, s) else (.error fh, s)
    | .error e => (.error e, s)
  reconstruct := agent.reconstruct
  catalog _ _ := some fh

theorem holding_ok {volume dest fh' : String} {b : Bytes} {s s' : σ}
    (h : (holding agent fh).ingestBytes volume dest b s = (.ok fh', s')) :
    fh' = fh ∧ s' = s ∧ agent.reconstruct fh s = .ok b := by
  simp only [holding] at h
  split at h
  · rename_i c hc
    split at h
    · rename_i he
      cases h
      exact ⟨rfl, rfl, he ▸ hc⟩
    · cases h
  · cases h

theorem holding_records : (holding agent fh).Records where
  catalog volume dest b s fh' s' h := by
    obtain ⟨rfl, _⟩ := holding_ok h
    rfl
  content volume dest b s fh' s' h := by
    obtain ⟨rfl, rfl, hc⟩ := holding_ok h
    exact hc
  others _ _ _ _ _ _ _ _ _ := rfl
  keeps volume dest b s fh' s' h fh'' c hc := by
    obtain ⟨_, rfl, _⟩ := holding_ok h
    exact hc

theorem Related.flushed (hr : Related agent ⟨fs, server⟩ files) {st : Staging}
    (hst : fs.openFiles.lookup ino = some st) (content : agent.reconstruct fh server = .ok st.buf)
    (hf : Xetfs.Flushes fs fs' ino st.buf fh) : Related agent ⟨fs', server⟩ files := by
  have hr' : Related (holding agent fh) ⟨fs, server⟩ files :=
    ⟨hr.tree, hr.inodes, hr.staged, hr.durable, hr.cached⟩
  have hingest : (holding agent fh).ingestBytes fs.volume "" st.buf server = (.ok fh, server) := by
    simp only [holding, content, ↓reduceIte]
  have h := hr'.flushes holding_records hst hingest hf
  exact ⟨h.tree, h.inodes, h.staged, h.durable, h.cached⟩

end

section
variable {app app' : AppState Hash (LocalFs Hash)} {fs fs' : Xetfs} {files : Files} {ino : ℕ}
  {b : Bytes} {reply : Mount.Reply}

/-- The catalog has the hashes of what is stored. -/
def Catalogs (core : XetCore Hash) (app : AppState Hash (LocalFs Hash)) (stored : Stored) : Prop :=
  ∀ key, app.index.catalog.lookup key = (stored key).map core.fileHashOf

omit [DecidableEq Hash] in
theorem Catalogs.overwrites {stored : Stored} {job : Job} (h : Catalogs core app stored)
    (hw : Overwrites core job app.index app'.index) :
    Catalogs core app' (Function.update stored (job.volume, job.dest) (some job.bytes)) := by
  intro key
  rw [hw key]
  by_cases hk : key = (job.volume, job.dest)
  · rw [if_pos hk, hk, Function.update_self, Option.map_some]
  · rw [if_neg hk, Function.update_of_ne hk]
    exact h key

/-- The mount has these files over this server, which knows all its hashes. -/
structure Shows (core : XetCore Hash) (publicBase : String) (app : AppState Hash (LocalFs Hash))
    (fs : Xetfs) (files : Files) : Prop where
  related : Related (servedAgent core publicBase) ⟨fs, app⟩ files
  inodes : Inodes fs.nodes fs.next
  measured : Measured fs files
  hashes : ∀ ino fh, fs.hashOf ino = some fh → ∃ b, Names core app fh b

theorem Related.elsewhere (hex : core.HexLaws) (gate : core.GateLaws) (pipe : core.PipelineLaws)
    (hq : Quiet core app) (hq' : Quiet core app')
    (hext : ∀ fh ∈ app.index.files, fh ∈ app'.index.files)
    (hashes : ∀ ino fh, fs.hashOf ino = some fh → ∃ b, Names core app fh b)
    (hr : Related (servedAgent core publicBase) ⟨fs, app⟩ files) :
    Related (servedAgent core publicBase) ⟨fs, app'⟩ files := by
  refine Related.moved hr ?_
  rintro ino c ⟨fh, hfh, hc⟩
  obtain ⟨b, hn⟩ := hashes ino fh hfh
  have hb := hq.reads publicBase hex gate pipe hn
  obtain rfl := Except.ok.inj (hc.symm.trans hb)
  exact ⟨fh, hfh, hq'.reads publicBase hex gate pipe (hn.mono hext)⟩

theorem Shows.elsewhere (hex : core.HexLaws) (gate : core.GateLaws) (pipe : core.PipelineLaws)
    (hq : Quiet core app) (hq' : Quiet core app')
    (hext : ∀ fh ∈ app.index.files, fh ∈ app'.index.files)
    (h : Shows core publicBase app fs files) : Shows core publicBase app' fs files where
  related := Related.elsewhere hex gate pipe hq hq' hext h.hashes h.related
  inodes := h.inodes
  measured := h.measured
  hashes ino fh hfh := (h.hashes ino fh hfh).imp fun _ hn => hn.mono hext

/-- What a request leaves behind: the mount that its folder says, and a quiet server that
has saved what the folder saves. -/
structure Leaves (core : XetCore Hash) (publicBase : String) (f : Folder) (r : Mount.Request)
    (app : AppState Hash (LocalFs Hash)) (m' : Mounted (AppState Hash (LocalFs Hash)))
    (files' : Files) : Prop where
  shows_ : Shows core publicBase m'.server m'.fs files'
  quiet : Quiet core m'.server
  files : ∀ fh ∈ app.index.files, fh ∈ m'.server.index.files
  saved : ∀ stored, Catalogs core app stored → Catalogs core m'.server (f.save r stored)

theorem Shows.unflushed (hq : Quiet core app) {r : Mount.Request} (hr : r.flushed = none)
    {f : Folder} (h : Shows core publicBase app fs files) :
    Leaves core publicBase f r app ⟨fs, app⟩ files :=
  ⟨h, hq, fun _ hm => hm, fun _ hc => by simpa only [Folder.save, hr] using hc⟩

theorem Shows.changed (hq : Quiet core app) {r : Mount.Request} (hr : r.flushed = none)
    {f : Folder} {files' : Files} (h : Shows core publicBase app fs files)
    (hdir : InDirectory (⟨fs, app⟩ : Mounted _) r)
    (hs : serve (servedAgent core publicBase) ⟨fs, app⟩ r = some (⟨fs', app⟩, reply))
    (related : Related (servedAgent core publicBase) ⟨fs', app⟩ files')
    (measured : Measured fs' files')
    (hashes : ∀ ino fh, fs'.hashOf ino = some fh → fs.hashOf ino = some fh) :
    Leaves core publicBase f r app ⟨fs', app⟩ files' :=
  Shows.unflushed hq hr ⟨related, serve_inodes h.inodes hdir hs, measured,
    fun ino fh hi => h.hashes ino fh (hashes ino fh hi)⟩

/-- A flush must hand over bytes that can be kept. -/
def Keepable (core : XetCore Hash) (m : Mounted (AppState Hash (LocalFs Hash)))
    (r : Mount.Request) : Prop :=
  ∀ ino ∈ r.flushed, ∀ st ∈ m.fs.openFiles.lookup ino, st.dirty = true →
    ∀ path ∈ m.fs.fullPath ino, Keeps core m.server.index ⟨m.fs.volume, path, st.buf⟩

instance (m : Mounted (AppState Hash (LocalFs Hash))) : DecidablePred (Keepable core m) :=
  fun r => inferInstanceAs (Decidable (∀ ino ∈ r.flushed, _))

/-- A flush of the mount leaves the staged bytes at the server. -/
theorem Shows.flush (hex : core.HexLaws) (gate : core.GateLaws) (pipe : core.PipelineLaws)
    (packs : Packs core) (hq : Quiet core app) (h : Shows core publicBase app fs files)
    {r : Mount.Request} (hr : r.flushed = some ino) (hk : Keepable core ⟨fs, app⟩ r) :
    ∃ m', fs.flushIfDirty (servedAgent core publicBase) app ino = some (m'.fs, m'.server) ∧
      (∀ st, m'.fs.openFiles.lookup ino = some st → st.dirty = false) ∧
      Leaves core publicBase (folderOf fs files) r app m' files := by
  obtain ⟨ps, hps⟩ := h.inodes.tree.partsOf_total ino
  by_cases hdirty : ∃ st, fs.openFiles.lookup ino = some st ∧ st.dirty = true
  · obtain ⟨st, hst, hdirty⟩ := hdirty
    have hpath : fs.fullPath ino = some (pathOf ps) := partsOf_fullPath hps
    have hbuf : files ino = some st.buf := h.related.staged ino st hst
    have hpend : fs.isDirty ino = true := by
      rw [Xetfs.isDirty, hst]
      exact hdirty
    have hkeeps := hk ino hr st hst hdirty (pathOf ps) hpath
    obtain ⟨app', hingest, hq', hext, hover, hrec⟩ :=
      hq.served publicBase hex gate pipe packs hkeeps
    obtain ⟨fs', hflush, hf⟩ := Xetfs.flushIfDirty_ok hst hdirty hpath hingest
    have hnames : Names core app' (core.hex (core.fileHashOf st.buf)) st.buf :=
      ⟨hkeeps.1, rfl, hrec⟩
    have hmoved := Related.elsewhere hex gate pipe hq hq' hext h.hashes h.related
    refine ⟨⟨fs', app'⟩, hflush, ?_, ⟨⟨?_, ?_, ?_, ?_⟩, hq', hext, ?_⟩⟩
    · intro st' hst'
      rw [hf.files, if_pos rfl] at hst'
      cases hst'
      rfl
    · exact Related.flushed hmoved hst (hq'.reads publicBase hex gate pipe hnames) hf
    · obtain ⟨_, hnext, hshape⟩ := Xetfs.flushIfDirty_frame hflush
      rw [hnext]
      exact h.inodes.sameShape hshape
    · exact h.measured.flush (fun st hst => h.related.staged ino st hst) hflush
    · intro i fh hi
      rw [hf.hashes] at hi
      split at hi
      · obtain ⟨_, _, rfl⟩ := Option.map_eq_some_iff.mp hi
        exact ⟨st.buf, hnames⟩
      · exact (h.hashes i fh hi).imp fun _ hn => hn.mono hext
    · intro stored hc
      have hsave := hc.overwrites hover
      have hfolder : (folderOf fs files).pending ino = true := hpend
      simp only [Folder.save, hr, hfolder, ↓reduceIte, folder_names hps]
      change Catalogs core app' (Function.update stored _ (files ino))
      rw [hbuf]
      exact hsave
  · have hclean : ∀ st, fs.openFiles.lookup ino = some st → st.dirty = false :=
      fun st hst => Bool.eq_false_iff.mpr (fun ht => hdirty ⟨st, hst, ht⟩)
    have hpend : (folderOf fs files).pending ino = false := by
      change fs.isDirty ino = false
      rw [Xetfs.isDirty]
      cases hst : fs.openFiles.lookup ino with
      | none => rfl
      | some st => exact hclean st hst
    refine ⟨⟨fs, app⟩, Xetfs.flushIfDirty_clean hclean, hclean, h, hq, fun _ hm => hm, ?_⟩
    intro stored hc
    simpa only [Folder.save, hr, hpend, Bool.false_eq_true, ↓reduceIte] using hc

/-- The requests that are served as the folder serves them: those on files, the creation
of names that are not there, and what looks at names and attributes. -/
def Ordinary (m : Mounted (AppState Hash (LocalFs Hash))) (r : Mount.Request) : Prop :=
  (∃ ino fh offset room, r = .readdir ino fh offset room) ∨ Valid m r

/-- The mount answers a request as its folder does. -/
def Answers (core : XetCore Hash) (publicBase : String) (app : AppState Hash (LocalFs Hash))
    (fs : Xetfs) (files : Files) (r : Mount.Request) : Prop :=
  ∃ m' reply files', serve (servedAgent core publicBase) ⟨fs, app⟩ r = some (m', reply) ∧
    (folderOf fs files).Serves r reply (folderOf m'.fs files') ∧
    Leaves core publicBase (folderOf fs files) r app m' files'

theorem Shows.lookup (hq : Quiet core app) (h : Shows core publicBase app fs files) (parent : ℕ)
    (name : String) : Answers core publicBase app fs files (.lookup parent name) := by
  refine ⟨_, _, files, rfl, ?_, h.unflushed hq rfl⟩
  cases hc : fs.childNamed parent name with
  | none => exact .missing parent name ((folder_child parent name).trans hc)
  | some c =>
    have hany := List.find?_some hc
    obtain ⟨n, hn, _⟩ := (Option.any_eq_true _ _).mp hany
    have ha : fs.attr c = some _ := congrArg (Option.map _) hn
    simp only [Option.bind_some, ha]
    exact .found parent name c _ ((folder_child parent name).trans hc)
      ((folder_attr h.measured).trans ha)

theorem Shows.getattr (hq : Quiet core app) (h : Shows core publicBase app fs files) (ino : ℕ) :
    Answers core publicBase app fs files (.getattr ino) := by
  refine ⟨_, _, files, rfl, ?_, h.unflushed hq rfl⟩
  cases hn : fs.nodes.lookup ino with
  | none =>
    have ha : fs.attr ino = none := congrArg (Option.map _) hn
    simp only [ha]
    exact .gone ino (congrArg (Option.map _) hn)
  | some n =>
    have ha : fs.attr ino = some _ := congrArg (Option.map _) hn
    simp only [ha]
    exact .getattr ino _ ((folder_attr h.measured).trans ha)

/-- What is created is the file that the folder adds, under a number it has not used. -/
theorem Shows.create (hq : Quiet core app) (h : Shows core publicBase app fs files) {parent : ℕ}
    {name : String} (hdir : InDirectory (⟨fs, app⟩ : Mounted _) (.create parent name))
    (hnew : fs.childNamed parent name = none) :
    Answers core publicBase app fs files (.create parent name) := by
  obtain ⟨p, hp, hkind⟩ := Option.map_eq_some_iff.mp hdir
  obtain ⟨fs', a, hc, _, hrelated⟩ := create_refines h.related (Table.mem_of_lookup hp) hnew
  obtain ⟨a', he, hino, hcr⟩ := Xetfs.create_absent hnew hc
  obtain rfl := Mount.Reply.created.inj he
  rw [hino] at hrelated
  have hs : serve (servedAgent core publicBase) ⟨fs, app⟩ (.create parent name) =
      some (⟨fs', app⟩, .created a) := congrArg (Option.map _) hc
  have hadd : folderOf fs' (Function.update files fs.next (some [])) =
      (folderOf fs files).add parent (entryOf p) name fs.next :=
    folder_add h.inodes hp hkind hnew hs
  have hmeasured := h.measured.create hcr
  have hattr := (create_reply hc).2.2 a rfl
  have hnone : fs.nodes.lookup fs.next = none := by
    rw [Option.eq_none_iff_forall_ne_some]
    intro n hn
    exact Nat.lt_irrefl _ (h.inodes.tree.below _ (Table.mem_of_lookup hn))
  refine ⟨_, _, _, hs, ?_, h.changed hq rfl hdir hs hrelated hmeasured ?_⟩
  · rw [hadd]
    refine .create parent name (entryOf p) fs.next a (folder_entry hp) hkind
      ((folder_child parent name).trans hnew) (congrArg (Option.map _) hnone) ?_
    rw [← hadd, folder_attr hmeasured, ← hino]
    exact hattr
  · intro i fh hi
    by_cases he : i = fs.next
    · have hhash := addNode_views Node.fileHash (fun _ _ => rfl) hcr.added i
      rw [if_pos he] at hhash
      obtain ⟨n, hn, hblank⟩ := Option.map_eq_some_iff.mp hhash
      rw [Xetfs.hashOf, hn, Option.bind_some, hblank] at hi
      cases hi
    · exact (Creates.hashOf hcr he).symm.trans hi

theorem Shows.read (hq : Quiet core app) (h : Shows core publicBase app fs files)
    (hb : files ino = some b) (fh : ℕ) (offset : ℤ) (size : ℕ) :
    Answers core publicBase app fs files (.read ino fh offset size) := by
  obtain ⟨fs', hread, hrelated⟩ := read_refines h.related hb offset size
  obtain ⟨cache, hcache⟩ : ∃ cache, (fs.read (servedAgent core publicBase) app ino offset size).1 =
    { fs with cache := cache } := Xetfs.read_frame offset size
  rw [hread] at hcache
  obtain rfl : fs' = { fs with cache := cache } := hcache
  refine ⟨_, _, files, by simp only [serve, hread]; rfl, .read ino fh offset size b hb, ?_⟩
  exact Shows.unflushed hq rfl ⟨hrelated, h.inodes, h.measured, h.hashes⟩

theorem Shows.write (hq : Quiet core app) (h : Shows core publicBase app fs files)
    (hb : files ino = some b) (fh : ℕ) (offset : ℤ) (data : Bytes) :
    Answers core publicBase app fs files (.write ino fh offset data) := by
  obtain ⟨fs', hwrite, hrelated⟩ := write_refines h.related hb offset data
  have hs : serve (servedAgent core publicBase) ⟨fs, app⟩ (.write ino fh offset data) =
      some (⟨fs', app⟩, .written data.length) := by simp only [serve, hwrite]
  have hst : Xetfs.Stages fs (fs.write (servedAgent core publicBase) app ino offset data).1 ino _ :=
    Xetfs.write_stages offset data
  have hm : Measured (fs.write (servedAgent core publicBase) app ino offset data).1 _ :=
    h.measured.write offset data
  obtain ⟨hbuf, _⟩ := ensureStaging_seeded h.related hb
  rw [hwrite] at hst hm
  rw [hbuf, written_overlay] at hm
  refine ⟨_, _, _, hs, ?_, h.changed hq rfl trivial hs hrelated hm
    (fun i fh hi => (hst.hashes i).symm.trans hi)⟩
  rw [folder_put hs (by simp) (fun _ _ => rfl)]
  exact .write ino fh offset data b hb

theorem Shows.resize (hq : Quiet core app) (h : Shows core publicBase app fs files)
    (hb : files ino = some b) (size : ℕ) :
    Answers core publicBase app fs files (.setattr ino (some size)) := by
  obtain ⟨fs', a, hset, hrelated⟩ := setattr_refines h.related hb size
  have hs : serve (servedAgent core publicBase) ⟨fs, app⟩ (.setattr ino (some size)) =
      some (⟨fs', app⟩, .attr a) := by simp only [serve, hset]
  have hst : Xetfs.Stages fs (fs.setattr (servedAgent core publicBase) app ino (some size)).1
    ino _ := Xetfs.setattr_stages size
  have hm : Measured (fs.setattr (servedAgent core publicBase) app ino (some size)).1 _ :=
    h.measured.setattr size
  obtain ⟨hbuf, _⟩ := ensureStaging_seeded h.related hb
  rw [hset] at hst hm
  rw [hbuf, resize_truncate] at hm
  have hput : folderOf fs' (Function.update files ino (some (Cells.truncate 0 b size))) =
      (folderOf fs files).put ino (Cells.truncate 0 b size) :=
    folder_put hs (by simp) (fun _ _ => rfl)
  refine ⟨_, _, _, hs, ?_, h.changed hq rfl trivial hs hrelated hm
    (fun i fh hi => (hst.hashes i).symm.trans hi)⟩
  rw [hput]
  refine .resize ino size a b hb ?_
  rw [← hput, folder_attr hm]
  exact setattr_attr hset

/-- A request that flushes settles the file; a release forgets its open file besides. -/
theorem Shows.settles (hex : core.HexLaws) (gate : core.GateLaws) (pipe : core.PipelineLaws)
    (packs : Packs core) (hq : Quiet core app) (h : Shows core publicBase app fs files)
    (hb : files ino = some b) {r : Mount.Request}
    (hr : (∃ fh, r = .fsync ino fh) ∨ (∃ fh, r = .flush ino fh) ∨ ∃ fh, r = .release ino fh)
    (hk : Keepable core ⟨fs, app⟩ r) : Answers core publicBase app fs files r := by
  have hflushed : r.flushed = some ino := by
    rcases hr with ⟨_, rfl⟩ | ⟨_, rfl⟩ | ⟨_, rfl⟩ <;> rfl
  obtain ⟨m', hflush, hclean, hleaves⟩ := h.flush hex gate pipe packs hq hflushed hk
  rcases hr with ⟨fh, rfl⟩ | ⟨fh, rfl⟩ | ⟨fh, rfl⟩
  · have hs : serve (servedAgent core publicBase) ⟨fs, app⟩ (.fsync ino fh) = some (m', .ok) :=
      congrArg (Option.map _) hflush
    refine ⟨m', _, files, hs, ?_, hleaves⟩
    rw [folder_settle hs (by simp) (fun _ _ => rfl)]
    exact .fsync ino fh b hb
  · have hs : serve (servedAgent core publicBase) ⟨fs, app⟩ (.flush ino fh) = some (m', .ok) :=
      congrArg (Option.map _) hflush
    refine ⟨m', _, files, hs, ?_, hleaves⟩
    rw [folder_settle hs (by simp) (fun _ _ => rfl)]
    exact .flush ino fh b hb
  · have hs : serve (servedAgent core publicBase) ⟨fs, app⟩ (.release ino fh) =
        some (⟨{ m'.fs with openFiles := m'.fs.openFiles.erase ino }, m'.server⟩, .ok) :=
      congrArg (Option.map _) hflush
    refine ⟨_, _, files, hs, ?_, ⟨⟨hleaves.shows_.related.released hclean,
      hleaves.shows_.inodes, hleaves.shows_.measured, hleaves.shows_.hashes⟩, hleaves.quiet,
      hleaves.files, hleaves.saved⟩⟩
    rw [folder_settle hs (by simp) (fun _ _ => rfl)]
    exact .release ino fh b hb

/-- A request of the mount is answered as the folder answers. -/
theorem Shows.serves (hex : core.HexLaws) (gate : core.GateLaws) (pipe : core.PipelineLaws)
    (packs : Packs core) (hq : Quiet core app) (h : Shows core publicBase app fs files)
    {r : Mount.Request} (hr : Ordinary (⟨fs, app⟩ : Mounted _) r)
    (hk : Keepable core ⟨fs, app⟩ r) : Answers core publicBase app fs files r := by
  obtain ⟨ino, fh, offset, room, rfl⟩ | hv := hr
  · exact ⟨_, _, files, congrArg (Option.map _) (folder_page h.inodes.linked offset room),
      .readdir ino fh offset room, h.unflushed hq rfl⟩
  have hfile : ∀ ino, IsFile fs ino → ∃ b, files ino = some b :=
    fun ino hf => (h.related.inodes ino).mp hf
  cases r with
  | lookup parent name => exact h.lookup hq parent name
  | getattr ino => exact h.getattr hq ino
  | open_ ino =>
    obtain ⟨b, hb⟩ := hfile ino hv
    exact ⟨_, _, files, rfl, .open_ ino b hb, h.unflushed hq rfl⟩
  | create parent name => exact h.create hq hv.1 hv.2
  | read ino fh offset size =>
    obtain ⟨b, hb⟩ := hfile ino hv.1
    exact h.read hq hb fh offset size
  | write ino fh offset data =>
    obtain ⟨b, hb⟩ := hfile ino hv.1
    exact h.write hq hb fh offset data
  | setattr ino size =>
    obtain ⟨b, hb⟩ := hfile ino hv
    cases size with
    | none =>
      obtain ⟨a, ha⟩ := attr_file hv
      refine ⟨⟨fs, app⟩, _, files, ?_, .touch ino a b hb ((folder_attr h.measured).trans ha),
        h.unflushed hq rfl⟩
      simp only [serve, Xetfs.setattr, ha]
    | some size => exact h.resize hq hb size
  | fsync ino fh =>
    obtain ⟨b, hb⟩ := hfile ino hv
    exact h.settles hex gate pipe packs hq hb (.inl ⟨fh, rfl⟩) hk
  | flush ino fh =>
    obtain ⟨b, hb⟩ := hfile ino hv
    exact h.settles hex gate pipe packs hq hb (.inr (.inl ⟨fh, rfl⟩)) hk
  | release ino fh =>
    obtain ⟨b, hb⟩ := hfile ino hv
    exact h.settles hex gate pipe packs hq hb (.inr (.inr ⟨fh, rfl⟩)) hk
  | readdir ino fh offset room => exact hv.elim

end

section
variable {entries : List EntryOut} {i : ℕ} {e : EntryOut}

/-- The file that connecting makes of a listed path. -/
def inodeOf (entries : List EntryOut) (p : String) : ℕ :=
  (((fileInodes rootOnly entries).find? (fun q => q.2.path = p)).map Prod.fst).getD 0

theorem inodeOf_listed (once : (entries.map EntryOut.path).Nodup)
    (h : (i, e) ∈ fileInodes rootOnly entries) : inodeOf entries e.path = i := by
  obtain ⟨_, _, hf⟩ := placeEntries_fills entries rootOnly_built
  have hnodup : ((fileInodes rootOnly entries).map (fun q => q.2.path)).Nodup := by
    have hsub := (List.filter_sublist (p := fun e => decide (trimmed e.path ≠ []))
      (l := entries)).map EntryOut.path
    rw [← hf.entries, List.map_map] at hsub
    exact hsub.nodup once
  have hsome : ((fileInodes rootOnly entries).find? (fun q => q.2.path = e.path)).isSome :=
    List.find?_isSome.mpr ⟨(i, e), h, decide_eq_true rfl⟩
  obtain ⟨q, hq⟩ := Option.isSome_iff_exists.mp hsome
  have hpath : q.2.path = e.path := by simpa using List.find?_some hq
  have hsame := List.inj_on_of_nodup_map hnodup (List.mem_of_find?_eq_some hq) h hpath
  rw [inodeOf, hq, hsame]
  rfl

theorem fileInodes_apart {e' : EntryOut} (h : (i, e) ∈ fileInodes rootOnly entries)
    (h' : (i, e') ∈ fileInodes rootOnly entries) : e = e' := by
  obtain ⟨_, _, hf⟩ := placeEntries_fills entries rootOnly_built
  have hnodup : ((fileInodes rootOnly entries).map Prod.fst).Nodup :=
    List.pairwise_map.mpr (hf.apart.imp (fun hlt => Nat.ne_of_lt hlt))
  exact (Prod.mk.inj (List.inj_on_of_nodup_map hnodup h h' rfl)).2

end

section
variable {app : AppState Hash (LocalFs Hash)} {stored : Stored} {volume : String}

end

section
variable {stored : Stored} {volume : String} {entries : List EntryOut} {uid gid : ℕ}
  {fs : Xetfs} {files : Files}

/-- The files of a mount that has just connected are those of the entries. -/
structure Fresh (stored : Stored) (volume : String) (entries : List EntryOut) (fs : Xetfs)
    (files : Files) : Prop where
  once : (entries.map EntryOut.path).Nodup
  listed : ∀ p b, stored (volume, p) = some b → ∃ e ∈ entries, e.path = p
  stored : ∀ ino e, (ino, e) ∈ fileInodes rootOnly entries → ∃ b, stored (volume, e.path) = some b ∧
    files ino = some b ∧ e.size = b.length
  files : ∀ ino, IsFile fs ino ↔ ∃ b, files ino = some b

theorem fileInodes_listed (volume : String) {e : EntryOut} (he : e ∈ entries)
    (hne : trimmed e.path ≠ []) : ∃ i, (i, e) ∈ fileInodes rootOnly entries := by
  obtain ⟨_, _, _, _, _, _, hsnd, _⟩ := connect_built volume entries 0 0
  have hm : e ∈ (fileInodes rootOnly entries).map Prod.snd := by
    rw [hsnd]
    exact List.mem_filter.mpr ⟨he, decide_eq_true hne⟩
  obtain ⟨⟨i, _⟩, hq, rfl⟩ := List.mem_map.mp hm
  exact ⟨i, hq⟩

theorem Fresh.opened (h : Fresh stored volume entries fs files)
    (hconn : connect volume entries uid gid = some fs) :
    Opened stored volume uid gid (folderOf fs files) := by
  obtain ⟨fs', hc, ht, hl, _, hfile, hsnd, _⟩ := connect_built volume entries uid gid
  obtain rfl := Option.some.inj (hconn.symm.trans hc)
  obtain ⟨⟨top, htop, hkind, hparent⟩, hdirs, habove⟩ := connect_dirs hconn
  have hnames : ∀ q ∈ fileInodes rootOnly entries,
      (folderOf fs files).names q.1 = components q.2.path :=
    fun q hq => folder_names (hfile q hq).parts
  have hplaced : ∀ p b, Shown stored volume p b →
      ∃ e, (inodeOf entries p, e) ∈ fileInodes rootOnly entries ∧ e.path = p := by
    rintro p b ⟨hb, hne⟩
    obtain ⟨e, he, rfl⟩ := h.listed p b hb
    obtain ⟨i, hi⟩ := fileInodes_listed volume he hne
    exact ⟨e, (inodeOf_listed h.once hi).symm ▸ hi, rfl⟩
  have hblank : fs.volume = volume ∧ fs.uid = uid ∧ fs.gid = gid ∧ fs.openFiles = ∅ := by
    obtain ⟨_, _, rfl⟩ := Option.map_eq_some_iff.mp hconn
    exact ⟨rfl, rfl, rfl, rfl⟩
  refine ⟨⟨hblank.1, hblank.2.1, hblank.2.2.1⟩, ?_, ⟨folder_names partsOf_root, _,
    folder_entry htop, hkind, hparent⟩, ?_, ?_, ?_, ?_, ?_, inodeOf entries, ?_, ?_, ?_⟩
  · intro ino
    change fs.isDirty ino = false
    rw [Xetfs.isDirty, hblank.2.2.2]
    rfl
  · intro ino e he hne
    obtain ⟨n, hn, rfl⟩ := entry_node he
    obtain ⟨ps, hps, hself⟩ := ht.partsOf_snoc hn hne
    obtain ⟨p, hp, hdir, _⟩ := hl.parent ino n hn hne
    refine ⟨?_, _, folder_entry hp, hdir⟩
    rw [folder_names hself, show (entryOf n).parent = n.parent from rfl, folder_names hps]
    rfl
  · intro ino e he
    obtain ⟨n, hn, rfl⟩ := entry_node he
    refine ⟨hl.once ino n hn, fun c => ⟨fun hm => ?_, ?_⟩⟩
    · obtain ⟨hne, m, hm, hpar⟩ := hl.child ino n hn c hm
      exact ⟨hne, _, folder_entry hm, hpar⟩
    · rintro ⟨hne, d, hd, hpar⟩
      obtain ⟨m, hm, rfl⟩ := entry_node hd
      obtain ⟨p, hp, _, hmem⟩ := hl.parent c m hm hne
      have hpar : m.parent = ino := hpar
      rw [hpar] at hp
      obtain rfl := Option.some.inj (hn.symm.trans hp)
      exact hmem
  · intro ino
    refine (h.files ino).symm.trans ⟨?_, ?_⟩
    · rintro ⟨n, hn, hk⟩
      exact ⟨_, folder_entry hn, hk⟩
    · rintro ⟨e, he, hk⟩
      obtain ⟨n, hn, rfl⟩ := entry_node he
      exact ⟨n, hn, hk⟩
  · intro ino e he hk hne
    obtain ⟨n, hn, rfl⟩ := entry_node he
    obtain ⟨_, _, hroot⟩ := habove ino n hn hk
    obtain ⟨ps, hps, c, hc, hpre, hlt⟩ := hroot hne
    obtain ⟨d, hd, rfl⟩ := List.mem_map.mp hc
    obtain ⟨hin, htrim⟩ := List.mem_filter.mp hd
    obtain ⟨j, hj⟩ := fileInodes_listed volume hin (of_decide_eq_true htrim)
    obtain ⟨b, _, hb, _⟩ := h.stored j d hj
    refine ⟨j, b, hb, ?_⟩
    rw [folder_names hps, hnames _ hj]
    exact ⟨hpre, hlt⟩
  · intro i j e d he hk hd hk' hsame
    obtain ⟨n, hn, rfl⟩ := entry_node he
    obtain ⟨m, hm, rfl⟩ := entry_node hd
    obtain ⟨ps, hps⟩ := ht.partsOf_total i
    obtain ⟨qs, hqs⟩ := ht.partsOf_total j
    rw [folder_names hps, folder_names hqs] at hsame
    exact hdirs i j n m hn hk hm hk' (by rw [hps, hqs, hsame])
  · intro p b hshown
    obtain ⟨e, hm, rfl⟩ := hplaced p b hshown
    obtain ⟨b', hb', hcont, _⟩ := h.stored _ e hm
    obtain rfl := Option.some.inj (hb'.symm.trans hshown.1)
    exact ⟨hcont, hnames _ hm⟩
  · intro ino b hb
    obtain ⟨n, hn, hk⟩ := (h.files ino).mpr ⟨b, hb⟩
    have hin : FileIn fs.nodes ino := by rw [FileIn, hn, Option.map_some, hk]
    obtain ⟨e, hm, _⟩ := connect_files hconn hin
    obtain ⟨b', hb', hcont, _⟩ := h.stored ino e hm
    obtain rfl := Option.some.inj (hcont.symm.trans hb)
    have htrim : e ∈ entries.filter (fun e => trimmed e.path ≠ []) :=
      hsnd ▸ List.mem_map_of_mem (f := Prod.snd) hm
    exact ⟨e.path, ⟨hb', of_decide_eq_true (List.mem_filter.mp htrim).2⟩, inodeOf_listed h.once hm⟩
  · intro p q b c hp hq he
    obtain ⟨e, hm, rfl⟩ := hplaced p b hp
    obtain ⟨e', hm', rfl⟩ := hplaced q c hq
    rw [he] at hm
    rw [fileInodes_apart hm hm']

end

section
variable {ι : Type} {s : Site ι Hash} {d : Drive ι}

/-- The site is the drive. -/
structure Hosts (core : XetCore Hash) (publicBase : String) (s : Site ι Hash) (d : Drive ι) :
    Prop where
  quiet : Quiet core s.server
  stored : Catalogs core s.server d.stored
  mounts : ∀ i fs, s.mounts i = some fs →
    ∃ files, d.folders i = some (folderOf fs files) ∧ Shows core publicBase s.server fs files

theorem Hosts.elsewhere (hex : core.HexLaws) (gate : core.GateLaws) (pipe : core.PipelineLaws)
    (h : Hosts core publicBase s d) {app' : AppState Hash (LocalFs Hash)} {stored : Stored}
    (hq : Quiet core app') (hext : ∀ fh ∈ s.server.index.files, fh ∈ app'.index.files)
    (hc : Catalogs core app' stored) :
    Hosts core publicBase { s with server := app' } { d with stored } where
  quiet := hq
  stored := hc
  mounts i fs hfs := (h.mounts i fs hfs).imp fun _ hf =>
    ⟨hf.1, hf.2.elsewhere hex gate pipe h.quiet hq hext⟩

/-- What the theorem is about: volumes that survive in a URL, the requests that a folder
serves, bytes that can be kept, other clients' whole calls, none of them dropped between the
store and the index of an upload, and collections whose deletions work. -/
def Allowed (core : XetCore Hash) (publicBase : String) (decoded : String → Option String)
    (s : Site ι Hash) : Mount.Act ι (AppState Hash (LocalFs Hash)) → Prop
  | .mount _ volume _ _ | .fetch volume _ => decoded volume = some volume
  | .request i r => ∃ fs, s.mounts i = some fs ∧ Ordinary (⟨fs, s.server⟩ : Mounted _) r ∧
      Keepable core ⟨fs, s.server⟩ r
  | .ingest job => Keeps core s.server.index job
  | .client job result server => Distinct core job.bytes ∧
      TidyCall core publicBase job s.server result server
  | .collect server => ∃ a,
      Serves core (localFs core publicBase) Choice.Works s.server .gc a server

variable [DecidableEq ι] {decoded : String → Option String}

theorem Hosts.mounted (h : Hosts core publicBase s d) {i : ι} {fs : Xetfs} {files : Files}
    (hf : Shows core publicBase s.server fs files) :
    Hosts core publicBase { s with mounts := Function.update s.mounts i (some fs) }
      { d with folders := Function.update d.folders i (some (folderOf fs files)) } where
  quiet := h.quiet
  stored := h.stored
  mounts j fs' hj := by
    by_cases he : j = i
    · subst he
      simp only [Function.update_self, Option.some.injEq] at hj ⊢
      exact ⟨files, by rw [hj], hj ▸ hf⟩
    · simp only [Function.update_of_ne he] at hj ⊢
      exact h.mounts j fs' hj

end

abbrev PlainAct := Mount.Act ℕ (AppState Plain.PlainHash (LocalFs Plain.PlainHash))

instance (m : Mounted (AppState Hash (LocalFs Hash))) : DecidablePred (Ordinary m)
  | .readdir ino fh offset room => .isTrue (.inl ⟨ino, fh, offset, room, rfl⟩)
  | .lookup .. | .getattr _ | .open_ _ | .create .. | .read .. | .write .. | .setattr ..
  | .fsync .. | .flush .. | .release .. =>
    decidable_of_iff (Valid m _) (or_iff_right (by simp)).symm

/-- A file, two mounts of it and a change through one of them. -/
def changed : List PlainAct :=
  [.ingest ⟨"v", "/a", [1, 2]⟩, .mount 0 "v" 0 0, .mount 1 "v" 0 0, .request 0 (.write 2 0 1 [7, 8]),
    .request 0 (.flush 2 0), .request 0 (.create 1 "b")]

/-- Who sees the change: a client and a new mount, but not the old one. -/
def seen : List PlainAct :=
  [.request 1 (.read 2 0 0 9), .request 1 (.readdir 1 0 2 9), .request 0 (.readdir 1 0 2 9),
    .request 0 (.lookup 1 "c"), .fetch "v" "/a", .mount 1 "v" 0 0, .request 1 (.getattr 2),
    .request 1 (.read 2 0 0 9)]

/-- What is answered, before the collection and after it. -/
def answers : List Response :=
  [.ingested (.ok (Plain.hex (Plain.plain.fileHashOf [1, 2]))), .mounted, .mounted,
    .served (.written 2), .served .ok, .served (.created ⟨3, 0, 0, .file, 0o644, 1, 0, 0, 0, 512, 0⟩),
    .other, .served (.data [1, 2]), .served (.directory [(2, 3, .file, "a")]),
    .served (.directory [(2, 3, .file, "a"), (3, 4, .file, "b")]), .served (.error .enoent),
    .fetched (some (.ok [1, 7, 8])), .mounted,
    .served (.attr ⟨2, 3, 1, .file, 0o644, 1, 0, 0, 0, 512, 0⟩), .served (.data [1, 7, 8])]

end Dejaveph.Proofs.SiteRefines

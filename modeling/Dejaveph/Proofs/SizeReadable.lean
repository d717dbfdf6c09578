import Dejaveph.Mount.Apart
import Dejaveph.Mount.Inodes
import Dejaveph.Proofs.PartialWrite

namespace Dejaveph.Proofs.SizeReadable
open Lib Server Mount MountRefines PartialWrite

variable {σ : Type} (agent : XetAgent σ)

/-- The size that is reported of an inode. -/
def reported (fs : Xetfs) (ino : ℕ) : Option ℕ := (fs.nodes.lookup ino).map Node.size

/-- What is reported of an inode is what can be read of it. -/
def Reports (m : Mounted σ) (ino : ℕ) : Prop :=
  ∃ (a : FileAttr) (b : Bytes), m.fs.attr ino = some a ∧ a.size = b.length ∧
    ∀ fh size, (serve agent m (.read ino fh 0 size)).map Prod.snd = some (.data (b.take size))

/-- Every file that is staged, or has a content, reports what can be read of it. -/
def SizesReadable (m : Mounted σ) : Prop :=
  ∀ ino, IsFile m.fs ino →
    ((m.fs.openFiles.lookup ino).isSome = true ∨ (m.fs.hashOf ino).isSome = true) →
    Reports agent m ino

/-- The requests on files, and the creation of files. -/
def OnFiles (m : Mounted σ) : Mount.Request → Prop
  | .create parent name => (m.fs.nodes.lookup parent).map Node.kind = some .dir ∧
      ∀ i ∈ m.fs.childNamed parent name, IsFile m.fs i
  | .read ino .. | .write ino .. | .setattr ino _ | .fsync ino _ | .flush ino _ | .release ino _ =>
    IsFile m.fs ino
  | .lookup .. | .getattr _ | .open_ _ | .readdir .. => True

instance (m : Mounted σ) : DecidablePred (OnFiles m)
  | .create .. => inferInstanceAs (Decidable (_ ∧ _))
  | .read ino .. | .write ino .. | .setattr ino _ | .fsync ino _ | .flush ino _ | .release ino _ =>
    inferInstanceAs (Decidable (IsFile m.fs ino))
  | .lookup .. | .getattr _ | .open_ _ | .readdir .. => inferInstanceAs (Decidable True)

/-- The server takes what is staged of an inode. -/
def Saves (m : Mounted σ) (ino : ℕ) (st : Staging) : Prop :=
  st.dirty = true ∧ ∃ path fh server', m.fs.fullPath ino = some path ∧
    agent.ingestBytes m.fs.volume path st.buf m.server = (.ok fh, server')

/-- A file that is created again was reported empty, and a buffer that is dropped has
been saved, or is as long as the content that shows up again. -/
def SizeKept (m : Mounted σ) : Mount.Request → Prop
  | .create parent name => ∀ i, m.fs.childNamed parent name = some i → reported m.fs i = some 0
  | .release ino _ => ∀ st, m.fs.openFiles.lookup ino = some st →
      Saves agent m ino st ∨ ∀ c, Durable agent m ino c → c.length = st.buf.length
  | _ => True

/-- The size of an inode is that of its staging buffer, or of its content. -/
structure Agrees (m : Mounted σ) (ino : ℕ) : Prop where
  staged : ∀ st, m.fs.openFiles.lookup ino = some st → IsFile m.fs ino →
    reported m.fs ino = some st.buf.length
  stored : ∀ fh, m.fs.hashOf ino = some fh → IsFile m.fs ino →
    ∃ c, agent.reconstruct fh m.server = .ok c ∧
      (m.fs.openFiles.lookup ino = none → reported m.fs ino = some c.length)

structure Sized (m : Mounted σ) : Prop extends Fetched agent m where
  agrees : ∀ ino, Agrees agent m ino

variable {agent} {m m' : Mounted σ} {fs' : Xetfs} {ino : ℕ} {b c : Bytes}

theorem Agrees.congr (h : Agrees agent m ino) (hf : IsFile m'.fs ino → IsFile m.fs ino)
    (hr : reported m'.fs ino = reported m.fs ino) (hh : m'.fs.hashOf ino = m.fs.hashOf ino)
    (ho : (m'.fs.openFiles.lookup ino).map Staging.buf =
      (m.fs.openFiles.lookup ino).map Staging.buf)
    (hk : ∀ fh c, agent.reconstruct fh m.server = .ok c → agent.reconstruct fh m'.server = .ok c) :
    Agrees agent m' ino := by
  constructor
  · intro st hst hfile
    rw [hst, Option.map_some] at ho
    obtain ⟨st', hst', hb⟩ := Option.map_eq_some_iff.mp ho.symm
    rw [hr, h.staged st' hst' (hf hfile), hb]
  · intro fh hfh hfile
    obtain ⟨c, hc, hsize⟩ := h.stored fh (hh ▸ hfh) (hf hfile)
    refine ⟨c, hk fh c hc, ?_⟩
    intro hnone
    rw [hnone, Option.map_none] at ho
    rw [hr]
    exact hsize (Option.map_eq_none_iff.mp ho.symm)

section
variable {fs : Xetfs} {f : Node → Node}

theorem modifyNode_reported (i : ℕ) : reported (fs.modifyNode ino f) i =
    if i = ino then (fs.nodes.lookup ino).map (fun n => (f n).size) else reported fs i := by
  rw [reported, Xetfs.modifyNode_lookup]
  split
  · rw [Option.map_map]
    rfl
  · rfl

theorem reported_file (hf : IsFile fs ino) : ∃ n, fs.nodes.lookup ino = some n ∧
    reported fs ino = some n.size := by
  obtain ⟨n, hn, _⟩ := hf
  exact ⟨n, hn, by rw [reported, hn, Option.map_some]⟩

end

theorem Sized.stages (hs : Sized agent m) (hst : Xetfs.Stages m.fs fs' ino b)
    (hf : Fetched agent { m with fs := fs' })
    (hr : ∀ i, reported fs' i = if i = ino then (reported m.fs ino).map (fun _ => b.length)
      else reported m.fs i) : Sized agent { m with fs := fs' } := by
  refine ⟨hf, ?_⟩
  intro i
  have hfile : IsFile fs' i ↔ IsFile m.fs i := IsFile.congr hst.outline
  have hopen := hst.files i
  have hri := hr i
  by_cases hi : i = ino
  · subst hi
    rw [if_pos rfl] at hopen hri
    constructor
    · intro st hl hif
      obtain rfl := Option.some.inj (hopen.symm.trans hl)
      obtain ⟨n, _, hn⟩ := reported_file (hfile.mp hif)
      rw [hri, hn, Option.map_some]
    · intro fh hfh hif
      obtain ⟨c, hc, _⟩ := (hs.agrees i).stored fh ((hst.hashes i).symm.trans hfh) (hfile.mp hif)
      refine ⟨c, hc, ?_⟩
      intro hnone
      cases hopen.symm.trans hnone
  · rw [if_neg hi] at hopen hri
    exact (hs.agrees i).congr hfile.mp hri (hst.hashes i) (by rw [hopen]) (fun _ _ h => h)

theorem Sized.creates (hs : Sized agent m) {parent : ℕ} {name : String}
    (h : Xetfs.Creates m.fs fs' parent name) : Sized agent { m with fs := fs' } := by
  refine ⟨hs.toFetched.creates h, ?_⟩
  intro i
  have hopen := h.files i
  have hri : reported fs' i = if i = m.fs.next then some 0 else reported m.fs i :=
    addNode_views Node.size (fun _ _ => rfl) h.added i
  by_cases hi : i = m.fs.next
  · subst hi
    rw [if_pos rfl] at hopen hri
    constructor
    · intro st hl _
      obtain rfl := Option.some.inj (hopen.symm.trans hl)
      exact hri
    · intro fh hfh _
      have hhash := addNode_views Node.fileHash (fun _ _ => rfl) h.added m.fs.next
      rw [if_pos rfl] at hhash
      change (fs'.nodes.lookup _).bind Node.fileHash = some fh at hfh
      obtain ⟨n, hn, hnone⟩ := Option.map_eq_some_iff.mp hhash
      rw [hn, Option.bind_some, hnone] at hfh
      cases hfh
  · rw [if_neg hi] at hopen hri
    refine (hs.agrees i).congr ?_ hri (Creates.hashOf h hi) (by rw [hopen]) (fun _ _ h => h)
    exact fun hif => ((Creates.isFile h i).mp hif).resolve_left hi

/-- What a flush leaves of a file: its size, and its buffer, whether the server has
taken it or not. -/
theorem Sized.flushes (stores : Stores agent) (hs : Sized agent m) {server' : σ}
    (h : m.fs.flushIfDirty agent m.server ino = some (fs', server')) :
    Sized agent ⟨fs', server'⟩ := by
  refine ⟨hs.toFetched.flushes (o := none) stores h, ?_⟩
  obtain ⟨rfl, rfl, _⟩ | ⟨st, path, result, hst, _, _, hingest, rfl⟩ := Xetfs.flushIfDirty_cases h
  · exact hs.agrees
  have hk := stores.kept hingest
  intro i
  cases result with
  | error e =>
    refine (hs.agrees i).congr id rfl rfl ?_ hk
    change ((m.fs.openFiles.insert ino { st with dirty := false }).lookup i).map Staging.buf = _
    rw [Table.lookup_insert_if]
    split
    · rename_i hi
      rw [hi, hst]
      rfl
    · rfl
  | ok fh =>
    have hflush : Xetfs.Flushes m.fs ((m.fs.markClean ino st).ingested ino fh st.buf.length) ino
      st.buf fh := Xetfs.ingested_flushes st fh
    have hopen := hflush.files i
    have hfile : IsFile ((m.fs.markClean ino st).ingested ino fh st.buf.length) i ↔
      IsFile m.fs i := IsFile.congr hflush.outline
    have hri : reported ((m.fs.markClean ino st).ingested ino fh st.buf.length) i =
        if i = ino then (m.fs.nodes.lookup ino).map (fun _ => st.buf.length)
        else reported m.fs i := modifyNode_reported i
    by_cases hi : i = ino
    · subst hi
      rw [if_pos rfl] at hopen hri
      constructor
      · intro st' hl hif
        obtain rfl := Option.some.inj (hopen.symm.trans hl)
        obtain ⟨n, hn, _⟩ := hfile.mp hif
        exact hri.trans (by rw [hn, Option.map_some])
      · intro fh' hfh hif
        have hhash := hflush.hashOf (hfile.mp hif).mem
        obtain rfl := Option.some.inj (hhash.symm.trans hfh)
        refine ⟨st.buf, stores.content _ _ _ _ _ _ hingest, ?_⟩
        intro hnone
        cases hopen.symm.trans hnone
    · rw [if_neg hi] at hopen hri
      have hhash := (hflush.hashes i).trans (if_neg hi)
      exact (hs.agrees i).congr hfile.mp hri hhash (congrArg _ hopen) hk

theorem Sized.released (hs : Sized agent m) (hdrop : ∀ st, m.fs.openFiles.lookup ino = some st →
      IsFile m.fs ino → ∀ c, Durable agent m ino c → c.length = st.buf.length) :
    Sized agent { m with fs := { m.fs with openFiles := m.fs.openFiles.erase ino } } := by
  refine ⟨⟨hs.closed, hs.cached⟩, ?_⟩
  intro i
  by_cases hi : i = ino
  · subst hi
    have hnone : (m.fs.openFiles.erase i).lookup i = none := by simp
    constructor
    · intro st hst
      cases hnone.symm.trans hst
    · intro fh hfh hif
      obtain ⟨c, hc, hsize⟩ := (hs.agrees i).stored fh hfh hif
      refine ⟨c, hc, ?_⟩
      intro _
      cases hst : m.fs.openFiles.lookup i with
      | none => exact hsize hst
      | some st =>
        rw [hdrop st hst hif c ⟨fh, hfh, hc⟩]
        exact (hs.agrees i).staged st hst hif
  · refine (hs.agrees i).congr id rfl rfl ?_ (fun _ _ h => h)
    exact congrArg (Option.map _) (AList.lookup_erase_ne hi)

theorem Sized.releases (stores : Stores agent) (hs : Sized agent m) {server' : σ}
    (hkept : ∀ st, m.fs.openFiles.lookup ino = some st →
      Saves agent m ino st ∨ ∀ c, Durable agent m ino c → c.length = st.buf.length)
    (h : m.fs.flushIfDirty agent m.server ino = some (fs', server')) :
    Sized agent ⟨{ fs' with openFiles := fs'.openFiles.erase ino }, server'⟩ := by
  have hs' := hs.flushes stores h
  apply hs'.released
  intro st' hst' hfile c hd
  obtain ⟨rfl, rfl, hclean⟩ | ⟨st, path, result, hst, hdirty, hpath, hingest, rfl⟩ :=
    Xetfs.flushIfDirty_cases h
  · rcases hkept st' hst' with ⟨hdirty, _⟩ | hlen
    · rw [hclean st' hst'] at hdirty
      cases hdirty
    · exact hlen c hd
  · have hfiles := Xetfs.flushIfDirty_files h ino
    rw [if_pos rfl, hst, Option.map_some] at hfiles
    obtain rfl := Option.some.inj (hfiles.symm.trans hst')
    cases result with
    | ok fh =>
      obtain ⟨fh', hfh', hrec⟩ := hd
      have hflush : Xetfs.Flushes m.fs ((m.fs.markClean ino st).ingested ino fh st.buf.length) ino
        st.buf fh := Xetfs.ingested_flushes st fh
      have hhash := hflush.hashOf ((IsFile.congr hflush.outline).mp hfile).mem
      obtain rfl := Option.some.inj (hhash.symm.trans hfh')
      have hstored := stores.content _ _ _ _ _ _ hingest
      rw [Except.ok.inj (hrec.symm.trans hstored)]
    | error e =>
      rcases hkept st hst with ⟨_, path', fh, server'', hpath', hsaved⟩ | hlen
      · obtain rfl := Option.some.inj (hpath.symm.trans hpath')
        cases hingest.symm.trans hsaved
      · obtain ⟨fh, hfh, hrec⟩ := hd
        obtain ⟨d, hd, _⟩ := (hs.agrees ino).stored fh hfh hfile
        rw [Except.ok.inj (hrec.symm.trans (stores.kept hingest fh d hd))]
        exact hlen d ⟨fh, hfh, hd⟩

theorem resized_reported {openFiles : Table ℕ Staging} {size : ℕ} (i : ℕ) :
    reported (Xetfs.modifyNode
        { (m.fs.ensureStaging agent m.server ino).2 with openFiles } ino
        (fun n => { n with size := size })) i =
      if i = ino then (reported m.fs ino).map (fun _ => size) else reported m.fs i := by
  obtain ⟨files, cache, hfs, _⟩ : ∃ files cache, (m.fs.ensureStaging agent m.server ino).2 =
      { m.fs with openFiles := files, cache := cache } ∧
        ∀ i, i ≠ ino → files.lookup i = m.fs.openFiles.lookup i := Xetfs.ensureStaging_frame
  rw [hfs, modifyNode_reported]
  split
  · rw [reported, Option.map_map]
    rfl
  · rfl

theorem Sized.next (stores : Stores agent) (hs : Sized agent m) {r : Mount.Request} {reply : Reply}
    (hk : SizeKept agent m r) (h : serve agent m r = some (m', reply)) : Sized agent m' := by
  have hf : Fetched agent m' := hs.toFetched.next (o := none) stores h
  cases r with
  | create parent name =>
    obtain ⟨⟨fs', reply'⟩, hc, he⟩ := Option.map_eq_some_iff.mp h
    cases he
    cases hn : m.fs.childNamed parent name with
    | none =>
      obtain ⟨a, _, _, hcr⟩ := Xetfs.create_absent hn hc
      exact hs.creates hcr
    | some i =>
      obtain ⟨a, _, _, rfl⟩ := Xetfs.create_present hn hc
      refine hs.stages (Xetfs.insert_stages i) hf ?_
      intro j
      split
      · rename_i hj
        rw [hj, hk i hn]
        exact hk i hn
      · rfl
  | write i fh offset data =>
    cases h
    exact hs.stages (Xetfs.write_stages offset data) hf resized_reported
  | setattr i size =>
    cases h
    cases size with
    | none => exact hs
    | some size =>
      refine hs.stages (Xetfs.setattr_stages size) hf ?_
      rw [resize_truncate, Cells.length_truncate]
      exact resized_reported
  | fsync i fh | flush i fh =>
    obtain ⟨⟨fs', server'⟩, hflush, he⟩ := Option.map_eq_some_iff.mp h
    cases he
    exact hs.flushes stores hflush
  | release i fh =>
    obtain ⟨⟨fs', server'⟩, hflush, he⟩ := Option.map_eq_some_iff.mp h
    cases he
    exact hs.releases stores hk hflush
  | read i fh offset size =>
    cases h
    obtain ⟨cache, hc⟩ : ∃ cache, (m.fs.read agent m.server i offset size).1 =
      { m.fs with cache := cache } := Xetfs.read_frame offset size
    rw [hc] at hf ⊢
    exact ⟨hf, fun j => (hs.agrees j).congr id rfl rfl rfl (fun _ _ h => h)⟩
  | readdir i fh offset room =>
    obtain ⟨reply', _, he⟩ := Option.map_eq_some_iff.mp h
    cases he
    exact hs
  | _ =>
    cases h
    exact hs

theorem read_staged {st : Staging} (hst : m.fs.openFiles.lookup ino = some st) (fh size : ℕ) :
    (serve agent m (.read ino fh 0 size)).map Prod.snd = some (.data (st.buf.take size)) := by
  simp only [serve, Xetfs.read, hst, Option.map_some, clip_window, Cells.window, Pieces.slice,
    Int.toNat_zero, Nat.zero_add, List.drop_zero]

theorem read_stored (hf : Fetched agent m) (hnone : m.fs.openFiles.lookup ino = none)
    (hd : Durable agent m ino c) (fh size : ℕ) :
    (serve agent m (.read ino fh 0 size)).map Prod.snd = some (.data (c.take size)) := by
  have hbytes : (m.fs.fileBytes agent m.server ino).1 = some c :=
    fileBytes_fetched (o := none) hf hd (.inr rfl)
  generalize hread : m.fs.fileBytes agent m.server ino = p at hbytes
  obtain ⟨bytes, fs'⟩ := p
  obtain rfl : bytes = some c := hbytes
  simp only [serve, Xetfs.read, hnone, hread, Option.map_some, clip_window, Cells.window,
    Pieces.slice, Int.toNat_zero, Nat.zero_add, List.drop_zero]

/-- The report of an inode is right when it is the length of what is read. -/
theorem reports_iff (hread : ∀ fh size,
      (serve agent m (.read ino fh 0 size)).map Prod.snd = some (.data (b.take size))) :
    Reports agent m ino ↔ reported m.fs ino = some b.length := by
  constructor
  · rintro ⟨a, c, ha, hsize, hc⟩
    obtain ⟨n, hn, rfl⟩ := Option.map_eq_some_iff.mp ha
    have hsame : ∀ size, b.take size = c.take size := by
      intro size
      have he := (hread 0 size).symm.trans (hc 0 size)
      simpa using he
    have hb : b = c := by
      have htake := hsame (b.length + c.length)
      rwa [List.take_of_length_le (Nat.le_add_right _ _),
        List.take_of_length_le (Nat.le_add_left _ _)] at htake
    rw [reported, hn, Option.map_some, hb, ← hsize]
  · intro hr
    obtain ⟨n, hn, hsize⟩ := Option.map_eq_some_iff.mp hr
    exact ⟨_, b, congrArg (Option.map _) hn, hsize, hread⟩

theorem Sized.readable (hs : Sized agent m) : SizesReadable agent m := by
  intro ino hfile hsome
  cases hst : m.fs.openFiles.lookup ino with
  | some st => exact (reports_iff (read_staged hst)).mpr ((hs.agrees ino).staged st hst hfile)
  | none =>
    rw [hst] at hsome
    obtain ⟨fh, hfh⟩ := Option.isSome_iff_exists.mp (hsome.resolve_left nofun)
    obtain ⟨c, hc, hsize⟩ := (hs.agrees ino).stored fh hfh hfile
    exact (reports_iff (read_stored hs.toFetched hst ⟨fh, hfh, hc⟩)).mpr (hsize hst)

/-- Where the sizes are still right after a release, the buffer was saved, or the
content that shows up is as long. -/
theorem released_kept (stores : Stores agent) (hs : Sized agent m) {server' : σ}
    (hfile : IsFile m.fs ino)
    (h : m.fs.flushIfDirty agent m.server ino = some (fs', server'))
    (hp : SizesReadable agent ⟨{ fs' with openFiles := fs'.openFiles.erase ino }, server'⟩)
    {st : Staging} (hst : m.fs.openFiles.lookup ino = some st) :
    Saves agent m ino st ∨ ∀ c, Durable agent m ino c → c.length = st.buf.length := by
  have hs' := hs.flushes stores h
  have hstaged := (hs.agrees ino).staged st hst hfile
  have hdropped : ∀ c, Durable agent ⟨fs', server'⟩ ino c → IsFile fs' ino →
      reported fs' ino = some c.length := by
    intro c hd hfile'
    obtain ⟨fh, hfh, hrec⟩ := hd
    have hf : Fetched agent ⟨{ fs' with openFiles := fs'.openFiles.erase ino }, server'⟩ :=
      ⟨hs'.closed, hs'.cached⟩
    have hnone : (fs'.openFiles.erase ino).lookup ino = none := by simp
    refine (reports_iff (read_stored hf hnone ⟨fh, hfh, hrec⟩)).mp ?_
    have hsome : (fs'.hashOf ino).isSome = true := Option.isSome_iff_exists.mpr ⟨fh, hfh⟩
    exact hp ino hfile' (.inr hsome)
  obtain ⟨rfl, rfl, _⟩ | ⟨st', path, result, hst', hdirty, hpath, hingest, rfl⟩ :=
    Xetfs.flushIfDirty_cases h
  · refine .inr (fun c hd => ?_)
    have hsize := hdropped c hd hfile
    rw [hstaged, Option.some.injEq] at hsize
    exact hsize.symm
  · obtain rfl := Option.some.inj (hst.symm.trans hst')
    cases result with
    | ok fh => exact .inl ⟨hdirty, path, fh, server', hpath, hingest⟩
    | error e =>
      refine .inr (fun c hd => ?_)
      have hsize := hdropped c (Durable.kept (m := m) rfl (stores.kept hingest) hd) hfile
      have hsame := hstaged.symm.trans hsize
      exact (Option.some.inj hsame).symm

theorem sizeKept_of_readable (stores : Stores agent) (hs : Sized agent m) {r : Mount.Request}
    {reply : Reply} (on : OnFiles m r) (h : serve agent m r = some (m', reply))
    (hp : SizesReadable agent m') : SizeKept agent m r := by
  cases r with
  | create parent name =>
    intro i hi
    have hfile := on.2 i hi
    obtain ⟨⟨fs', reply'⟩, hc, he⟩ := Option.map_eq_some_iff.mp h
    cases he
    obtain ⟨a, _, _, rfl⟩ := Xetfs.create_present hi hc
    have hst : (m.fs.openFiles.insert i ⟨[], true⟩).lookup i = some ⟨[], true⟩ :=
      AList.lookup_insert _
    have hsome : ((m.fs.openFiles.insert i ⟨[], true⟩).lookup i).isSome = true :=
      Option.isSome_iff_exists.mpr ⟨_, hst⟩
    exact (reports_iff (read_staged hst)).mp (hp i hfile (.inl hsome))
  | release i fh =>
    intro st hst
    obtain ⟨⟨fs', server'⟩, hflush, he⟩ := Option.map_eq_some_iff.mp h
    cases he
    exact released_kept stores hs on hflush hp hst
  | _ => trivial

theorem sized_connect {volume : String} {entries : List EntryOut} {uid gid : ℕ} {fs : Xetfs}
    {server : σ} (sizes : ∀ e ∈ entries, ∃ b, agent.reconstruct e.fileHash server = .ok b ∧
      b.length = e.size) (h : connect volume entries uid gid = some fs) :
    Sized agent ⟨fs, server⟩ := by
  obtain ⟨fs', hc, _, hopen, _⟩ := connect_ok volume entries uid gid
  obtain rfl := Option.some.inj (h.symm.trans hc)
  obtain ⟨fs', hc, _, _, _, _, hentries, _⟩ := connect_built volume entries uid gid
  obtain rfl := Option.some.inj (h.symm.trans hc)
  refine ⟨fetched_connect h server, fun ino => ⟨?_, ?_⟩⟩
  · intro st hst
    rw [hopen] at hst
    cases hst
  · intro fh hfh hfile
    obtain ⟨e, he, hf⟩ := connect_files h (Option.map_eq_some_iff.mpr hfile)
    have hmem : e ∈ entries.filter (fun e => trimmed e.path ≠ []) :=
      hentries ▸ List.mem_map_of_mem he
    obtain ⟨b, hb, hlen⟩ := sizes e (List.mem_of_mem_filter hmem)
    obtain ⟨n, hn, _, hash, hsize⟩ := hf.node
    have hsame : fs.hashOf ino = some e.fileHash := by rw [Xetfs.hashOf, hn, Option.bind_some, hash]
    obtain rfl := Option.some.inj (hsame.symm.trans hfh)
    refine ⟨b, hb, ?_⟩
    intro _
    rw [reported, hn, Option.map_some, hsize, hlen]

theorem OnFiles.inDirectory {r : Mount.Request} (h : OnFiles m r) : InDirectory m r := by
  cases r with
  | create parent name => exact h.1
  | _ => trivial

/-- Over every listing with the right sizes and every run of requests on files, whatever
ingests fail, the sizes are what can be read when each request keeps them, and the
next request leaves them so exactly when it keeps them. -/
theorem sizes_readable (stores : Stores agent) (volume : String) (entries : List EntryOut)
    (uid gid : ℕ) (server : σ) (sizes : ∀ e ∈ entries, ∃ b,
      agent.reconstruct e.fileHash server = .ok b ∧ b.length = e.size) :
    ∃ fs, connect volume entries uid gid = some fs ∧ ∀ requests,
      Run.Guarded (next agent) (fun m r => OnFiles m r ∧ SizeKept agent m r) ⟨fs, server⟩
        requests →
      ∃ m replies, Run.trace (serve agent) ⟨fs, server⟩ requests = some (m, replies) ∧
        SizesReadable agent m ∧ ∀ r, OnFiles m r → ∃ m' reply,
          serve agent m r = some (m', reply) ∧ (SizesReadable agent m' ↔ SizeKept agent m r) := by
  obtain ⟨fs, hc, hi, _⟩ := connect_inodes volume entries uid gid
  refine ⟨fs, hc, ?_⟩
  intro requests hg
  have hstep : ∀ (m : Mounted σ) r, Inodes m.fs.nodes m.fs.next ∧ Sized agent m →
      OnFiles m r ∧ SizeKept agent m r → ∃ m' reply, serve agent m r = some (m', reply) ∧
        Inodes m'.fs.nodes m'.fs.next ∧ Sized agent m' := by
    intro m r hm hr
    obtain ⟨hi, hs⟩ := hm
    obtain ⟨on, hk⟩ := hr
    obtain ⟨m', reply, h⟩ := serve_total agent hi on.inDirectory
    exact ⟨m', reply, h, serve_inodes hi on.inDirectory h, hs.next stores hk h⟩
  obtain ⟨m, replies, htrace, hi', hs⟩ := Run.trace_total hstep ⟨hi, sized_connect sizes hc⟩ hg
  refine ⟨m, replies, htrace, hs.readable, ?_⟩
  intro r on
  obtain ⟨m', reply, h⟩ := serve_total agent hi' on.inDirectory
  refine ⟨m', reply, h, ?_, ?_⟩
  · exact sizeKept_of_readable stores hs on h
  · exact fun hk => (hs.next stores hk h).readable

/-- A test for what keeps the sizes, on a shelf. -/
def keepsSize (up : ℕ → Bool) (m : Mounted Shelf) : Mount.Request → Bool
  | .create parent name => (m.fs.childNamed parent name).all (fun i => reported m.fs i = some 0)
  | .release ino _ => (m.fs.openFiles.lookup ino).all (fun st =>
      (st.dirty && up m.server.calls && (m.fs.fullPath ino).isSome) ||
        (m.fs.hashOf ino).all (fun fh => fh = Shelf.fileHash st.buf))
  | _ => true

theorem keepsSize_kept {up : ℕ → Bool} {m : Mounted Shelf} {r : Mount.Request}
    (h : keepsSize up m r = true) : SizeKept (Shelf.agent up) m r := by
  cases r with
  | create parent name =>
    intro i hi
    rw [keepsSize, hi, Option.all_some, decide_eq_true_eq] at h
    exact h
  | release ino fh =>
    intro st hst
    simp only [keepsSize, hst, Option.all_some, Bool.or_eq_true, Bool.and_eq_true] at h
    rcases h with ⟨⟨hd, hup⟩, hpath⟩ | hhash
    · obtain ⟨path, hpath⟩ := Option.isSome_iff_exists.mp hpath
      exact .inl ⟨hd, path, _, _, hpath, if_pos hup⟩
    · refine .inr (fun c hd => ?_)
      obtain ⟨fh', hfh', hrec⟩ := hd
      rw [hfh', Option.all_some, decide_eq_true_eq] at hhash
      rw [hhash, Shelf.reconstruct_fileHash] at hrec
      rw [Except.ok.inj hrec]
  | _ => trivial

theorem listed_sizes {up : ℕ → Bool} : ∀ e ∈ listed, ∃ b,
    (Shelf.agent up).reconstruct e.fileHash shelved = .ok b ∧ b.length = e.size := by
  intro e he
  obtain rfl := List.mem_singleton.mp he
  exact ⟨_, Shelf.reconstruct_fileHash [1, 2] shelved, rfl⟩

/-- The server is down for the first call only. -/
def downOnce (calls : ℕ) : Bool := calls ≠ 0

/-- A file is shortened through a failing flush, and a new one is created twice. -/
def resizes : List Mount.Request :=
  [.setattr 2 (some 1), .flush 2 0, .write 2 0 3 [9], .release 2 0, .create root "b",
    .create root "b", .write 3 0 0 [7, 8], .fsync 3 0, .read 3 0 0 10]

theorem sizes_readable_resizes : ∃ fs m replies, connect "v" listed 0 0 = some fs ∧
    Run.trace (serve (Shelf.agent downOnce)) ⟨fs, shelved⟩ resizes = some (m, replies) ∧
    (m.fs.attr 2).map FileAttr.size = some 4 ∧ Reports (Shelf.agent downOnce) m 2 := by
  have hrun : (connect "v" listed 0 0).any (fun fs =>
      Run.check (next (Shelf.agent downOnce)) (fun m r => decide (OnFiles m r) &&
        keepsSize downOnce m r) ⟨fs, shelved⟩ resizes &&
      (Run.trace (serve (Shelf.agent downOnce)) ⟨fs, shelved⟩ resizes).any (fun p =>
        (p.1.fs.attr 2).map FileAttr.size = some 4 && decide (IsFile p.1.fs 2) &&
          (p.1.fs.hashOf 2).isSome)) = true := by decide
  simp only [Option.any_eq_true, Bool.and_eq_true, decide_eq_true_eq] at hrun
  obtain ⟨fs, hc, hcheck, ⟨m, replies⟩, htrace, ⟨hsize, hfile⟩, hhash⟩ := hrun
  have hg : Run.Guarded (next (Shelf.agent downOnce))
      (fun m r => OnFiles m r ∧ SizeKept (Shelf.agent downOnce) m r) ⟨fs, shelved⟩ resizes := by
    refine Run.guarded_of_test ?_ hcheck
    intro m r ht
    rw [Bool.and_eq_true, decide_eq_true_eq] at ht
    exact ⟨ht.1, keepsSize_kept ht.2⟩
  obtain ⟨fs', hc', h⟩ := sizes_readable shelf_stores "v" listed 0 0 shelved listed_sizes
  obtain rfl := Option.some.inj (hc.symm.trans hc')
  obtain ⟨m', replies', htrace', hread, _⟩ := h resizes hg
  cases htrace.symm.trans htrace'
  exact ⟨fs, m, replies, hc, htrace, hsize, hread 2 hfile (.inr hhash)⟩

theorem not_readable {size n : ℕ} (hfile : IsFile m.fs ino)
    (hsome : (m.fs.openFiles.lookup ino).isSome = true ∨ (m.fs.hashOf ino).isSome = true)
    (hattr : (m.fs.attr ino).map FileAttr.size = some size)
    (hread : (serve agent m (.read ino 0 0 n)).map Prod.snd = some (.data b))
    (hlen : b.length ≠ min n size) : ¬ SizesReadable agent m := by
  intro hp
  obtain ⟨a, c, ha, hsize, hc⟩ := hp ino hfile hsome
  rw [ha, Option.map_some, Option.some.injEq] at hattr
  have hsame := hread.symm.trans (hc 0 n)
  rw [Option.some.injEq, Reply.data.injEq] at hsame
  apply hlen
  rw [hsame, List.length_take, ← hsize, hattr]

/-- The server is down. -/
abbrev down : XetAgent Shelf := Shelf.agent (fun _ => false)

/-- Requests on files after which a size is reported that cannot be read. -/
def Stale (requests : List Mount.Request) : Prop :=
  ∃ fs m, connect "v" listed 0 0 = some fs ∧
    Run.Guarded (next down) OnFiles ⟨fs, shelved⟩ requests ∧
    Run.exec (next down) ⟨fs, shelved⟩ requests = some m ∧ ¬ SizesReadable down m

/-- A test for them: the file reports one size, and a read gives these bytes. -/
def stale (requests : List Mount.Request) (size : ℕ) (got : Bytes) : Bool :=
  (connect "v" listed 0 0).any (fun fs =>
    Run.check (next down) (fun m r => decide (OnFiles m r)) ⟨fs, shelved⟩ requests &&
    (Run.exec (next down) ⟨fs, shelved⟩ requests).any (fun m => decide (IsFile m.fs 2) &&
      ((m.fs.openFiles.lookup 2).isSome || (m.fs.hashOf 2).isSome) &&
      (m.fs.attr 2).map FileAttr.size = some size &&
      (serve down m (.read 2 0 0 10)).map Prod.snd = some (.data got)))

theorem stale_stale {requests : List Mount.Request} {size : ℕ} {got : Bytes}
    (h : stale requests size got = true) (hlen : got.length ≠ min 10 size) : Stale requests := by
  simp only [stale, Option.any_eq_true, Bool.and_eq_true, Bool.or_eq_true, decide_eq_true_eq] at h
  obtain ⟨fs, hc, hcheck, m, hm, ⟨⟨hfile, hsome⟩, hsize⟩, hread⟩ := h
  exact ⟨fs, m, hc, Run.guarded_of_test (fun _ _ => of_decide_eq_true) hcheck, hm,
    not_readable hfile hsome hsize hread hlen⟩

/-- A file that is created again reports its old size and is read empty; one that is
shortened and released while the server is down reports the new size and is read whole. -/
theorem stale_sizes : (∀ e ∈ listed, ∃ b, down.reconstruct e.fileHash shelved = .ok b ∧
      b.length = e.size) ∧
    Stale [.create root "a"] ∧ Stale [.setattr 2 (some 1), .release 2 0] := by
  have hcreate : stale [.create root "a"] 2 [] = true := by decide
  have hrelease : stale [.setattr 2 (some 1), .release 2 0] 1 [1, 2] = true := by decide
  exact ⟨listed_sizes, stale_stale hcreate (by decide), stale_stale hrelease (by decide)⟩

end Dejaveph.Proofs.SizeReadable

import Dejaveph.Mount.Posix
import Dejaveph.Mount.Shelf
import Dejaveph.Mount.Steps

namespace Dejaveph.Proofs.MountRefines
open Lib Server Mount

variable {σ : Type} {agent : XetAgent σ}

/-- The inode is a file. -/
def IsFile (fs : Xetfs) (ino : ℕ) : Prop := ∃ n, fs.nodes.lookup ino = some n ∧ n.kind = .file

instance (fs : Xetfs) : DecidablePred (IsFile fs) := fun ino =>
  decidable_of_iff ((fs.nodes.lookup ino).map Node.kind = some .file) Option.map_eq_some_iff

/-- The server has these bytes under the hash of the inode. -/
def Durable (agent : XetAgent σ) (m : Mounted σ) (ino : ℕ) (b : Bytes) : Prop :=
  ∃ fh, m.fs.hashOf ino = some fh ∧ agent.reconstruct fh m.server = .ok b

/-- The mount holds the files of the reference: staged, or durable under their
hash, of which the cache has a copy at most. -/
structure Related (agent : XetAgent σ) (m : Mounted σ) (files : Files) : Prop where
  tree : Tree m.fs.nodes m.fs.next
  inodes : ∀ ino, IsFile m.fs ino ↔ ∃ b, files ino = some b
  staged : ∀ ino st, m.fs.openFiles.lookup ino = some st → files ino = some st.buf
  durable : ∀ ino b, files ino = some b →
    (∀ st, m.fs.openFiles.lookup ino = some st → st.dirty = false) → Durable agent m ino b
  cached : ∀ ino c, m.fs.cache.lookup ino = some c → Durable agent m ino c

theorem IsFile.congr {fs fs' : Xetfs} (h : SameOutline fs.nodes fs'.nodes) {ino : ℕ} :
    IsFile fs' ino ↔ IsFile fs ino := by
  constructor
  · rintro ⟨n, hn, hk⟩
    obtain ⟨m, hm, _, hkind, _⟩ := h.lookup hn
    exact ⟨m, hm, hkind.trans hk⟩
  · rintro ⟨n, hn, hk⟩
    obtain ⟨m, hm, _, hkind, _⟩ := h.symm.lookup hn
    exact ⟨m, hm, hkind.trans hk⟩

theorem IsFile.mem {fs : Xetfs} {ino : ℕ} (h : IsFile fs ino) : ino ∈ fs.nodes := by
  obtain ⟨n, hn, _⟩ := h
  exact Table.mem_of_lookup hn

theorem Durable.congr {m m' : Mounted σ} {ino : ℕ} {b : Bytes}
    (hh : m'.fs.hashOf ino = m.fs.hashOf ino) (hs : m'.server = m.server)
    (h : Durable agent m ino b) : Durable agent m' ino b := by
  obtain ⟨fh, hfh, hr⟩ := h
  exact ⟨fh, hh.trans hfh, by rw [hs, hr]⟩

section
variable {m : Mounted σ} {files : Files} {ino : ℕ} {b : Bytes}

theorem fileBytes_durable (hr : Related agent m files) (hd : Durable agent m ino b) :
    ∃ cache, m.fs.fileBytes agent m.server ino = (some b, { m.fs with cache := cache }) ∧
      ∀ i c, cache.lookup i = some c → Durable agent m i c := by
  obtain ⟨fh, hfh, hrec⟩ := hd
  unfold Xetfs.fileBytes
  split
  · rename_i c hc
    obtain ⟨fh', hfh', hrec'⟩ := hr.cached ino c hc
    obtain rfl := Option.some.inj (hfh.symm.trans hfh')
    obtain rfl := Except.ok.inj (hrec.symm.trans hrec')
    exact ⟨m.fs.cache, rfl, hr.cached⟩
  · change (m.fs.nodes.lookup ino).bind Node.fileHash = some fh at hfh
    simp only [hfh, hrec]
    refine ⟨m.fs.cache.insert ino b, rfl, ?_⟩
    intro i c hc
    rw [Table.lookup_insert_if] at hc
    split at hc
    · rename_i he
      subst he
      cases hc
      exact ⟨fh, hfh, hrec⟩
    · exact hr.cached i c hc

theorem Related.recached (hr : Related agent m files) {cache : Table ℕ Bytes}
    (hc : ∀ i c, cache.lookup i = some c → Durable agent m i c) :
    Related agent { m with fs := { m.fs with cache := cache } } files where
  tree := hr.tree
  inodes := hr.inodes
  staged := hr.staged
  durable := hr.durable
  cached := hc

/-- A staging buffer is seeded with the bytes of the file. -/
theorem ensureStaging_seeded (hr : Related agent m files) (hf : files ino = some b) :
    (m.fs.ensureStaging agent m.server ino).1.buf = b ∧
      ∀ i c, (m.fs.ensureStaging agent m.server ino).2.cache.lookup i = some c →
        Durable agent m i c := by
  unfold Xetfs.ensureStaging
  split
  · rename_i st hst
    have hb := hr.staged ino st hst
    rw [hf] at hb
    exact ⟨(Option.some.inj hb).symm, hr.cached⟩
  · rename_i hn
    have hd := hr.durable ino b hf (fun st hst => by rw [hn] at hst; cases hst)
    obtain ⟨cache, hbytes, hc⟩ := fileBytes_durable hr hd
    rw [hbytes]
    exact ⟨rfl, hc⟩

/-- A dirty staging buffer is the file from then on. -/
theorem Related.stages {fs' : Xetfs} (hr : Related agent m files) (hf : files ino = some b)
    {buf : Bytes} (hs : Xetfs.Stages m.fs fs' ino buf)
    (hc : ∀ i c, fs'.cache.lookup i = some c → Durable agent m i c) :
    Related agent { m with fs := fs' } (Function.update files ino (some buf)) where
  tree := by
    have ht := hs.outline.tree hr.tree
    rwa [← hs.next] at ht
  inodes i := by
    rw [IsFile.congr hs.outline, hr.inodes]
    by_cases hi : i = ino
    · subst hi
      simp [hf]
    · simp [hi]
  staged i st hst := by
    rw [hs.files] at hst
    split at hst
    · rename_i hi
      subst hi
      cases hst
      simp
    · rename_i hi
      rw [Function.update_of_ne hi]
      exact hr.staged i st hst
  durable i c hi hclean := by
    by_cases he : i = ino
    · subst he
      have := hclean ⟨buf, true⟩ (by rw [hs.files, if_pos rfl])
      cases this
    · rw [Function.update_of_ne he] at hi
      refine Durable.congr (hs.hashes i) rfl (hr.durable i c hi ?_)
      intro st hst
      exact hclean st (by rw [hs.files, if_neg he, hst])
  cached i c hi := Durable.congr (hs.hashes i) rfl (hc i c hi)

theorem clip_window (bytes : Bytes) (off size : ℕ) :
    Xetfs.clip bytes off size = Cells.window bytes off size :=
  Cells.clip_eq bytes off size

theorem resize_truncate (buf : Bytes) (n : ℕ) : Xetfs.resize buf n = Cells.truncate 0 buf n :=
  Cells.truncate_eq buf n

theorem written_overlay (buf : Bytes) (off : ℕ) (data : Bytes) :
    Xetfs.written buf off data = Cells.overlay 0 buf off data := by
  apply Cells.splice_eq
  · split
    · rw [resize_truncate, Cells.length_truncate]
      omega
    · omega
  · intro i
    split
    · rename_i h
      rw [resize_truncate, Cells.cellAt_truncate h.le]
    · rfl

theorem attr_file (hf : IsFile m.fs ino) : ∃ a, m.fs.attr ino = some a := by
  obtain ⟨n, hn, _⟩ := hf
  exact ⟨_, congrArg (Option.map _) hn⟩

theorem read_refines (hr : Related agent m files) (hf : files ino = some b) (offset : ℤ)
    (size : ℕ) : ∃ fs', m.fs.read agent m.server ino offset size =
      (fs', .data (Cells.window b offset.toNat size)) ∧
        Related agent { m with fs := fs' } files := by
  unfold Xetfs.read
  split
  · rename_i st hst
    have hb := hr.staged ino st hst
    rw [hf] at hb
    obtain rfl := Option.some.inj hb
    exact ⟨m.fs, by rw [clip_window], hr⟩
  · rename_i hn
    have hd := hr.durable ino b hf (fun st hst => by rw [hn] at hst; cases hst)
    obtain ⟨cache, hbytes, hc⟩ := fileBytes_durable hr hd
    rw [hbytes, ← clip_window]
    exact ⟨_, rfl, hr.recached hc⟩

theorem write_refines (hr : Related agent m files) (hf : files ino = some b) (offset : ℤ)
    (data : Bytes) : ∃ fs', m.fs.write agent m.server ino offset data =
      (fs', .written data.length) ∧ Related agent { m with fs := fs' }
        (Function.update files ino (some (Cells.overlay 0 b offset.toNat data))) := by
  obtain ⟨hbuf, hc⟩ := ensureStaging_seeded hr hf
  have hs : Xetfs.Stages m.fs (m.fs.write agent m.server ino offset data).1 ino _ :=
    Xetfs.write_stages offset data
  rw [hbuf, written_overlay] at hs
  refine ⟨(m.fs.write agent m.server ino offset data).1, rfl, hr.stages hf hs ?_⟩
  intro i c hi
  rw [Xetfs.write_cache] at hi
  exact hc i c hi

theorem setattr_refines (hr : Related agent m files) (hf : files ino = some b) (size : ℕ) :
    ∃ fs' a, m.fs.setattr agent m.server ino (some size) = (fs', .attr a) ∧
      Related agent { m with fs := fs' }
        (Function.update files ino (some (Cells.truncate 0 b size))) := by
  obtain ⟨hbuf, hc⟩ := ensureStaging_seeded hr hf
  have hs : Xetfs.Stages m.fs (m.fs.setattr agent m.server ino (some size)).1 ino _ :=
    Xetfs.setattr_stages size
  rw [hbuf, resize_truncate] at hs
  have hrel := hr.stages hf hs (by
    intro i c hi
    rw [Xetfs.setattr_cache] at hi
    exact hc i c hi)
  obtain ⟨a, ha⟩ := attr_file ((hrel.inodes ino).mpr ⟨_, Function.update_self ..⟩)
  exact ⟨(m.fs.setattr agent m.server ino (some size)).1, a,
    Prod.ext rfl (Xetfs.setattr_reply ha), hrel⟩

theorem isFile_iff {fs : Xetfs} : IsFile fs ino ↔ ∃ v,
    (fs.nodes.lookup ino).map (fun n => (n.outline, n.fileHash)) = some v ∧ v.1.2.1 = .file := by
  simp only [IsFile, Option.map_eq_some_iff]
  constructor
  · rintro ⟨n, hn, hk⟩
    exact ⟨_, ⟨n, hn, rfl⟩, hk⟩
  · rintro ⟨_, ⟨n, hn, rfl⟩, hk⟩
    exact ⟨n, hn, hk⟩

theorem Creates.isFile {fs fs' : Xetfs} {parent : ℕ} {name : String}
    (hc : Xetfs.Creates fs fs' parent name) (i : ℕ) :
    IsFile fs' i ↔ i = fs.next ∨ IsFile fs i := by
  rw [isFile_iff, isFile_iff, addNode_view hc.added]
  by_cases hi : i = fs.next
  · simp [hi, Node.outline]
  · simp [hi]

theorem Creates.hashOf {fs fs' : Xetfs} {parent : ℕ} {name : String}
    (hc : Xetfs.Creates fs fs' parent name) {i : ℕ} (hi : i ≠ fs.next) :
    fs'.hashOf i = fs.hashOf i := by
  have hv := congrArg (Option.bind · Prod.snd) (addNode_view hc.added i)
  simp only [if_neg hi, Option.bind_map] at hv
  exact hv

theorem Related.next_none (hr : Related agent m files) : files m.fs.next = none := by
  rw [Option.eq_none_iff_forall_ne_some]
  intro c hc
  obtain ⟨n, hn, _⟩ := (hr.inodes _).mpr ⟨c, hc⟩
  have := hr.tree.below _ (Table.mem_of_lookup hn)
  omega

theorem Related.creates {fs' : Xetfs} (hr : Related agent m files) {parent : ℕ} {name : String}
    (hp : parent ∈ m.fs.nodes) (hc : Xetfs.Creates m.fs fs' parent name) :
    Related agent { m with fs := fs' } (Function.update files m.fs.next (some [])) where
  tree := by
    have ht := hr.tree.addNode hp hc.added
    rwa [← hc.next] at ht
  inodes i := by
    rw [Creates.isFile hc, hr.inodes]
    by_cases hi : i = m.fs.next <;> simp [hi]
  staged i st hst := by
    rw [hc.files] at hst
    split at hst
    · rename_i hi
      subst hi
      cases hst
      simp
    · rename_i hi
      rw [Function.update_of_ne hi]
      exact hr.staged i st hst
  durable i c hi hclean := by
    by_cases he : i = m.fs.next
    · subst he
      have := hclean ⟨[], true⟩ (by rw [hc.files, if_pos rfl])
      cases this
    · rw [Function.update_of_ne he] at hi
      refine Durable.congr (Creates.hashOf hc he) rfl (hr.durable i c hi ?_)
      intro st hst
      exact hclean st (by rw [hc.files, if_neg he, hst])
  cached i c hi := by
    rw [hc.cache] at hi
    have hd := hr.cached i c hi
    refine Durable.congr (Creates.hashOf hc ?_) rfl hd
    rintro rfl
    obtain ⟨fh, hfh, _⟩ := hd
    obtain ⟨n, hn, _⟩ := Option.bind_eq_some_iff.mp hfh
    have := hr.tree.below _ (Table.mem_of_lookup hn)
    omega

theorem create_refines (hr : Related agent m files) {parent : ℕ} {name : String}
    (hp : parent ∈ m.fs.nodes) (hnew : m.fs.childNamed parent name = none) :
    ∃ fs' a, m.fs.create parent name = some (fs', .created a) ∧ files a.ino = none ∧
      Related agent { m with fs := fs' } (Function.update files a.ino (some [])) := by
  have hlt := hr.tree.below parent hp
  have hne : parent ≠ m.fs.next := by omega
  obtain ⟨nodes, ha⟩ := addNode_total (n := ⟨name, .file, parent, [], none, 0⟩) hne hp
  obtain ⟨fs', a, hcreate, hino, hc⟩ := Xetfs.create_new hnew ha
  refine ⟨fs', a, hcreate, ?_⟩
  rw [hino]
  exact ⟨hr.next_none, hr.creates hp hc⟩

theorem Related.flushes {fs' : Xetfs} {server' : σ} (records : agent.Records)
    (hr : Related agent m files) {st : Staging} {path fh : String}
    (hst : m.fs.openFiles.lookup ino = some st)
    (hingest : agent.ingestBytes m.fs.volume path st.buf m.server = (.ok fh, server'))
    (hf : Xetfs.Flushes m.fs fs' ino st.buf fh) : Related agent ⟨fs', server'⟩ files := by
  have hbuf := hr.staged ino st hst
  have hother : ∀ i c, i ≠ ino → Durable agent m i c → Durable agent ⟨fs', server'⟩ i c := by
    rintro i c hi ⟨fh', hfh', hrec⟩
    refine ⟨fh', ?_, records.keeps _ _ _ _ _ _ hingest fh' c hrec⟩
    change fs'.hashOf i = some fh'
    rw [hf.hashes, if_neg hi, hfh']
  refine ⟨?_, ?_, ?_, ?_, ?_⟩
  · have ht := hf.outline.tree hr.tree
    rwa [← hf.next] at ht
  · intro i
    rw [← hr.inodes]
    exact IsFile.congr hf.outline
  · intro i st' hi
    change fs'.openFiles.lookup i = _ at hi
    rw [hf.files] at hi
    split at hi
    · rename_i he
      subst he
      cases hi
      exact hbuf
    · exact hr.staged i st' hi
  · intro i c hi hclean
    by_cases he : i = ino
    · subst he
      obtain rfl := Option.some.inj (hbuf.symm.trans hi)
      have hfile : IsFile m.fs i := (hr.inodes i).mpr ⟨_, hbuf⟩
      exact ⟨fh, hf.hashOf hfile.mem, records.content _ _ _ _ _ _ hingest⟩
    · refine hother i c he (hr.durable i c hi ?_)
      intro st' hst'
      refine hclean st' ?_
      change fs'.openFiles.lookup i = _
      rw [hf.files, if_neg he, hst']
  · intro i c hi
    change fs'.cache.lookup i = _ at hi
    rw [hf.cache] at hi
    split at hi
    · cases hi
    · rename_i he
      exact hother i c he (hr.cached i c hi)

/-- After a flush the inode is clean, and what was pending is in the catalog. -/
theorem flush_refines {fileHash : Bytes → String} (faithful : agent.Faithful fileHash)
    (hr : Related agent m files) (ino : ℕ) :
    ∃ m', m.fs.flushIfDirty agent m.server ino = some (m'.fs, m'.server) ∧
      Related agent m' files ∧
      (∀ st, m'.fs.openFiles.lookup ino = some st → st.dirty = false) ∧
      ∀ st, m.fs.openFiles.lookup ino = some st → st.dirty = true →
        ∃ path, m'.fs.fullPath ino = some path ∧
          agent.catalog (m'.fs.volume, path) m'.server = some (fileHash st.buf) := by
  by_cases hd : ∃ st, m.fs.openFiles.lookup ino = some st ∧ st.dirty = true
  · obtain ⟨st, hst, hd⟩ := hd
    obtain ⟨path, hpath⟩ := hr.tree.fullPath ino
    obtain ⟨server', hingest⟩ := faithful.ingests m.fs.volume path st.buf m.server
    obtain ⟨fs', hflush, hf⟩ := Xetfs.flushIfDirty_ok hst hd hpath hingest
    refine ⟨⟨fs', server'⟩, hflush, hr.flushes faithful.toRecords hst hingest hf, ?_, ?_⟩
    · intro st' hst'
      rw [hf.files, if_pos rfl] at hst'
      cases hst'
      rfl
    · intro st' hst' _
      obtain rfl := Option.some.inj (hst.symm.trans hst')
      refine ⟨path, (hf.outline.fullPath ino).trans hpath, ?_⟩
      simp only [hf.volume]
      exact faithful.catalog _ _ _ _ _ _ hingest
  · have hclean : ∀ st, m.fs.openFiles.lookup ino = some st → st.dirty = false :=
      fun st hst => Bool.eq_false_iff.mpr (fun ht => hd ⟨st, hst, ht⟩)
    exact ⟨m, Xetfs.flushIfDirty_clean hclean, hr, hclean, fun st hst ht => absurd ⟨st, hst, ht⟩ hd⟩

theorem Related.released (hr : Related agent m files)
    (hclean : ∀ st, m.fs.openFiles.lookup ino = some st → st.dirty = false) :
    Related agent { m with fs := { m.fs with openFiles := m.fs.openFiles.erase ino } } files where
  tree := hr.tree
  inodes := hr.inodes
  staged i st hst := by
    change AList.lookup i (m.fs.openFiles.erase ino) = some st at hst
    rw [Table.lookup_erase_if] at hst
    split at hst
    · cases hst
    · exact hr.staged i st hst
  durable i c hi hnone := by
    apply hr.durable i c hi
    intro st hst
    by_cases he : i = ino
    · exact hclean st (he ▸ hst)
    · apply hnone st
      change AList.lookup i (m.fs.openFiles.erase ino) = some st
      rw [Table.lookup_erase_if, if_neg he, hst]
  cached := hr.cached

end

/-- The requests on files, and the creation of names that are not there. -/
def Valid (m : Mounted σ) : Request → Prop
  | .lookup .. | .getattr .. => True
  | .create parent name =>
    (m.fs.nodes.lookup parent).map Node.kind = some .dir ∧ m.fs.childNamed parent name = none
  | .read ino _ offset _ | .write ino _ offset _ => IsFile m.fs ino ∧ 0 ≤ offset
  | .open_ ino | .setattr ino _ | .fsync ino _ | .flush ino _ | .release ino _ => IsFile m.fs ino
  | .readdir .. => False

instance (m : Mounted σ) : DecidablePred (Valid m)
  | .lookup .. | .getattr _ => inferInstanceAs (Decidable True)
  | .create .. => inferInstanceAs (Decidable (_ ∧ _))
  | .read ino .. | .write ino .. => inferInstanceAs (Decidable (IsFile m.fs ino ∧ _))
  | .open_ ino | .setattr ino _ | .fsync ino _ | .flush ino _ | .release ino _ =>
    inferInstanceAs (Decidable (IsFile m.fs ino))
  | .readdir .. => inferInstanceAs (Decidable False)

theorem serve_refines {fileHash : Bytes → String} (faithful : agent.Faithful fileHash)
    {m : Mounted σ} {files : Files} {r : Request} (hr : Related agent m files) (hv : Valid m r) :
    ∃ m' reply files', serve agent m r = some (m', reply) ∧ Posix files r reply files' ∧
      Related agent m' files' := by
  cases r with
  | lookup parent name => exact ⟨m, _, files, rfl, .lookup .., hr⟩
  | getattr ino => exact ⟨m, _, files, rfl, .getattr .., hr⟩
  | open_ ino =>
    obtain ⟨b, hb⟩ := (hr.inodes ino).mp hv
    exact ⟨m, _, files, rfl, .open_ ino b hb, hr⟩
  | create parent name =>
    obtain ⟨hdir, hnew⟩ := hv
    obtain ⟨n, hn, _⟩ := Option.map_eq_some_iff.mp hdir
    obtain ⟨fs', a, hc, hfresh, hr'⟩ := create_refines hr (Table.mem_of_lookup hn) hnew
    exact ⟨_, _, _, congrArg (Option.map _) hc, .create parent name a hfresh, hr'⟩
  | read ino fh offset size =>
    obtain ⟨b, hb⟩ := (hr.inodes ino).mp hv.1
    obtain ⟨fs', hread, hr'⟩ := read_refines hr hb offset size
    exact ⟨{ m with fs := fs' }, _, files, by simp only [serve, hread],
      .read ino fh offset size b hb, hr'⟩
  | write ino fh offset data =>
    obtain ⟨b, hb⟩ := (hr.inodes ino).mp hv.1
    obtain ⟨fs', hwrite, hr'⟩ := write_refines hr hb offset data
    exact ⟨{ m with fs := fs' }, _, _, by simp only [serve, hwrite],
      .write ino fh offset data b hb, hr'⟩
  | setattr ino size =>
    obtain ⟨b, hb⟩ := (hr.inodes ino).mp hv
    cases size with
    | none =>
      obtain ⟨a, ha⟩ := attr_file hv
      refine ⟨m, _, files, ?_, .touch ino a b hb, hr⟩
      simp only [serve, Xetfs.setattr, ha]
    | some size =>
      obtain ⟨fs', a, hset, hr'⟩ := setattr_refines hr hb size
      exact ⟨{ m with fs := fs' }, _, _, by simp only [serve, hset],
        .resize ino size a b hb, hr'⟩
  | fsync ino fh =>
    obtain ⟨b, hb⟩ := (hr.inodes ino).mp hv
    obtain ⟨m', hf, hr', _⟩ := flush_refines faithful hr ino
    exact ⟨m', _, files, congrArg (Option.map _) hf, .fsync ino fh b hb, hr'⟩
  | flush ino fh =>
    obtain ⟨b, hb⟩ := (hr.inodes ino).mp hv
    obtain ⟨m', hf, hr', _⟩ := flush_refines faithful hr ino
    exact ⟨m', _, files, congrArg (Option.map _) hf, .flush ino fh b hb, hr'⟩
  | release ino fh =>
    obtain ⟨b, hb⟩ := (hr.inodes ino).mp hv
    obtain ⟨m', hf, hr', hclean, _⟩ := flush_refines faithful hr ino
    exact ⟨_, _, files, congrArg (Option.map _) hf, .release ino fh b hb, hr'.released hclean⟩
  | readdir ino fh offset room => exact hv.elim

/-- The bytes that the server has for each file of the tree. -/
def contents (agent : XetAgent σ) (server : σ) (fs : Xetfs) : Files := fun ino =>
  ((fs.nodes.lookup ino).filter (fun n => n.kind = .file)).bind (fun n =>
    n.fileHash.bind (fun fh => (agent.reconstruct fh server).toOption))

theorem related_connect {volume : String} {entries : List EntryOut} {uid gid : ℕ} {fs : Xetfs}
    {server : σ} (readable : ∀ e ∈ entries, ∃ b, agent.reconstruct e.fileHash server = .ok b)
    (h : connect volume entries uid gid = some fs) :
    Related agent ⟨fs, server⟩ (contents agent server fs) := by
  obtain ⟨fs', hc, _, hopen, hcache, ht, hfiles⟩ := connect_ok volume entries uid gid
  obtain rfl := Option.some.inj (h.symm.trans hc)
  have hcontent : ∀ ino b, contents agent server fs ino = some b →
      Durable agent ⟨fs, server⟩ ino b := by
    intro ino b hb
    obtain ⟨n, hn, hb⟩ := Option.bind_eq_some_iff.mp hb
    obtain ⟨fh, hfh, hb⟩ := Option.bind_eq_some_iff.mp hb
    obtain ⟨hn, _⟩ := Option.filter_eq_some_iff.mp hn
    refine ⟨fh, by simp only [Xetfs.hashOf, hn, Option.bind_some, hfh], ?_⟩
    cases hrec : agent.reconstruct fh server with
    | error e =>
      rw [hrec] at hb
      cases hb
    | ok c =>
      rw [hrec] at hb
      cases hb
      rfl
  refine ⟨ht, ?_, ?_, fun ino b hb _ => hcontent ino b hb, ?_⟩
  · intro ino
    constructor
    · rintro ⟨n, hn, hk⟩
      obtain ⟨e, he, hfh⟩ := hfiles ino n hn hk
      obtain ⟨b, hb⟩ := readable e he
      refine ⟨b, Option.bind_eq_some_iff.mpr ⟨n, ?_, ?_⟩⟩
      · exact Option.filter_eq_some_iff.mpr ⟨hn, decide_eq_true hk⟩
      · rw [hfh, Option.bind_some, hb]
        rfl
    · rintro ⟨b, hb⟩
      obtain ⟨n, hn, _⟩ := Option.bind_eq_some_iff.mp hb
      obtain ⟨hn, hk⟩ := Option.filter_eq_some_iff.mp hn
      exact ⟨n, hn, of_decide_eq_true hk⟩
  · intro ino st hst
    rw [hopen] at hst
    cases hst
  · intro ino c hc
    rw [hcache] at hc
    cases hc

section
variable {fs fs' : Xetfs} {server server' : σ} {i : ℕ}

theorem isDirty_staged {buf : Bytes} (h : ∀ j, fs'.openFiles.lookup j =
    if j = i then some ⟨buf, true⟩ else fs.openFiles.lookup j) (ino : ℕ) :
    fs'.isDirty ino = (fs.isDirty ino || ino == i) := by
  rw [Xetfs.isDirty, h, Xetfs.isDirty]
  by_cases hi : ino = i <;> simp [hi]

theorem isDirty_flushed (h : fs.flushIfDirty agent server i = some (fs', server')) (ino : ℕ) :
    fs'.isDirty ino = (fs.isDirty ino && ino != i) := by
  rw [Xetfs.isDirty, Xetfs.flushIfDirty_files h, Xetfs.isDirty]
  by_cases hi : ino = i
  · cases fs.openFiles.lookup i <;> simp [hi]
  · simp [hi]

theorem isDirty_erased (ino : ℕ) :
    Xetfs.isDirty { fs with openFiles := fs.openFiles.erase i } ino =
      (fs.isDirty ino && ino != i) := by
  rw [Xetfs.isDirty]
  change (AList.lookup ino (fs.openFiles.erase i)).any _ = _
  rw [Table.lookup_erase_if, Xetfs.isDirty]
  by_cases hi : ino = i <;> simp [hi]

end

theorem serve_pends {m m' : Mounted σ} {r : Request} {reply : Reply}
    (h : serve agent m r = some (m', reply)) (ino : ℕ) :
    m'.fs.isDirty ino = pends ino (m.fs.isDirty ino) (r, reply) := by
  cases r with
  | create parent name =>
    obtain ⟨⟨fs', reply'⟩, hc, he⟩ := Option.map_eq_some_iff.mp h
    cases he
    obtain ⟨a, rfl, hs | ⟨ha, hs⟩⟩ := Xetfs.create_cases hc
    · exact isDirty_staged hs.files ino
    · rw [pends, ha]
      exact isDirty_staged hs.files ino
  | write i fh offset data =>
    cases h
    exact isDirty_staged (Xetfs.write_stages offset data).files ino
  | setattr i size =>
    cases h
    cases size with
    | none => rfl
    | some size => exact isDirty_staged (Xetfs.setattr_stages size).files ino
  | fsync i fh | flush i fh =>
    obtain ⟨⟨fs', server'⟩, hf, he⟩ := Option.map_eq_some_iff.mp h
    cases he
    exact isDirty_flushed hf ino
  | release i fh =>
    obtain ⟨⟨fs', server'⟩, hf, he⟩ := Option.map_eq_some_iff.mp h
    cases he
    refine (isDirty_erased ino).trans ?_
    rw [isDirty_flushed hf, pends, Bool.and_assoc, Bool.and_self]
  | read i fh offset size =>
    cases h
    exact congrArg (fun o => (o.lookup ino).any Staging.dirty) (Xetfs.read_openFiles offset size)
  | readdir i fh offset room =>
    obtain ⟨reply', _, he⟩ := Option.map_eq_some_iff.mp h
    cases he
    rfl
  | _ =>
    cases h
    rfl

theorem trace_pends {m m' : Mounted σ} {requests : List Request} {replies : List Reply}
    (h : Run.trace (serve agent) m requests = some (m', replies)) (ino : ℕ) :
    m'.fs.isDirty ino = (requests.zip replies).foldl (pends ino) (m.fs.isDirty ino) :=
  Run.trace_fold (fun _ _ _ _ hs => serve_pends hs ino) h

theorem flushed_serve {fileHash : Bytes → String} (faithful : agent.Faithful fileHash)
    {m : Mounted σ} {files : Files} (hr : Related agent m files) {r : Request} {ino : ℕ}
    (hflush : r.flushed = some ino) (hd : m.fs.isDirty ino = true) :
    ∃ m' path b, serve agent m r = some (m', .ok) ∧ m'.fs.fullPath ino = some path ∧
      files ino = some b ∧ agent.catalog (m'.fs.volume, path) m'.server = some (fileHash b) := by
  obtain ⟨st, hst, hd⟩ := (Option.any_eq_true _ _).mp hd
  obtain ⟨m', hf, _, _, hcat⟩ := flush_refines faithful hr ino
  obtain ⟨path, hpath, hcat⟩ := hcat st hst hd
  cases r with
  | fsync i fh | flush i fh =>
    cases hflush
    exact ⟨m', path, st.buf, congrArg (Option.map _) hf, hpath, hr.staged ino st hst, hcat⟩
  | release i fh =>
    cases hflush
    exact ⟨_, path, st.buf, congrArg (Option.map _) hf, hpath, hr.staged ino st hst, hcat⟩
  | _ => cases hflush

/-- The mount answers as the byte files of the reference do, over any catalog and
any requests on files, when the server always succeeds. What is pending reaches
the catalog by a flush, under the hash of all its bytes. -/
theorem mount_refines {fileHash : Bytes → String} (faithful : agent.Faithful fileHash)
    (volume : String) (entries : List EntryOut) (uid gid : ℕ) (server : σ)
    (readable : ∀ e ∈ entries, ∃ b, agent.reconstruct e.fileHash server = .ok b) :
    ∃ fs, connect volume entries uid gid = some fs ∧
      ∀ requests, Run.Guarded (next agent) Valid ⟨fs, server⟩ requests →
        ∃ m replies files, Run.trace (serve agent) ⟨fs, server⟩ requests = some (m, replies) ∧
          Run.Runs Posix (contents agent server fs) requests replies files ∧
          (∀ before after, requests = before ++ after → ∃ mid,
            Run.Runs Posix (contents agent server fs) before (replies.take before.length) mid ∧
            ∀ ino b, mid ino = some b → (∀ r ∈ after, r.target ≠ some ino) →
              files ino = some b) ∧
          ∀ r ino, r.flushed = some ino → pending ino (requests.zip replies) = true →
            ∃ m' path b, serve agent m r = some (m', .ok) ∧ m'.fs.fullPath ino = some path ∧
              files ino = some b ∧
              agent.catalog (m'.fs.volume, path) m'.server = some (fileHash b) := by
  obtain ⟨fs, hc, _, hopen, _⟩ := connect_ok volume entries uid gid
  refine ⟨fs, hc, ?_⟩
  intro requests hv
  have hstep : ∀ m files r, Related agent m files → Valid m r → ∃ m' reply files',
      serve agent m r = some (m', reply) ∧ Posix files r reply files' ∧ Related agent m' files' :=
    fun _ _ _ => serve_refines faithful
  obtain ⟨m, replies, files, htrace, hruns, hr⟩ :=
    Run.trace_refines hstep (related_connect readable hc) hv
  refine ⟨m, replies, files, htrace, hruns, ?_, ?_⟩
  · rintro before after rfl
    obtain ⟨mid, hmid, hafter⟩ := hruns.split
    exact ⟨mid, hmid, fun ino b hb ht => posix_runs_frame hafter hb ht⟩
  · intro r ino hflush hp
    apply flushed_serve faithful hr hflush
    rw [trace_pends htrace ino, Xetfs.isDirty, hopen]
    exact hp

def shared : List EntryOut := [⟨"a", Shelf.fileHash [1, 2], 2⟩]

/-- A file of the catalog and a new one, through several handles. -/
def session : List Request :=
  [.create root "b", .write 3 0 0 [7, 8, 9], .open_ 2, .write 2 0 4 [5], .read 2 1 0 10,
    .fsync 3 0, .setattr 3 (some 2), .flush 2 1, .release 2 0, .read 2 1 3 2, .write 2 1 0 [6],
    .release 3 0, .read 3 0 0 10]

theorem mount_refines_session : ∃ fs m replies files m' path b,
    connect "v" shared 0 0 = some fs ∧
    Run.trace (serve (Shelf.agent (fun _ => true))) ⟨fs, {}⟩ session = some (m, replies) ∧
    Run.Runs Posix (contents (Shelf.agent (fun _ => true)) {} fs) session replies files ∧
    serve (Shelf.agent (fun _ => true)) m (.release 2 1) = some (m', .ok) ∧
    m'.fs.fullPath 2 = some path ∧ files 2 = some b ∧
    m'.server.catalog.lookup (m'.fs.volume, path) = some (Shelf.fileHash b) := by
  have hreadable : ∀ e ∈ shared, ∃ b,
      (Shelf.agent (fun _ => true)).reconstruct e.fileHash {} = .ok b := by
    intro e he
    obtain rfl := List.mem_singleton.mp he
    exact ⟨_, Shelf.reconstruct_fileHash [1, 2] {}⟩
  have hrun : (connect "v" shared 0 0).map (fun fs =>
      (Run.check (next (Shelf.agent (fun _ => true))) (fun m r => Valid m r) ⟨fs, {}⟩ session,
        (Run.trace (serve (Shelf.agent (fun _ => true))) ⟨fs, {}⟩ session).map (fun p =>
          pending 2 (session.zip p.2)))) = some (true, some true) := by decide
  obtain ⟨fs, hc, h⟩ := mount_refines Shelf.faithful "v" shared 0 0 {} hreadable
  rw [hc, Option.map_some, Option.some.injEq, Prod.mk.injEq] at hrun
  have hv : Run.Guarded (next (Shelf.agent (fun _ => true))) Valid ⟨fs, {}⟩ session :=
    Run.guarded_of_test (fun _ _ => of_decide_eq_true) hrun.1
  obtain ⟨m, replies, files, htrace, hruns, _, hflush⟩ := h session hv
  rw [htrace, Option.map_some, Option.some.injEq] at hrun
  obtain ⟨m', path, b, hserve, hpath, hb, hcat⟩ := hflush (.release 2 1) 2 rfl hrun.2
  exact ⟨fs, m, replies, files, m', path, b, hc, htrace, hruns, hserve, hpath, hb, hcat⟩

end Dejaveph.Proofs.MountRefines

import Dejaveph.Mount.Apart
import Dejaveph.Proofs.FlushKept
import Dejaveph.Proofs.MountRefines
import Dejaveph.Proofs.WriteBack

namespace Dejaveph.Proofs.ClosedSaved
open Lib Server Mount MountRefines FlushKept WriteBack

/-- The mount, and how many handles the kernel has open on each inode. -/
structure Session (σ : Type) where
  mount : Mounted σ
  handles : ℕ → ℕ := fun _ => 0

/-- The open handles after a request. -/
def handled (handles : ℕ → ℕ) : Mount.Request → Reply → ℕ → ℕ
  | .open_ ino, _ => Function.update handles ino (handles ino + 1)
  | .create .., .created a => Function.update handles a.ino (handles a.ino + 1)
  | .release ino _, _ => Function.update handles ino (handles ino - 1)
  | _, _ => handles

section
variable {σ : Type} (agent : XetAgent σ)

def sessionNext (s : Session σ) (r : Mount.Request) : Option (Session σ) :=
  (serve agent s.mount r).map (fun p => ⟨p.1, handled s.handles r p.2⟩)

/-- The requests that the kernel can issue: files are read, written and flushed
through a handle, and truncated with or without one. -/
def Issued (s : Session σ) : Mount.Request → Prop
  | .lookup .. | .getattr _ | .setattr _ none | .readdir .. => True
  | .open_ ino | .setattr ino (some _) => IsFile s.mount.fs ino
  | .create parent name => (s.mount.fs.nodes.lookup parent).map Node.kind = some .dir ∧
      s.mount.fs.childNamed parent name = none ∧ ProperName name
  | .read ino _ offset _ | .write ino _ offset _ => 0 < s.handles ino ∧ 0 ≤ offset
  | .fsync ino _ | .flush ino _ | .release ino _ => 0 < s.handles ino

instance (s : Session σ) : DecidablePred (Issued s)
  | .lookup .. | .getattr _ | .setattr _ none | .readdir .. => inferInstanceAs (Decidable True)
  | .open_ ino | .setattr ino (some _) => inferInstanceAs (Decidable (IsFile s.mount.fs ino))
  | .create .. => inferInstanceAs (Decidable (_ ∧ _ ∧ _))
  | .read .. | .write .. => inferInstanceAs (Decidable (_ ∧ _))
  | .fsync .. | .flush .. | .release .. => inferInstanceAs (Decidable (_ < _))

/-- A truncation finds the file open. -/
def Held (s : Session σ) : Mount.Request → Prop
  | .setattr ino (some _) => 0 < s.handles ino
  | _ => True

instance (s : Session σ) : DecidablePred (Held s)
  | .setattr _ (some _) => inferInstanceAs (Decidable (_ < _))
  | .setattr _ none | .lookup .. | .getattr _ | .open_ _ | .create .. | .read .. | .write ..
  | .fsync .. | .flush .. | .release .. | .readdir .. => inferInstanceAs (Decidable True)

/-- Nothing of a file is unsaved: what the mount shows of it is what the catalog
entry of its path denotes. -/
structure Saved (m : Mounted σ) (ino : ℕ) : Prop where
  clean : m.fs.isDirty ino = false
  shown : ∃ b, Cataloged agent m ino b ∧ ∀ fh offset size,
    (serve agent m (.read ino fh offset size)).map Prod.snd =
      some (.data (Cells.window b offset.toNat size))

/-- Every file without a handle is saved. -/
def NothingUnsaved (s : Session σ) : Prop :=
  ∀ ino, IsFile s.mount.fs ino → s.handles ino = 0 → Saved agent s.mount ino

/-- The mount holds the files of the reference, only an open one has unsaved bytes,
and the bytes of the others are in the catalog. -/
structure Tracked (s : Session σ) (files : Files) : Prop where
  related : Related agent s.mount files
  apart : Apart s.mount.fs.nodes s.mount.fs.next
  opened : ∀ ino, 0 < s.handles ino → IsFile s.mount.fs ino
  held : ∀ ino, s.mount.fs.isDirty ino = true → 0 < s.handles ino
  cataloged : ∀ ino b, files ino = some b → s.mount.fs.isDirty ino = false →
    Cataloged agent s.mount ino b

end

section
variable {σ : Type} {agent : XetAgent σ} {s : Session σ} {files : Files} {ino : ℕ} {b : Bytes}

theorem Tracked.nothingUnsaved (ht : Tracked agent s files) : NothingUnsaved agent s := by
  intro ino hfile hclosed
  have hclean : s.mount.fs.isDirty ino = false := by
    rw [Bool.eq_false_iff]
    intro hd
    have := ht.held ino hd
    omega
  obtain ⟨b, hb⟩ := (ht.related.inodes ino).mp hfile
  refine ⟨hclean, b, ht.cataloged ino b hb hclean, ?_⟩
  intro fh offset size
  obtain ⟨fs', hread, _⟩ := read_refines ht.related hb offset size
  simp only [serve, hread, Option.map_some]

theorem Tracked.handles (ht : Tracked agent s files) {handles : ℕ → ℕ}
    (hmore : ∀ i, s.handles i ≤ handles i) (hfiles : ∀ i, 0 < handles i → IsFile s.mount.fs i) :
    Tracked agent ⟨s.mount, handles⟩ files :=
  ⟨ht.related, ht.apart, hfiles, fun i hd => Nat.lt_of_lt_of_le (ht.held i hd) (hmore i),
    ht.cataloged⟩

theorem Tracked.recached (ht : Tracked agent s files) {cache : Table ℕ Bytes}
    (hr : Related agent { s.mount with fs := { s.mount.fs with cache := cache } } files) :
    Tracked agent { s with
      mount := { s.mount with fs := { s.mount.fs with cache := cache } } } files :=
  ⟨hr, ht.apart, ht.opened, ht.held, ht.cataloged⟩

theorem Tracked.stages (ht : Tracked agent s files) {fs' : Xetfs}
    (hst : Xetfs.Stages s.mount.fs fs' ino b) (hshape : SameShape s.mount.fs.nodes fs'.nodes)
    (hopen : 0 < s.handles ino)
    (hr : Related agent { s.mount with fs := fs' } (Function.update files ino (some b))) :
    Tracked agent { s with mount := { s.mount with fs := fs' } }
      (Function.update files ino (some b)) := by
  refine ⟨hr, ?_, ?_, ?_, ?_⟩
  · have ha := ht.apart.sameShape hshape
    rwa [← hst.next] at ha
  · exact fun i hi => (IsFile.congr hst.outline).mpr (ht.opened i hi)
  · intro i hd
    change fs'.isDirty i = true at hd
    rw [isDirty_staged hst.files, Bool.or_eq_true] at hd
    rcases hd with hd | hi
    · exact ht.held i hd
    · rw [beq_iff_eq.mp hi]
      exact hopen
  · intro i c hc hd
    change fs'.isDirty i = false at hd
    rw [isDirty_staged hst.files, Bool.or_eq_false_iff, beq_eq_false_iff_ne] at hd
    rw [Function.update_of_ne hd.2] at hc
    exact (ht.cataloged i c hc hd.1).congr (hst.outline.fullPath i) hst.volume rfl

theorem Tracked.creates (ht : Tracked agent s files) {fs' : Xetfs} {parent : ℕ} {name : String}
    {p : Node} (hp : s.mount.fs.nodes.lookup parent = some p) (hdir : p.kind = .dir)
    (hname : ProperName name) (hnew : s.mount.fs.childNamed parent name = none)
    (hc : Xetfs.Creates s.mount.fs fs' parent name)
    (hr : Related agent { s.mount with fs := fs' }
      (Function.update files s.mount.fs.next (some []))) :
    Tracked agent ⟨{ s.mount with fs := fs' },
      Function.update s.handles s.mount.fs.next (s.handles s.mount.fs.next + 1)⟩
      (Function.update files s.mount.fs.next (some [])) := by
  refine ⟨hr, ?_, ?_, ?_, ?_⟩
  · have hchild : ∀ c ∈ p.children, ∀ m, s.mount.fs.nodes.lookup c = some m → m.name ≠ name := by
      intro c hm m hl he
      simp only [Xetfs.childNamed, hp, Option.map_some, Option.getD_some,
        List.find?_eq_none] at hnew
      exact hnew c hm (by simp [hl, he])
    have ha := ht.apart.addFile hp hdir hname hchild hc.added
    rwa [← hc.next] at ha
  · intro i hi
    change 0 < Function.update s.handles _ _ i at hi
    rw [Creates.isFile hc]
    by_cases he : i = s.mount.fs.next
    · exact .inl he
    · rw [Function.update_of_ne he] at hi
      exact .inr (ht.opened i hi)
  · intro i hd
    change fs'.isDirty i = true at hd
    change 0 < Function.update s.handles _ _ i
    by_cases he : i = s.mount.fs.next
    · rw [he, Function.update_self]
      omega
    · rw [isDirty_staged hc.files, Bool.or_eq_true, beq_iff_eq, or_iff_left he] at hd
      rw [Function.update_of_ne he]
      exact ht.held i hd
  · intro i c hi hd
    change fs'.isDirty i = false at hd
    rw [isDirty_staged hc.files, Bool.or_eq_false_iff, beq_eq_false_iff_ne] at hd
    rw [Function.update_of_ne hd.2] at hi
    exact (ht.cataloged i c hi hd.1).congr
      (congrArg (Option.map _) (ht.apart.tree.closed.pathParts hc.added _ hd.2)) hc.volume rfl

theorem Tracked.flushes {fileHash : Bytes → String} (faithful : agent.Faithful fileHash)
    (ht : Tracked agent s files) {fs' : Xetfs} {server' : σ}
    (h : s.mount.fs.flushIfDirty agent s.mount.server ino = some (fs', server')) :
    Tracked agent { s with mount := ⟨fs', server'⟩ } files := by
  obtain ⟨_, hnext, hshape⟩ := Xetfs.flushIfDirty_frame h
  obtain ⟨⟨fs, server⟩, hflush, hr, _⟩ := flush_refines faithful ht.related ino
  obtain ⟨rfl, rfl⟩ := Prod.mk.inj (Option.some.inj (h.symm.trans hflush))
  refine ⟨hr, ?_, ?_, ?_, ?_⟩
  · have ha := ht.apart.sameShape hshape
    rwa [← hnext] at ha
  · exact fun i hi => (IsFile.congr hshape.outline).mpr (ht.opened i hi)
  · intro i hd
    change fs'.isDirty i = true at hd
    rw [isDirty_flushed h, Bool.and_eq_true] at hd
    exact ht.held i hd.1
  · intro i c hc hd
    change fs'.isDirty i = false at hd
    by_cases hdirty : s.mount.fs.isDirty ino = true
    · obtain ⟨st, hst, hd'⟩ := (Option.any_eq_true _ _).mp hdirty
      obtain ⟨path, hpath⟩ := ht.related.tree.fullPath ino
      obtain ⟨server'', hingest⟩ := faithful.ingests s.mount.fs.volume path st.buf s.mount.server
      obtain ⟨fs'', hflush', hf⟩ := Xetfs.flushIfDirty_ok hst hd' hpath hingest
      obtain ⟨rfl, rfl⟩ := Prod.mk.inj (Option.some.inj (h.symm.trans hflush'))
      by_cases hi : i = ino
      · subst hi
        have hb := ht.related.staged i st hst
        rw [hc, Option.some.injEq] at hb
        rw [hb]
        exact cataloged_flushed faithful.toRecords hingest hf hpath
      · rw [isDirty_flushed h, Bool.and_eq_false_iff, bne_eq_false_iff_eq, or_iff_left hi] at hd
        refine (ht.cataloged i c hc hd).others faithful.toRecords hingest hf ?_
        intro he
        obtain ⟨n, hn, hk⟩ := (ht.related.inodes i).mpr ⟨c, hc⟩
        obtain ⟨m, hm, hkm⟩ := ht.opened ino (ht.held ino hdirty)
        exact hi (ht.apart.fullPath hn hm (hk.trans hkm.symm) (he.trans hpath.symm))
    · have hclean : ∀ st, s.mount.fs.openFiles.lookup ino = some st → st.dirty = false := by
        intro st hst
        rw [Bool.eq_false_iff]
        intro hd'
        exact hdirty ((Option.any_eq_true _ _).mpr ⟨st, hst, hd'⟩)
      rw [Xetfs.flushIfDirty_clean hclean] at h
      obtain ⟨rfl, rfl⟩ := Prod.mk.inj (Option.some.inj h)
      exact ht.cataloged i c hc hd

theorem Tracked.released (ht : Tracked agent s files) (hd : s.mount.fs.isDirty ino = false) :
    Tracked agent ⟨{ s.mount with fs :=
      { s.mount.fs with openFiles := s.mount.fs.openFiles.erase ino } },
      Function.update s.handles ino (s.handles ino - 1)⟩ files := by
  refine ⟨ht.related.released ?_, ht.apart, ?_, ?_, ?_⟩
  · intro st hst
    rw [Bool.eq_false_iff]
    intro hd'
    rw [show s.mount.fs.isDirty ino = true from (Option.any_eq_true _ _).mpr ⟨st, hst, hd'⟩] at hd
    cases hd
  · intro i hi
    change 0 < Function.update s.handles ino _ i at hi
    by_cases he : i = ino
    · rw [he, Function.update_self] at hi
      exact he ▸ ht.opened ino (by omega)
    · rw [Function.update_of_ne he] at hi
      exact ht.opened i hi
  · intro i hi
    change Xetfs.isDirty { s.mount.fs with openFiles := s.mount.fs.openFiles.erase ino } i = true at hi
    rw [isDirty_erased, Bool.and_eq_true, bne_iff_ne] at hi
    change 0 < Function.update s.handles ino _ i
    rw [Function.update_of_ne hi.2]
    exact ht.held i hi.1
  · intro i c hc hi
    change Xetfs.isDirty { s.mount.fs with openFiles := s.mount.fs.openFiles.erase ino } i = false at hi
    apply ht.cataloged i c hc
    by_cases he : i = ino
    · rw [he, hd]
    · rwa [isDirty_erased, Bool.and_eq_false_iff, bne_eq_false_iff_eq, or_iff_left he] at hi

/-- A request that the kernel can issue, other than a truncation of a closed file. -/
theorem Tracked.next {fileHash : Bytes → String} (faithful : agent.Faithful fileHash)
    (ht : Tracked agent s files) {r : Mount.Request} (hi : Issued s r) (hh : Held s r)
    {s' : Session σ} (h : sessionNext agent s r = some s') :
    ∃ files', Tracked agent s' files' := by
  obtain ⟨⟨m', reply⟩, hs, rfl⟩ := Option.map_eq_some_iff.mp h
  cases r with
  | lookup parent name =>
    cases hs
    exact ⟨files, ht⟩
  | getattr ino =>
    cases hs
    exact ⟨files, ht⟩
  | readdir ino fh offset room =>
    obtain ⟨reply', _, he⟩ := Option.map_eq_some_iff.mp hs
    cases he
    exact ⟨files, ht⟩
  | open_ ino =>
    cases hs
    refine ⟨files, ht.handles ?_ ?_⟩
    · intro i
      simp only [handled, Function.update_apply]
      split
      · rename_i he
        rw [he]
        omega
      · exact Nat.le_refl _
    · intro i hpos
      simp only [handled, Function.update_apply] at hpos
      split at hpos
      · rename_i he
        rw [he]
        exact hi
      · exact ht.opened i hpos
  | create parent name =>
    obtain ⟨hdir, hnew, hname⟩ := hi
    obtain ⟨p, hp, hk⟩ := Option.map_eq_some_iff.mp hdir
    obtain ⟨⟨fs', reply'⟩, hc, he⟩ := Option.map_eq_some_iff.mp hs
    cases he
    obtain ⟨a, rfl, ha, hcr⟩ := Xetfs.create_absent hnew hc
    have hr := ht.related.creates (Table.mem_of_lookup hp) hcr
    have hnext := ht.creates hp hk hname hnew hcr hr
    rw [← ha] at hnext
    exact ⟨_, hnext⟩
  | read ino fh offset size =>
    cases hs
    obtain ⟨b, hb⟩ := (ht.related.inodes ino).mp (ht.opened ino hi.1)
    obtain ⟨fs', hread, hr⟩ := read_refines ht.related hb offset size
    obtain ⟨cache, hcache⟩ : ∃ cache, (s.mount.fs.read agent s.mount.server ino offset size).1 =
      { s.mount.fs with cache := cache } := Xetfs.read_frame offset size
    rw [hread] at hcache
    simp only at hcache
    subst hcache
    rw [hread]
    exact ⟨files, ht.recached hr⟩
  | write ino fh offset data =>
    cases hs
    obtain ⟨b, hb⟩ := (ht.related.inodes ino).mp (ht.opened ino hi.1)
    obtain ⟨fs', hwrite, hr⟩ := write_refines ht.related hb offset data
    obtain ⟨hseed, _⟩ := ensureStaging_seeded ht.related hb
    have hst : Xetfs.Stages s.mount.fs (s.mount.fs.write agent s.mount.server ino offset data).1
      ino _ := Xetfs.write_stages offset data
    have hshape : SameShape s.mount.fs.nodes
      (s.mount.fs.write agent s.mount.server ino offset data).1.nodes := Xetfs.resized_shape
    rw [hseed, written_overlay] at hst
    rw [hwrite] at hst hshape ⊢
    exact ⟨_, ht.stages hst hshape hi.1 hr⟩
  | setattr ino size =>
    cases hs
    cases size with
    | none => exact ⟨files, ht⟩
    | some size =>
      obtain ⟨b, hb⟩ := (ht.related.inodes ino).mp hi
      obtain ⟨fs', a, hset, hr⟩ := setattr_refines ht.related hb size
      obtain ⟨hseed, _⟩ := ensureStaging_seeded ht.related hb
      have hst : Xetfs.Stages s.mount.fs
        (s.mount.fs.setattr agent s.mount.server ino (some size)).1 ino _ := Xetfs.setattr_stages size
      have hshape : SameShape s.mount.fs.nodes
        (s.mount.fs.setattr agent s.mount.server ino (some size)).1.nodes := Xetfs.resized_shape
      rw [hseed, resize_truncate] at hst
      rw [hset] at hst hshape ⊢
      exact ⟨_, ht.stages hst hshape hh hr⟩
  | fsync ino fh | flush ino fh =>
    obtain ⟨⟨fs', server'⟩, hf, he⟩ := Option.map_eq_some_iff.mp hs
    cases he
    exact ⟨files, ht.flushes faithful hf⟩
  | release ino fh =>
    obtain ⟨⟨fs', server'⟩, hf, he⟩ := Option.map_eq_some_iff.mp hs
    cases he
    refine ⟨files, (ht.flushes faithful hf).released ?_⟩
    change fs'.isDirty ino = false
    rw [isDirty_flushed hf]
    simp

/-- Listed paths with one leading slash name files of their own. -/
theorem rooted_nodup {entries : List EntryOut} (once : (entries.map EntryOut.path).Nodup)
    (rooted : ∀ e ∈ entries, trimmed e.path ≠ [] → Rooted e.path) : (filePaths entries).Nodup := by
  refine List.Nodup.map_on ?_ ((List.Nodup.of_map _ once).filter _)
  intro e he d hd hsame
  obtain ⟨he, hte⟩ := List.mem_filter.mp he
  obtain ⟨hd, htd⟩ := List.mem_filter.mp hd
  have hpath : mountPath e.path = mountPath d.path := by
    rw [mountPath, mountPath, ← intercalate_components, ← intercalate_components, hsame]
  rw [(rooted_iff _).mp (rooted e he (by simpa using hte)),
    (rooted_iff _).mp (rooted d hd (by simpa using htd))] at hpath
  exact List.inj_on_of_nodup_map once he hd hpath

theorem tracked_connect {volume : String} {entries : List EntryOut} {uid gid : ℕ} {server : σ}
    {fs : Xetfs} (hc : connect volume entries uid gid = some fs)
    (listed : ∀ e ∈ entries, agent.catalog (volume, e.path) server = some e.fileHash)
    (once : (entries.map EntryOut.path).Nodup)
    (readable : ∀ e ∈ entries, ∃ b, agent.reconstruct e.fileHash server = .ok b)
    (rooted : ∀ e ∈ entries, trimmed e.path ≠ [] → Rooted e.path) :
    Tracked agent ⟨⟨fs, server⟩, fun _ => 0⟩ (contents agent server fs) := by
  obtain ⟨fs', hc', hv, hopen, _⟩ := connect_ok volume entries uid gid
  obtain rfl := Option.some.inj (hc.symm.trans hc')
  obtain ⟨fs', hc', _, _, _, _, hentries, _⟩ := connect_built volume entries uid gid
  obtain rfl := Option.some.inj (hc.symm.trans hc')
  obtain ⟨hapart, hfiles⟩ := connect_apart hc (rooted_nodup once rooted)
  have hr := related_connect readable hc
  refine ⟨hr, hapart, fun i hi => absurd hi (Nat.lt_irrefl 0), ?_, ?_⟩
  · intro i hd
    simp [Xetfs.isDirty, hopen] at hd
  · intro i b hb hd
    obtain ⟨n, hn, hk⟩ := (hr.inodes i).mpr ⟨b, hb⟩
    obtain ⟨e, he, hf⟩ := hfiles i (by rw [FileIn, hn, Option.map_some, hk])
    have hmem : e ∈ entries.filter (fun e => trimmed e.path ≠ []) :=
      hentries ▸ List.mem_map_of_mem he
    obtain ⟨hem, het⟩ := List.mem_filter.mp hmem
    have hpath : fs.fullPath i = some e.path := by
      rw [partsOf_fullPath hf.parts, intercalate_components, ← mountPath,
        (rooted_iff _).mp (rooted e hem (by simpa using het))]
    obtain ⟨fh, hfh, hrec⟩ := hr.durable i b hb (fun st hst => by simp [hopen] at hst)
    obtain ⟨m, hm, _, hash, _⟩ := hf.node
    have hsame : fs.hashOf i = some e.fileHash := by rw [Xetfs.hashOf, hm, Option.bind_some, hash]
    obtain rfl := Option.some.inj (hsame.symm.trans hfh)
    exact ⟨e.path, e.fileHash, hpath, by rw [hv]; exact listed e hem, hrec⟩

theorem truncated_unsaved {size : ℕ} {s' : Session σ} (hfile : IsFile s.mount.fs ino)
    (hclosed : s.handles ino = 0) (h : sessionNext agent s (.setattr ino (some size)) = some s') :
    ¬ NothingUnsaved agent s' := by
  intro hs
  obtain ⟨⟨m', reply⟩, hserve, rfl⟩ := Option.map_eq_some_iff.mp h
  have hdirty := serve_pends hserve ino
  rw [pends, beq_self_eq_true, Bool.or_true] at hdirty
  have hfile' : IsFile m'.fs ino := by
    obtain ⟨_, ⟨_, hshape⟩ | ⟨_, _, hr, _⟩⟩ := serve_shape hserve
    · exact (IsFile.congr hshape.outline).mpr hfile
    · cases hr
  have hclean := (hs ino hfile' hclosed).clean
  rw [hdirty] at hclean
  cases hclean

/-- Over every listing of paths with one leading slash and every run in which only
open files are truncated, no closed file has anything unsaved, and the next request
keeps it so exactly when it truncates no closed file. -/
theorem closed_saved {fileHash : Bytes → String} (faithful : agent.Faithful fileHash)
    (volume : String) (entries : List EntryOut) (uid gid : ℕ) (server : σ)
    (listed : ∀ e ∈ entries, agent.catalog (volume, e.path) server = some e.fileHash)
    (once : (entries.map EntryOut.path).Nodup)
    (readable : ∀ e ∈ entries, ∃ b, agent.reconstruct e.fileHash server = .ok b)
    (rooted : ∀ e ∈ entries, trimmed e.path ≠ [] → Rooted e.path) :
    ∃ fs, connect volume entries uid gid = some fs ∧ ∀ requests s,
      Run.Guarded (sessionNext agent) (fun s r => Issued s r ∧ Held s r)
        ⟨⟨fs, server⟩, fun _ => 0⟩ requests →
      Run.exec (sessionNext agent) ⟨⟨fs, server⟩, fun _ => 0⟩ requests = some s →
      NothingUnsaved agent s ∧ ∀ r s', Issued s r → sessionNext agent s r = some s' →
        (NothingUnsaved agent s' ↔ Held s r) := by
  obtain ⟨fs, hc, _⟩ := connect_ok volume entries uid gid
  refine ⟨fs, hc, ?_⟩
  intro requests s hg hrun
  have hstep : ∀ (s : Session σ) r s', (∃ files, Tracked agent s files) →
      Issued s r ∧ Held s r → sessionNext agent s r = some s' → ∃ files', Tracked agent s' files' := by
    rintro s r s' ⟨files, ht⟩ ⟨hi, hh⟩ h
    exact ht.next faithful hi hh h
  obtain ⟨files, ht⟩ := Run.exec_invariant hstep
    ⟨_, tracked_connect hc listed once readable rooted⟩ hg hrun
  refine ⟨ht.nothingUnsaved, ?_⟩
  intro r s' hi h
  constructor
  · intro hs
    cases r with
    | setattr ino size =>
      cases size with
      | none => trivial
      | some size =>
        by_contra hclosed
        exact truncated_unsaved hi (Nat.eq_zero_of_not_pos hclosed) h hs
    | _ => trivial
  · intro hh
    obtain ⟨files', ht'⟩ := ht.next faithful hi hh h
    exact ht'.nothingUnsaved

end

section

/-- A shelf with one file, and its listing. -/
def oneFile : Shelf :=
  { catalog := (∅ : Table (String × String) String).insert ("v", "/a") (Shelf.fileHash [1, 2]) }

def oneListed : List EntryOut := [⟨"/a", Shelf.fileHash [1, 2], 2⟩]

abbrev shelfAgent : XetAgent Shelf := Shelf.agent (fun _ => true)

theorem oneListed_listed : (∀ e ∈ oneListed,
      shelfAgent.catalog ("v", e.path) oneFile = some e.fileHash) ∧
    (oneListed.map EntryOut.path).Nodup ∧
    ∀ e ∈ oneListed, ∃ b, shelfAgent.reconstruct e.fileHash oneFile = .ok b := by
  refine ⟨?_, by decide, ?_⟩
  · intro e he
    obtain rfl := List.mem_singleton.mp he
    change oneFile.catalog.lookup ("v", "/a") = _
    rw [oneFile, AList.lookup_insert]
  · intro e he
    obtain rfl := List.mem_singleton.mp he
    exact ⟨_, Shelf.reconstruct_fileHash [1, 2] oneFile⟩

/-- The states of a session over that listing, when the kernel can issue it. -/
def played (requests : List Mount.Request) (test : Session Shelf → Mount.Request → Bool) :
    Option (Xetfs × Session Shelf) := do
  let fs ← connect "v" oneListed 0 0
  let s ← Run.exec (sessionNext shelfAgent) ⟨⟨fs, oneFile⟩, fun _ => 0⟩ requests
  if Run.check (sessionNext shelfAgent) test ⟨⟨fs, oneFile⟩, fun _ => 0⟩ requests then
    some (fs, s)
  else none

theorem played_runs {requests : List Mount.Request} {test : Session Shelf → Mount.Request → Bool}
    {C : Session Shelf → Mount.Request → Prop} (htest : ∀ s r, test s r = true → C s r)
    {fs : Xetfs} {s : Session Shelf} (h : played requests test = some (fs, s)) :
    connect "v" oneListed 0 0 = some fs ∧
      Run.Guarded (sessionNext shelfAgent) C ⟨⟨fs, oneFile⟩, fun _ => 0⟩ requests ∧
      Run.exec (sessionNext shelfAgent) ⟨⟨fs, oneFile⟩, fun _ => 0⟩ requests = some s := by
  simp only [played, Option.bind_eq_bind, Option.bind_eq_some_iff] at h
  obtain ⟨fs', hc, s', hrun, h⟩ := h
  split at h
  · rename_i hcheck
    obtain ⟨rfl, rfl⟩ := Prod.mk.inj (Option.some.inj h)
    exact ⟨hc, Run.guarded_of_test htest hcheck, hrun⟩
  · cases h

/-- A listed file through two handles, and a new one. -/
def edits : List Mount.Request :=
  [.open_ 2, .setattr 2 (some 1), .write 2 0 3 [9], .create root "b", .write 3 0 0 [7], .open_ 2,
    .release 2 0, .read 2 0 0 10, .write 2 0 0 [5], .release 2 0, .fsync 3 0, .release 3 0]

theorem closed_saved_edits : ∃ fs s, connect "v" oneListed 0 0 = some fs ∧
    Run.exec (sessionNext shelfAgent) ⟨⟨fs, oneFile⟩, fun _ => 0⟩ edits = some s ∧
    Saved shelfAgent s.mount 2 ∧ Saved shelfAgent s.mount 3 := by
  have hrun : (played edits (fun s r => decide (Issued s r ∧ Held s r))).map (fun p =>
      (decide (IsFile p.2.mount.fs 2 ∧ IsFile p.2.mount.fs 3), p.2.handles 2, p.2.handles 3)) =
      some (true, 0, 0) := by decide
  obtain ⟨⟨fs, s⟩, hplay, hend⟩ := Option.map_eq_some_iff.mp hrun
  obtain ⟨hfiles, h2, h3⟩ := Prod.mk.inj hend |>.imp id Prod.mk.inj
  obtain ⟨hf2, hf3⟩ := of_decide_eq_true hfiles
  obtain ⟨hc, hg, hexec⟩ := played_runs (fun _ _ => of_decide_eq_true) hplay
  obtain ⟨hlisted, honce, hreadable⟩ := oneListed_listed
  obtain ⟨fs', hc', h⟩ := closed_saved Shelf.faithful "v" oneListed 0 0 oneFile hlisted honce
    hreadable (by
      intro e he _
      obtain rfl := List.mem_singleton.mp he
      exact ⟨['a'], rfl, by decide⟩)
  obtain rfl := Option.some.inj (hc.symm.trans hc')
  obtain ⟨hs, _⟩ := h edits s hg hexec
  exact ⟨fs, s, hc, hexec, hs 2 hf2 h2, hs 3 hf3 h3⟩

/-- A file that is truncated by its path stays unsaved: the mount shows one byte of
it, and the catalog has two. -/
theorem truncation_unsaved : (∀ e ∈ oneListed,
      shelfAgent.catalog ("v", e.path) oneFile = some e.fileHash) ∧
    (oneListed.map EntryOut.path).Nodup ∧
    (∀ e ∈ oneListed, ∃ b, shelfAgent.reconstruct e.fileHash oneFile = .ok b) ∧
    ∃ fs s, connect "v" oneListed 0 0 = some fs ∧
      Run.Guarded (sessionNext shelfAgent) Issued ⟨⟨fs, oneFile⟩, fun _ => 0⟩
        [.setattr 2 (some 1)] ∧
      Run.exec (sessionNext shelfAgent) ⟨⟨fs, oneFile⟩, fun _ => 0⟩ [.setattr 2 (some 1)] =
        some s ∧
      IsFile s.mount.fs 2 ∧ s.handles 2 = 0 ∧ ¬ Saved shelfAgent s.mount 2 ∧
      (serve shelfAgent s.mount (.read 2 0 0 10)).map Prod.snd = some (.data [1]) ∧
      s.mount.server.catalog.lookup ("v", "/a") = some (Shelf.fileHash [1, 2]) := by
  have hrun : (played [.setattr 2 (some 1)] (fun s r => decide (Issued s r))).map (fun p =>
      ((decide (IsFile p.2.mount.fs 2), p.2.handles 2, p.2.mount.fs.isDirty 2),
        (serve shelfAgent p.2.mount (.read 2 0 0 10)).map Prod.snd,
        p.2.mount.server.catalog.lookup ("v", "/a"))) =
      some ((true, 0, true), some (.data [1]), some (Shelf.fileHash [1, 2])) := by decide
  obtain ⟨⟨fs, s⟩, hplay, hend⟩ := Option.map_eq_some_iff.mp hrun
  simp only [Prod.mk.injEq, decide_eq_true_eq] at hend
  obtain ⟨⟨hfile, hclosed, hdirty⟩, hread, hcat⟩ := hend
  obtain ⟨hc, hg, hexec⟩ := played_runs (fun _ _ => of_decide_eq_true) hplay
  obtain ⟨hlisted, honce, hreadable⟩ := oneListed_listed
  refine ⟨hlisted, honce, hreadable, fs, s, hc, hg, hexec, hfile, hclosed, ?_, hread, hcat⟩
  intro hs
  rw [hs.clean] at hdirty
  cases hdirty

end

end Dejaveph.Proofs.ClosedSaved

import Dejaveph.Mount.Folder
import Dejaveph.Proofs.SizeReadable

namespace Dejaveph.Proofs.FolderView
open Lib Mount MountRefines SizeReadable

/-- A node without its content. -/
def entryOf (n : Node) : Entry := ⟨n.name, n.kind, n.parent, n.children⟩

/-- The folder that a mount is, over these files. -/
def folderOf (fs : Xetfs) (files : Files) : Folder where
  volume := fs.volume
  uid := fs.uid
  gid := fs.gid
  entries ino := (fs.nodes.lookup ino).map entryOf
  names ino := (partsOf fs.nodes ino).getD []
  files
  pending := fs.isDirty

/-- The size that is reported of an inode is the number of its bytes. -/
def Measured (fs : Xetfs) (files : Files) : Prop :=
  ∀ ino size, reported fs ino = some size → size = ((files ino).map List.length).getD 0

variable {fs fs' : Xetfs} {files : Files} {ino : ℕ} {b : Bytes}

section

theorem folder_entry {n : Node} (hn : fs.nodes.lookup ino = some n) :
    (folderOf fs files).entries ino = some (entryOf n) :=
  congrArg (Option.map entryOf) hn

theorem entry_node {e : Entry} (he : (folderOf fs files).entries ino = some e) :
    ∃ n, fs.nodes.lookup ino = some n ∧ entryOf n = e :=
  Option.map_eq_some_iff.mp he

theorem folder_names {ps : List String} (h : partsOf fs.nodes ino = some ps) :
    (folderOf fs files).names ino = ps :=
  congrArg (Option.getD · []) h

theorem folder_attr (hm : Measured fs files) : (folderOf fs files).attr ino = fs.attr ino := by
  unfold Folder.attr Xetfs.attr
  cases hn : fs.nodes.lookup ino with
  | none => rw [show (folderOf fs files).entries ino = none from congrArg (Option.map _) hn]; rfl
  | some n =>
    have hsize : n.size = (folderOf fs files).size ino :=
      hm ino n.size (by rw [reported, hn, Option.map_some])
    rw [folder_entry hn, Option.map_some, Option.map_some, hsize]
    rfl

theorem folder_child (parent : ℕ) (name : String) :
    (folderOf fs files).child parent name = fs.childNamed parent name := by
  simp only [Folder.child, Xetfs.childNamed, folderOf, Option.map_map, Option.any_map]
  rfl

theorem filterMap_of_mapM {α β : Type} {f : α → Option β} {xs : List α} {ys : List β}
    (h : xs.mapM f = some ys) : xs.filterMap f = ys := by
  induction xs generalizing ys with
  | nil =>
    cases h
    rfl
  | cons x xs ih =>
    rw [List.mapM_cons] at h
    obtain ⟨y, hy, h⟩ := Option.bind_eq_some_iff.mp h
    obtain ⟨zs, hzs, h⟩ := Option.bind_eq_some_iff.mp h
    cases h
    rw [List.filterMap_cons, hy, ih hzs]

theorem folder_page (hl : Linked fs.nodes) (offset : ℤ) (room : ℕ) :
    fs.readdir ino offset room = some ((folderOf fs files).page ino offset room) := by
  unfold Xetfs.readdir Folder.page
  cases hn : fs.nodes.lookup ino with
  | none => rw [show (folderOf fs files).entries ino = none from congrArg (Option.map _) hn]
  | some n =>
    rw [folder_entry hn]
    by_cases hk : n.kind = .dir
    · obtain ⟨cs, hcs, _⟩ := hl.children hn
      have hrows : n.children.filterMap (fun c => ((folderOf fs files).entries c).map
          (fun d => (c, d.kind, d.name))) = cs := by
        simp only [folderOf, Option.map_map]
        exact filterMap_of_mapM hcs
      have hkind : (entryOf n).kind = .dir := hk
      simp only [hk, hkind, ne_eq, not_true_eq_false, ↓reduceIte, hcs, Option.map_some,
        Folder.listing]
      rw [show (entryOf n).children = n.children from rfl, hrows]
      rfl
    · have hkind : (entryOf n).kind ≠ .dir := hk
      simp only [hk, hkind, ne_eq, not_false_eq_true, ↓reduceIte]

end

section
variable {σ : Type} {agent : XetAgent σ} {m m' : Mounted σ} {r : Request} {reply : Reply}

theorem modifyNode_owner (f : Node → Node) :
    (fs.modifyNode ino f).uid = fs.uid ∧ (fs.modifyNode ino f).gid = fs.gid := by
  unfold Xetfs.modifyNode
  split <;> exact ⟨rfl, rfl⟩

theorem ensureStaging_owner {server : σ} :
    (fs.ensureStaging agent server ino).2.uid = fs.uid ∧
      (fs.ensureStaging agent server ino).2.gid = fs.gid := by
  obtain ⟨_, _, hfs, _⟩ : ∃ files cache, (fs.ensureStaging agent server ino).2 =
      { fs with openFiles := files, cache := cache } ∧
        ∀ i, i ≠ ino → files.lookup i = fs.openFiles.lookup i := Xetfs.ensureStaging_frame
  rw [hfs]
  exact ⟨rfl, rfl⟩

theorem flushIfDirty_owner {server server' : σ}
    (h : fs.flushIfDirty agent server ino = some (fs', server')) :
    fs'.uid = fs.uid ∧ fs'.gid = fs.gid := by
  obtain ⟨rfl, _, _⟩ | ⟨st, path, result, _, _, _, _, rfl⟩ := Xetfs.flushIfDirty_cases h
  · exact ⟨rfl, rfl⟩
  · cases result with
    | ok fh => exact modifyNode_owner _
    | error e => exact ⟨rfl, rfl⟩

theorem attr_self {a : FileAttr} (h : fs.attr ino = some a) : fs.attr a.ino = some a := by
  obtain ⟨n, _, rfl⟩ := Option.map_eq_some_iff.mp h
  exact h

theorem create_reply {parent : ℕ} {name : String}
    (h : fs.create parent name = some (fs', reply)) : fs'.uid = fs.uid ∧ fs'.gid = fs.gid ∧
      ∀ a, reply = .created a → fs'.attr a.ino = some a := by
  unfold Xetfs.create at h
  cases hn : fs.childNamed parent name with
  | some i =>
    simp only [hn, Option.bind_eq_bind, Option.bind_some, Option.some.injEq, Prod.mk.injEq] at h
    obtain ⟨rfl, rfl⟩ := h
    refine ⟨rfl, rfl, fun a ha => ?_⟩
    split at ha
    · rename_i a' hattr
      cases ha
      exact attr_self hattr
    · cases ha
  | none =>
    simp only [hn, Option.bind_eq_bind, Option.bind_map] at h
    obtain ⟨nodes, _, he⟩ := Option.bind_eq_some_iff.mp h
    simp only [Function.comp_apply, Option.some.injEq, Prod.mk.injEq] at he
    obtain ⟨rfl, rfl⟩ := he
    refine ⟨rfl, rfl, fun a ha => ?_⟩
    split at ha
    · rename_i a' hattr
      cases ha
      exact attr_self hattr
    · cases ha

theorem serve_owner (h : serve agent m r = some (m', reply)) :
    m'.fs.uid = m.fs.uid ∧ m'.fs.gid = m.fs.gid := by
  cases r with
  | create parent name =>
    obtain ⟨⟨fs', reply'⟩, hc, he⟩ := Option.map_eq_some_iff.mp h
    cases he
    obtain ⟨huid, hgid, _⟩ := create_reply hc
    exact ⟨huid, hgid⟩
  | write i fh offset data =>
    cases h
    exact ⟨(modifyNode_owner _).1.trans ensureStaging_owner.1,
      (modifyNode_owner _).2.trans ensureStaging_owner.2⟩
  | setattr i size =>
    cases h
    cases size with
    | none => exact ⟨rfl, rfl⟩
    | some size =>
      exact ⟨(modifyNode_owner _).1.trans ensureStaging_owner.1,
        (modifyNode_owner _).2.trans ensureStaging_owner.2⟩
  | fsync i fh | flush i fh | release i fh =>
    obtain ⟨⟨fs', server'⟩, hf, he⟩ := Option.map_eq_some_iff.mp h
    cases he
    have howner := flushIfDirty_owner hf
    exact howner
  | read i fh offset size =>
    cases h
    obtain ⟨cache, hc⟩ : ∃ cache, (m.fs.read agent m.server i offset size).1 =
      { m.fs with cache := cache } := Xetfs.read_frame offset size
    rw [hc]
    exact ⟨rfl, rfl⟩
  | readdir i fh offset room =>
    obtain ⟨_, _, he⟩ := Option.map_eq_some_iff.mp h
    cases he
    exact ⟨rfl, rfl⟩
  | _ =>
    cases h
    exact ⟨rfl, rfl⟩

theorem shape_kept (h : serve agent m r = some (m', reply))
    (hr : ∀ parent name, r ≠ .create parent name) : SameShape m.fs.nodes m'.fs.nodes := by
  obtain ⟨_, ⟨_, hs⟩ | ⟨parent, name, he, _⟩⟩ := serve_shape h
  · exact hs
  · exact absurd he (hr parent name)

/-- A request that creates nothing changes files and pending changes at most. -/
theorem folder_serve (h : serve agent m r = some (m', reply)) (files files' : Files)
    (hs : SameShape m.fs.nodes m'.fs.nodes) :
    folderOf m'.fs files' = { folderOf m.fs files with
      files := files'
      pending := fun ino => pends ino (m.fs.isDirty ino) (r, reply) } := by
  obtain ⟨huid, hgid⟩ := serve_owner h
  have hentries : (folderOf m'.fs files').entries = (folderOf m.fs files).entries := by
    funext i
    have hi := congrArg (Option.map entryOf) (hs i)
    simp only [Option.map_map] at hi
    exact hi
  have hnames : (folderOf m'.fs files').names = (folderOf m.fs files).names := by
    funext i
    exact congrArg (Option.getD · []) (hs.outline.pathParts _ _)
  have hpending : m'.fs.isDirty = fun ino => pends ino (m.fs.isDirty ino) (r, reply) :=
    funext (serve_pends h)
  simp only [folderOf] at hentries hnames ⊢
  rw [hentries, hnames, hpending, (serve_shape h).1, huid, hgid]

theorem folder_put (h : serve agent m r = some (m', reply))
    (hr : ∀ parent name, r ≠ .create parent name)
    (hp : ∀ i p, pends i p (r, reply) = (p || i == ino)) :
    folderOf m'.fs (Function.update files ino (some b)) = (folderOf m.fs files).put ino b := by
  rw [folder_serve h files _ (shape_kept h hr)]
  simp only [Folder.put, Folder.mk.injEq, true_and]
  refine ⟨rfl, ?_⟩
  funext i
  rw [hp, Function.update_apply]
  by_cases hi : i = ino <;> simp [hi, folderOf]

theorem folder_settle (h : serve agent m r = some (m', reply))
    (hr : ∀ parent name, r ≠ .create parent name)
    (hp : ∀ i p, pends i p (r, reply) = (p && i != ino)) :
    folderOf m'.fs files = (folderOf m.fs files).settle ino := by
  rw [folder_serve h files _ (shape_kept h hr)]
  simp only [Folder.settle, Folder.mk.injEq, true_and]
  refine ⟨rfl, ?_⟩
  funext i
  rw [hp, Function.update_apply]
  by_cases hi : i = ino <;> simp [hi, folderOf]

/-- The creation of a name that is not there adds a file to its directory. -/
theorem folder_add (hi : Inodes m.fs.nodes m.fs.next) {parent : ℕ} {name : String} {p : Node}
    (hp : m.fs.nodes.lookup parent = some p) (hdir : p.kind = .dir)
    (hnew : m.fs.childNamed parent name = none)
    (h : serve agent m (.create parent name) = some (m', reply)) :
    folderOf m'.fs (Function.update files m.fs.next (some [])) =
      (folderOf m.fs files).add parent (entryOf p) name m.fs.next := by
  obtain ⟨huid, hgid⟩ := serve_owner h
  have hpends := serve_pends h
  obtain ⟨⟨fs', reply'⟩, hc, he⟩ := Option.map_eq_some_iff.mp h
  cases he
  obtain ⟨a, rfl, hino, hcr⟩ := Xetfs.create_absent hnew hc
  obtain ⟨nodes, hadd, hg⟩ := addNode_grows (n := ⟨name, .file, parent, [], none, 0⟩) hi.tree
    hi.linked hp hdir rfl
  obtain rfl := Option.some.inj (hcr.added.symm.trans hadd)
  have hne : parent ≠ m.fs.next := Nat.ne_of_lt (hi.tree.below parent (Table.mem_of_lookup hp))
  obtain ⟨q, hq, hlookup⟩ := addNode_spec hne hadd
  obtain rfl := Option.some.inj (hp.symm.trans hq)
  have hentries : (fun i => (fs'.nodes.lookup i).map entryOf) = Function.update
      (Function.update (fun i => (m.fs.nodes.lookup i).map entryOf) m.fs.next
        (some ⟨name, .file, parent, []⟩)) parent
      (some { entryOf p with children := p.children ++ [m.fs.next] }) := by
    funext i
    rw [hlookup, Function.update_apply, Function.update_apply]
    by_cases hip : i = parent
    · simp [hip, entryOf]
    · by_cases hin : i = m.fs.next
      · simp [hin, hne.symm, entryOf]
      · simp [hip, hin]
  have hnames : (fun i => (partsOf fs'.nodes i).getD []) = Function.update
      (fun i => (partsOf m.fs.nodes i).getD []) m.fs.next
      ((partsOf m.fs.nodes parent).getD [] ++ [name]) := by
    funext i
    rw [Function.update_apply]
    by_cases hin : i = m.fs.next
    · obtain ⟨ps, hps⟩ := hi.tree.partsOf_total parent
      rw [if_pos hin, hin, hg.parts]
      simp [hps]
    · rw [if_neg hin, (hg.old i hin).2]
  have hpending : fs'.isDirty = Function.update m.fs.isDirty m.fs.next true := by
    funext i
    rw [hpends, Function.update_apply]
    by_cases hin : i = m.fs.next <;> simp [pends, hino, hin]
  simp only [folderOf, Folder.add, Folder.mk.injEq]
  exact ⟨hcr.volume, huid, hgid, hentries, hnames, trivial, hpending⟩

end

section
variable {σ : Type} {agent : XetAgent σ} {server : σ} {a : FileAttr}

theorem setattr_attr {size : Option ℕ}
    (h : fs.setattr agent server ino size = (fs', .attr a)) : fs'.attr ino = some a := by
  simp only [Xetfs.setattr, Prod.mk.injEq] at h
  obtain ⟨rfl, hreply⟩ := h
  split at hreply
  · rename_i a' ha
    cases hreply
    exact ha
  · cases hreply

theorem Measured.same (hm : Measured fs files) (hr : ∀ i, reported fs' i = reported fs i) :
    Measured fs' files :=
  fun i size hi => hm i size ((hr i).symm.trans hi)

theorem Measured.put (hm : Measured fs files) (hr : ∀ i size, reported fs' i = some size →
      if i = ino then size = b.length else reported fs i = some size) :
    Measured fs' (Function.update files ino (some b)) := by
  intro i size hi
  have hsize := hr i size hi
  split at hsize
  · rename_i he
    rw [he, Function.update_self]
    exact hsize
  · rename_i hne
    rw [Function.update_of_ne hne]
    exact hm i size hsize

/-- A flush leaves the sizes right, whether the server takes the bytes or not. -/
theorem Measured.flush {server' : σ} (hm : Measured fs files)
    (hst : ∀ st, fs.openFiles.lookup ino = some st → files ino = some st.buf)
    (h : fs.flushIfDirty agent server ino = some (fs', server')) : Measured fs' files := by
  obtain ⟨rfl, _, _⟩ | ⟨st, path, result, hl, _, _, _, rfl⟩ := Xetfs.flushIfDirty_cases h
  · exact hm
  · cases result with
    | error e => exact hm.same (fun _ => rfl)
    | ok fh =>
      rw [← Function.update_eq_self ino files, hst st hl]
      refine hm.put (fun i size hi => ?_)
      have hri : reported ((fs.markClean ino st).ingested ino fh st.buf.length) i =
          if i = ino then (fs.nodes.lookup ino).map (fun _ => st.buf.length)
          else reported fs i := modifyNode_reported i
      rw [hri] at hi
      by_cases he : i = ino
      · rw [if_pos he] at hi ⊢
        obtain ⟨_, _, rfl⟩ := Option.map_eq_some_iff.mp hi
        rfl
      · rw [if_neg he] at hi ⊢
        exact hi

theorem Measured.resize {m : Mounted σ} (hm : Measured m.fs files) {openFiles : Table ℕ Staging}
    {size : ℕ} (hlen : b.length = size) :
    Measured (Xetfs.modifyNode { (m.fs.ensureStaging agent m.server ino).2 with openFiles } ino
      (fun n => { n with size := size })) (Function.update files ino (some b)) := by
  refine hm.put (fun i size' hi => ?_)
  rw [resized_reported] at hi
  by_cases he : i = ino
  · rw [if_pos he] at hi ⊢
    obtain ⟨_, _, rfl⟩ := Option.map_eq_some_iff.mp hi
    exact hlen.symm
  · rw [if_neg he] at hi ⊢
    exact hi

theorem Measured.write (hm : Measured fs files) (offset : ℤ) (data : Bytes) :
    Measured (fs.write agent server ino offset data).1 (Function.update files ino
      (some (Xetfs.written (fs.ensureStaging agent server ino).1.buf offset.toNat data))) :=
  Measured.resize (m := ⟨fs, server⟩) hm rfl

theorem Measured.setattr (hm : Measured fs files) (size : ℕ) :
    Measured (fs.setattr agent server ino (some size)).1 (Function.update files ino
      (some (Xetfs.resize (fs.ensureStaging agent server ino).1.buf size))) := by
  refine Measured.resize (m := ⟨fs, server⟩) hm ?_
  rw [resize_truncate, Cells.length_truncate]

theorem Measured.create {parent : ℕ} {name : String} (hm : Measured fs files)
    (h : Xetfs.Creates fs fs' parent name) :
    Measured fs' (Function.update files fs.next (some [])) := by
  refine hm.put (fun i size hi => ?_)
  have hri : reported fs' i = if i = fs.next then some 0 else reported fs i :=
    addNode_views Node.size (fun _ _ => rfl) h.added i
  rw [hri] at hi
  by_cases he : i = fs.next
  · rw [if_pos he] at hi ⊢
    exact (Option.some.inj hi).symm
  · rw [if_neg he] at hi ⊢
    exact hi

end

end Dejaveph.Proofs.FolderView

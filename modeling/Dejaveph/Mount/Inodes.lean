import Dejaveph.Mount.Apart

namespace Dejaveph.Mount
open Lib Server

/-- A tree with a directory as its root, in which every other inode is listed by its
parent. -/
structure Inodes (nodes : Table ℕ Node) (next : ℕ) : Prop where
  tree : Tree nodes next
  linked : Linked nodes
  root : ∃ n, nodes.lookup Mount.root = some n ∧ n.kind = .dir

section
variable {nodes nodes' : Table ℕ Node} {next ino : ℕ}

theorem Tree.root_lt (ht : Tree nodes next) (hm : ino ∈ nodes) (hne : ino ≠ Mount.root) :
    Mount.root < ino := by
  induction ino using Nat.strong_induction_on with
  | _ ino ih =>
    obtain ⟨n, hn⟩ := Table.mem_iff.mp hm
    obtain ⟨hlt, hp⟩ := ht.parent ino n hn hne
    by_cases hr : n.parent = Mount.root
    · rw [← hr]
      exact hlt
    · exact Nat.lt_trans (ih n.parent hlt hp hr) hlt

theorem Inodes.sameShape (hi : Inodes nodes next) (h : SameShape nodes nodes') :
    Inodes nodes' next := by
  obtain ⟨n, hn, hk⟩ := hi.root
  obtain ⟨n', hn', _, hkind, _⟩ := h.outline.symm.lookup hn
  exact ⟨h.outline.tree hi.tree, h.linked hi.linked, n', hn', hkind.trans hk⟩

theorem Inodes.addFile (hi : Inodes nodes next) {parent : ℕ} {name : String} {p : Node}
    (hp : nodes.lookup parent = some p) (hdir : p.kind = .dir)
    (ha : addNode nodes next ⟨name, .file, parent, [], none, 0⟩ = some nodes') :
    Inodes nodes' (next + 1) := by
  obtain ⟨n, hn, hk⟩ := hi.root
  have hkeep := addNode_keeps (n := ⟨name, .file, parent, [], none, 0⟩) hi.tree hp ha hn
  exact ⟨hi.tree.addNode (Table.mem_of_lookup hp) ha, hi.linked.addNode hi.tree hp hdir rfl ha,
    _, hkeep, hk⟩

theorem Linked.children (hl : Linked nodes) {n : Node} (hn : nodes.lookup ino = some n) :
    ∃ cs : List (ℕ × Kind × String), n.children.mapM (fun c =>
        (nodes.lookup c).map (fun m => (c, m.kind, m.name))) = some cs ∧
      cs.map (fun c => (c.1, some c.2)) =
        n.children.map (fun c => (c, (nodes.lookup c).map (fun m => (m.kind, m.name)))) := by
  have hchild := hl.child ino n hn
  generalize n.children = children at hchild
  induction children with
  | nil => exact ⟨[], rfl, rfl⟩
  | cons c children ih =>
    obtain ⟨_, m, hm, _⟩ := hchild c (by simp)
    obtain ⟨cs, hcs, hrows⟩ := ih (fun d hd => hchild d (by simp [hd]))
    exact ⟨(c, m.kind, m.name) :: cs, by simp [hm, hcs], by simp [hm, hrows]⟩

end

theorem connect_inodes (volume : String) (entries : List EntryOut) (uid gid : ℕ) :
    ∃ fs, connect volume entries uid gid = some fs ∧ Inodes fs.nodes fs.next ∧
      fs.openFiles = ∅ ∧ fs.cache = ∅ := by
  obtain ⟨fs, hc, ht, hl, hroot, _⟩ := connect_built volume entries uid gid
  obtain ⟨fs', hc', _, hopen, hcache, _⟩ := connect_ok volume entries uid gid
  obtain rfl := Option.some.inj (hc.symm.trans hc')
  exact ⟨fs, hc, ⟨ht, hl, hroot⟩, hopen, hcache⟩

/-- Every inode of the earlier table stays what it was, and the new ones have numbers
that were free. -/
structure Kept (fs fs' : Xetfs) : Prop where
  old : ∀ ino n, fs.nodes.lookup ino = some n → ∃ n', fs'.nodes.lookup ino = some n' ∧
    n'.name = n.name ∧ n'.kind = n.kind ∧ n'.parent = n.parent ∧ n.children <+: n'.children
  fresh : ∀ ino ∈ fs'.nodes, ino ∉ fs.nodes → fs.next ≤ ino
  next : fs.next ≤ fs'.next

section
variable {fs fs' fs'' : Xetfs}

theorem Kept.refl (fs : Xetfs) : Kept fs fs :=
  ⟨fun _ n hn => ⟨n, hn, rfl, rfl, rfl, List.prefix_refl _⟩, fun _ hm hn => absurd hm hn,
    Nat.le_refl _⟩

theorem Kept.trans (h : Kept fs fs') (h' : Kept fs' fs'') : Kept fs fs'' := by
  refine ⟨?_, ?_, Nat.le_trans h.next h'.next⟩
  · intro ino n hn
    obtain ⟨n', hn', hname, hkind, hparent, hpre⟩ := h.old ino n hn
    obtain ⟨n'', hn'', hname', hkind', hparent', hpre'⟩ := h'.old ino n' hn'
    exact ⟨n'', hn'', hname'.trans hname, hkind'.trans hkind, hparent'.trans hparent,
      hpre.trans hpre'⟩
  · intro ino hm hnot
    by_cases hmid : ino ∈ fs'.nodes
    · exact h.fresh ino hmid hnot
    · exact Nat.le_trans h.next (h'.fresh ino hm hmid)

theorem kept_sameShape (hnext : fs'.next = fs.next) (h : SameShape fs.nodes fs'.nodes) :
    Kept fs fs' := by
  have hback : SameShape fs'.nodes fs.nodes := fun i => (h i).symm
  refine ⟨?_, ?_, Nat.le_of_eq hnext.symm⟩
  · intro ino n hn
    obtain ⟨n', hn', hs⟩ := hback.lookup hn
    simp only [Node.shape, Node.mk.injEq] at hs
    refine ⟨n', hn', hs.1, hs.2.1, hs.2.2.1, ?_⟩
    rw [hs.2.2.2.1]
  · intro ino hm hnot
    exact absurd (h.outline.mem.mp hm) hnot

theorem kept_creates {parent : ℕ} {name : String} {p : Node} (ht : Tree fs.nodes fs.next)
    (hp : fs.nodes.lookup parent = some p) (hc : Xetfs.Creates fs fs' parent name) :
    Kept fs fs' := by
  refine ⟨?_, ?_, by rw [hc.next]; exact Nat.le_succ _⟩
  · intro ino n hn
    have hkeep := addNode_keeps (n := ⟨name, .file, parent, [], none, 0⟩) ht hp hc.added hn
    refine ⟨_, hkeep, rfl, rfl, rfl, ?_⟩
    simp only
    split
    · exact List.prefix_append _ _
    · exact List.prefix_refl _
  · intro ino hm hnot
    rcases (addNode_mem hc.added).mp hm with rfl | hold
    · exact Nat.le_refl _
    · exact absurd hold hnot

end

section
variable {σ : Type} {agent : XetAgent σ} {m m' : Mounted σ} {r : Request}

/-- A new file has an existing directory as its parent. -/
def InDirectory (m : Mounted σ) : Request → Prop
  | .create parent _ => (m.fs.nodes.lookup parent).map Node.kind = some .dir
  | _ => True

instance (m : Mounted σ) : DecidablePred (InDirectory m)
  | .create .. => inferInstanceAs (Decidable (_ = _))
  | .lookup .. | .getattr _ | .open_ _ | .read .. | .write .. | .setattr .. | .fsync .. | .flush ..
  | .release .. | .readdir .. => inferInstanceAs (Decidable True)

variable (agent) in
theorem Xetfs.flushIfDirty_total {fs : Xetfs} (ht : Tree fs.nodes fs.next) (server : σ)
    (ino : ℕ) : ∃ r, fs.flushIfDirty agent server ino = some r := by
  obtain ⟨path, hpath⟩ := ht.fullPath ino
  unfold Xetfs.flushIfDirty
  split
  · split
    · exact ⟨_, congrArg (Option.map _) hpath⟩
    · exact ⟨_, rfl⟩
  · exact ⟨_, rfl⟩

theorem Xetfs.create_total {fs : Xetfs} (ht : Tree fs.nodes fs.next) {parent : ℕ}
    (hp : parent ∈ fs.nodes) (name : String) : ∃ r, fs.create parent name = some r := by
  cases hc : fs.childNamed parent name with
  | some i =>
    simp only [Xetfs.create, hc]
    exact ⟨_, rfl⟩
  | none =>
    have hlt := ht.below parent hp
    have hne : parent ≠ fs.next := by omega
    obtain ⟨nodes, ha⟩ := addNode_total (n := ⟨name, .file, parent, [], none, 0⟩) hne hp
    obtain ⟨fs', a, hcreate, _⟩ := Xetfs.create_new hc ha
    exact ⟨_, hcreate⟩

variable (agent) in
/-- Over such a tree the mount neither panics nor climbs for ever. -/
theorem serve_total (hi : Inodes m.fs.nodes m.fs.next) (hr : InDirectory m r) :
    ∃ m' reply, serve agent m r = some (m', reply) := by
  cases r with
  | create parent name =>
    obtain ⟨n, hn, _⟩ := Option.map_eq_some_iff.mp hr
    obtain ⟨r', hc⟩ := Xetfs.create_total hi.tree (Table.mem_of_lookup hn) name
    exact ⟨_, _, congrArg (Option.map _) hc⟩
  | fsync ino fh | flush ino fh | release ino fh =>
    obtain ⟨r', hf⟩ := Xetfs.flushIfDirty_total agent hi.tree m.server ino
    exact ⟨_, _, congrArg (Option.map _) hf⟩
  | readdir ino fh offset room =>
    obtain ⟨reply, hreply⟩ : ∃ reply, m.fs.readdir ino offset room = some reply := by
      unfold Xetfs.readdir
      split
      · exact ⟨_, rfl⟩
      · rename_i node hn
        split
        · exact ⟨_, rfl⟩
        · obtain ⟨cs, hcs, _⟩ := hi.linked.children hn
          exact ⟨_, congrArg (Option.map _) hcs⟩
    exact ⟨_, _, congrArg (Option.map _) hreply⟩
  | _ => exact ⟨_, _, rfl⟩

theorem serve_inodes {reply : Reply} (hi : Inodes m.fs.nodes m.fs.next) (hr : InDirectory m r)
    (h : serve agent m r = some (m', reply)) : Inodes m'.fs.nodes m'.fs.next := by
  obtain ⟨_, ⟨hnext, hs⟩ | ⟨parent, name, rfl, _, hc⟩⟩ := serve_shape h
  · rw [hnext]
    exact hi.sameShape hs
  · obtain ⟨p, hp, hdir⟩ := Option.map_eq_some_iff.mp hr
    rw [hc.next]
    exact hi.addFile hp hdir hc.added

theorem serve_kept {reply : Reply} (hi : Inodes m.fs.nodes m.fs.next) (hr : InDirectory m r)
    (h : serve agent m r = some (m', reply)) : Kept m.fs m'.fs := by
  obtain ⟨_, ⟨hnext, hs⟩ | ⟨parent, name, rfl, _, hc⟩⟩ := serve_shape h
  · exact kept_sameShape hnext hs
  · obtain ⟨p, hp, _⟩ := Option.map_eq_some_iff.mp hr
    exact kept_creates hi.tree hp hc

/-- A run whose creations are in directories comes to its end, in a tree that keeps
the inodes of the first one. -/
theorem trace_kept {requests : List Request} (hi : Inodes m.fs.nodes m.fs.next)
    (hg : Run.Guarded (next agent) InDirectory m requests) :
    ∃ m' replies, Run.trace (serve agent) m requests = some (m', replies) ∧
      Inodes m'.fs.nodes m'.fs.next ∧ Kept m.fs m'.fs := by
  refine Run.trace_total (I := fun m' => Inodes m'.fs.nodes m'.fs.next ∧ Kept m.fs m'.fs) ?_
    ⟨hi, .refl _⟩ hg
  intro m' r hm' hr
  obtain ⟨hi', hk⟩ := hm'
  obtain ⟨m'', reply, hs⟩ := serve_total agent hi' hr
  exact ⟨m'', reply, hs, serve_inodes hi' hr hs, hk.trans (serve_kept hi' hr hs)⟩

end

end Dejaveph.Mount

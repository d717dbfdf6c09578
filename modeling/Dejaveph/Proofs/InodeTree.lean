import Dejaveph.Mount.Inodes
import Dejaveph.Mount.Shelf

namespace Dejaveph.Proofs.InodeTree
open Lib Server Mount

/-- The names on a way up from an inode to the root, from the root down. -/
inductive RootPath (nodes : Table ℕ Node) : ℕ → List String → Prop
  | root : RootPath nodes root []
  | child {ino : ℕ} {n : Node} {names : List String} (node : nodes.lookup ino = some n)
      (below : ino ≠ root) (up : RootPath nodes n.parent names) :
      RootPath nodes ino (names ++ [n.name])

/-- The inode table is a finite tree, and its two kinds of links agree. -/
structure IsTree (fs : Xetfs) : Prop where
  root : ∃ n, fs.nodes.lookup root = some n ∧ n.kind = .dir
  number : ∀ ino ∈ fs.nodes, ino ≠ Mount.root → 2 ≤ ino ∧ ino < fs.next
  parent : ∀ ino n, fs.nodes.lookup ino = some n → ino ≠ Mount.root → n.parent < ino ∧
    ∃ p, fs.nodes.lookup n.parent = some p ∧ p.kind = .dir ∧ p.children.count ino = 1
  child : ∀ d n, fs.nodes.lookup d = some n → ∀ c ∈ n.children,
    c ≠ Mount.root ∧ ∃ m, fs.nodes.lookup c = some m ∧ m.parent = d
  /-- Climbing from an inode ends at the root, along the one way there. -/
  path : ∀ ino ∈ fs.nodes, ∃ names, (∀ names', RootPath fs.nodes ino names' ↔ names' = names) ∧
    (∀ steps > ino, Xetfs.pathParts fs.nodes steps ino = some names) ∧
    fs.fullPath ino = some ("/" ++ String.intercalate "/" names)

section
variable {nodes : Table ℕ Node} {next ino : ℕ} {n : Node} {names names' : List String}

theorem RootPath.unique (h : RootPath nodes ino names) (h' : RootPath nodes ino names') :
    names' = names := by
  induction h generalizing names' with
  | root =>
    cases h' with
    | root => rfl
    | child _ below _ => exact absurd rfl below
  | child hn below _ ih =>
    cases h' with
    | root => exact absurd rfl below
    | child hn' _ up' =>
      obtain rfl := Option.some.inj (hn.symm.trans hn')
      rw [ih up']

/-- The names that the climb collects are those of the way up. -/
theorem rootPath_partsOf (ht : Tree nodes next) (hm : ino ∈ nodes)
    (h : partsOf nodes ino = some names) : RootPath nodes ino names := by
  induction ino using Nat.strong_induction_on generalizing names with
  | _ ino ih =>
    by_cases hr : ino = root
    · subst hr
      rw [partsOf_root, Option.some.injEq] at h
      rw [← h]
      exact .root
    · obtain ⟨n, hn⟩ := Table.mem_iff.mp hm
      obtain ⟨hlt, hp⟩ := ht.parent ino n hn hr
      obtain ⟨above, habove, hself⟩ := ht.partsOf_snoc hn hr
      rw [h, Option.some.injEq] at hself
      rw [hself]
      exact .child hn hr (ih n.parent hlt hp habove)

end

theorem isTree_of_inodes {fs : Xetfs} (hi : Inodes fs.nodes fs.next) : IsTree fs := by
  refine ⟨hi.root, ?_, ?_, hi.linked.child, ?_⟩
  · intro ino hm hne
    exact ⟨hi.tree.root_lt hm hne, hi.tree.below ino hm⟩
  · intro ino n hn hne
    obtain ⟨p, hp, hdir, hc⟩ := hi.linked.parent ino n hn hne
    exact ⟨(hi.tree.parent ino n hn hne).1, p, hp, hdir,
      List.count_eq_one_of_mem (hi.linked.once _ p hp) hc⟩
  · intro ino hm
    obtain ⟨names, hnames⟩ := hi.tree.partsOf_total ino
    have hpath := rootPath_partsOf hi.tree hm hnames
    refine ⟨names, ?_, ?_, partsOf_fullPath hnames⟩
    · intro names'
      constructor
      · exact hpath.unique
      · rintro rfl
        exact hpath
    · intro steps hs
      rw [hi.tree.pathParts_fuel steps hs, hnames]

theorem ensureStaging_staged {σ : Type} (agent : XetAgent σ) (fs : Xetfs) (server : σ)
    (ino : ℕ) : (fs.ensureStaging agent server ino).2.openFiles.lookup ino =
      some (fs.ensureStaging agent server ino).1 := by
  unfold Xetfs.ensureStaging
  split
  · rename_i st hst
    exact hst
  · exact AList.lookup_insert _

/-- Connecting builds a tree from any listing, and requests that create files in
directories only keep it one: each of them is served, and no inode ever turns into
another one. -/
theorem inode_tree {σ : Type} (agent : XetAgent σ) (volume : String) (entries : List EntryOut)
    (uid gid : ℕ) (server : σ) :
    ∃ fs, connect volume entries uid gid = some fs ∧
      ∀ before, Run.Guarded (next agent) InDirectory ⟨fs, server⟩ before →
        ∃ mid replies, Run.trace (serve agent) ⟨fs, server⟩ before = some (mid, replies) ∧
          IsTree mid.fs ∧
          (∀ ino, (mid.fs.ensureStaging agent mid.server ino).2.openFiles.lookup ino =
            some (mid.fs.ensureStaging agent mid.server ino).1) ∧
          ∀ after, Run.Guarded (next agent) InDirectory mid after →
            ∃ m replies', Run.trace (serve agent) mid after = some (m, replies') ∧
              IsTree m.fs ∧ Kept mid.fs m.fs := by
  obtain ⟨fs, hc, hi, _⟩ := connect_inodes volume entries uid gid
  refine ⟨fs, hc, ?_⟩
  intro before hbefore
  obtain ⟨mid, replies, htrace, hmid, _⟩ := trace_kept hi hbefore
  refine ⟨mid, replies, htrace, isTree_of_inodes hmid,
    fun ino => ensureStaging_staged agent mid.fs mid.server ino, ?_⟩
  intro after hafter
  obtain ⟨m, replies', htrace', hm, hk⟩ := trace_kept hmid hafter
  exact ⟨m, replies', htrace', isTree_of_inodes hm, hk⟩

def nested : List EntryOut := [⟨"/d/a", "0", 2⟩, ⟨"d/e/b", "1", 3⟩, ⟨"//d", "2", 4⟩]

/-- Files are created in two directories, one of them under a name that is there. -/
def creations : List Mount.Request :=
  [.create 2 "c", .write 7 0 0 [7], .create 4 "b", .flush 7 0, .readdir 2 0 0 9]

theorem inode_tree_creations : ∃ fs, ∃ mid m : Mounted Shelf, connect "v" nested 0 0 = some fs ∧
    IsTree mid.fs ∧ mid.fs.fullPath 7 = some "/d/c" ∧ IsTree m.fs ∧ Kept mid.fs m.fs := by
  obtain ⟨fs, hc, h⟩ := inode_tree (Shelf.agent (fun _ => true)) "v" nested 0 0 {}
  have hrun : (connect "v" nested 0 0).map (fun fs =>
      (Run.check (next (Shelf.agent (fun _ => true))) (fun m r => InDirectory m r) ⟨fs, {}⟩
          creations,
        (Run.trace (serve (Shelf.agent (fun _ => true))) ⟨fs, {}⟩ creations).map (fun p =>
          (p.1.fs.fullPath 7, Run.check (next (Shelf.agent (fun _ => true)))
            (fun m r => InDirectory m r) p.1 [.create root "d"])))) =
      some (true, some (some "/d/c", true)) := by decide
  rw [hc, Option.map_some, Option.some.injEq, Prod.mk.injEq] at hrun
  obtain ⟨mid, replies, htrace, hmid, _, hafter⟩ :=
    h creations (Run.guarded_of_test (fun _ _ => of_decide_eq_true) hrun.1)
  have hpath := hrun.2
  rw [htrace, Option.map_some, Option.some.injEq, Prod.mk.injEq] at hpath
  obtain ⟨m, replies', _, hm, hk⟩ := hafter [.create root "d"]
    (Run.guarded_of_test (fun _ _ => of_decide_eq_true) hpath.2)
  exact ⟨fs, mid, m, hc, hmid, hpath.1, hm, hk⟩

end Dejaveph.Proofs.InodeTree

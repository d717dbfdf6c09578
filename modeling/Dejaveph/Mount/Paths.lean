import Dejaveph.Lib.Text
import Dejaveph.Mount.Steps

namespace Dejaveph.Mount
open Lib Server

/-- A path without its leading slashes. -/
def trimmed (p : String) : List Char := p.toList.dropWhile (· = '/')

/-- The components of a path, as `connect` splits it. -/
def components (p : String) : List String := ((trimmed p).splitOn '/').map String.ofList

/-- The names from the root down to an inode. -/
def partsOf (nodes : Table ℕ Node) (ino : ℕ) : Option (List String) :=
  Xetfs.pathParts nodes (ino + 1) ino

/-- Names that `connect` can give to the inodes of one path: the first one is not
empty, and none has a slash. -/
def Proper (names : List String) : Prop :=
  (∀ s ∈ names, '/' ∉ s.toList) ∧ ∀ s ∈ names.head?, s ≠ ""

theorem proper_nil : Proper [] := ⟨nofun, nofun⟩

theorem Proper.shorter {names names' : List String} (h : Proper names) (hp : names' <+: names) :
    Proper names' := by
  refine ⟨fun s hs => h.1 s (hp.subset hs), ?_⟩
  intro s hs
  cases names' with
  | nil => cases hs
  | cons n ns =>
    obtain ⟨rest, rfl⟩ := hp
    exact h.2 s hs

theorem components_ne_nil (p : String) : components p ≠ [] := by
  simp only [components, ne_eq, List.map_eq_nil_iff]
  exact List.splitOn_ne_nil _ _

theorem components_proper {p : String} (hp : trimmed p ≠ []) : Proper (components p) := by
  constructor
  · intro s hs
    obtain ⟨piece, hm, rfl⟩ := List.mem_map.mp hs
    rw [String.toList_ofList]
    exact Text.not_mem_splitOn hm
  · cases ht : trimmed p with
    | nil => exact absurd ht hp
    | cons d ds =>
      have hd : d ≠ '/' := by
        have hnot := List.head?_dropWhile_not (· = '/') p.toList
        unfold trimmed at ht
        rw [ht] at hnot
        simpa using hnot
      obtain ⟨first, rest, hs⟩ := Text.splitOn_head hd ds
      intro s hm
      rw [components, ht, hs, List.map_cons, List.head?_cons, Option.mem_some_iff] at hm
      rw [← hm, Ne, String.ofList_eq_empty_iff]
      nofun

theorem intercalate_components (p : String) :
    String.intercalate "/" (components p) = String.ofList (trimmed p) := by
  apply String.toList_injective
  have hid : String.toList ∘ String.ofList = id := funext (fun _ => String.toList_ofList)
  rw [String.toList_intercalate, components, List.map_map, hid, List.map_id, String.toList_ofList]
  exact (List.intercalate_splitOn '/').trans String.toList_ofList.symm

section
variable {names : List String} {name : String}

theorem intercalate_ne_empty (hn : names ≠ []) (hp : Proper names) :
    String.intercalate "/" names ≠ "" := by
  cases names with
  | nil => exact absurd rfl hn
  | cons s ss =>
    have hs : s ≠ "" := hp.2 s rfl
    intro he
    apply hs
    have hl := congrArg String.toList he
    cases ss with
    | nil => simpa using he
    | cons t ts =>
      rw [String.intercalate_cons_cons, String.toList_append, String.toList_append] at hl
      simp at hl

theorem accum_snoc (hp : Proper names) (name : String) :
    (if String.intercalate "/" names = "" then String.intercalate "/" names
      else String.intercalate "/" names ++ "/") ++ name =
        String.intercalate "/" (names ++ [name]) := by
  by_cases hn : names = []
  · subst hn
    simp
  · rw [if_neg (intercalate_ne_empty hn hp), String.intercalate_append_of_ne_nil hn (by simp)]
    simp

end

section
variable {nodes nodes' : Table ℕ Node} {next ino cur : ℕ} {n : Node} {ps : List String}

theorem partsOf_root : partsOf nodes root = some [] := rfl

/-- Enough steps up are as good as any more. -/
theorem Tree.pathParts_fuel (ht : Tree nodes next) (fuel : ℕ) {cur : ℕ} (h : cur < fuel) :
    Xetfs.pathParts nodes fuel cur = partsOf nodes cur := by
  induction fuel using Nat.strong_induction_on generalizing cur with
  | _ fuel ih =>
    obtain ⟨fuel, rfl⟩ : ∃ k, fuel = k + 1 := ⟨fuel - 1, by omega⟩
    unfold partsOf Xetfs.pathParts
    split
    · rfl
    · rename_i hr
      cases hl : nodes.lookup cur with
      | none => rfl
      | some node =>
        have hlt := (ht.parent cur node hl hr).1
        simp only
        rw [ih fuel (by omega) (by omega), ih cur (by omega) hlt]

theorem Tree.partsOf_child (ht : Tree nodes next) (hl : nodes.lookup ino = some n)
    (hne : ino ≠ Mount.root) :
    partsOf nodes ino = (partsOf nodes n.parent).map (fun ps => ps ++ [n.name]) := by
  have hlt := (ht.parent ino n hl hne).1
  rw [← ht.pathParts_fuel ino hlt, partsOf, Xetfs.pathParts, if_neg hne, hl]

theorem Tree.partsOf_total (ht : Tree nodes next) (ino : ℕ) : ∃ ps, partsOf nodes ino = some ps :=
  ht.pathParts (Nat.lt_succ_self ino)

theorem Tree.partsOf_snoc (ht : Tree nodes next) (hl : nodes.lookup ino = some n)
    (hne : ino ≠ Mount.root) : ∃ ps, partsOf nodes n.parent = some ps ∧
      partsOf nodes ino = some (ps ++ [n.name]) := by
  obtain ⟨ps, hp⟩ := ht.partsOf_total n.parent
  exact ⟨ps, hp, by rw [ht.partsOf_child hl hne, hp]; rfl⟩

theorem partsOf_fullPath {fs : Xetfs} (h : partsOf fs.nodes ino = some ps) :
    fs.fullPath ino = some ("/" ++ String.intercalate "/" ps) :=
  congrArg (Option.map _) h

/-- A node without its list of children. -/
def Node.bare (n : Node) : Node := { n with children := [] }

/-- Every inode but the root is listed once, by its parent, a directory. -/
structure Linked (nodes : Table ℕ Node) : Prop where
  child : ∀ d n, nodes.lookup d = some n → ∀ c ∈ n.children,
    c ≠ root ∧ ∃ m, nodes.lookup c = some m ∧ m.parent = d
  parent : ∀ c m, nodes.lookup c = some m → c ≠ root →
    ∃ n, nodes.lookup m.parent = some n ∧ n.kind = .dir ∧ c ∈ n.children
  once : ∀ d n, nodes.lookup d = some n → n.children.Nodup

/-- No two inodes have the same names down from the root. -/
def Unique (nodes : Table ℕ Node) : Prop :=
  ∀ i ∈ nodes, ∀ j ∈ nodes, partsOf nodes i = partsOf nodes j → i = j

/-- A tree with one node more, at the end of its parent's list. -/
structure Grows (nodes nodes' : Table ℕ Node) (next : ℕ) (n : Node) : Prop where
  tree : Tree nodes' (next + 1)
  linked : Linked nodes'
  new : nodes'.lookup next = some n
  parts : partsOf nodes' next = (partsOf nodes n.parent).map (fun ps => ps ++ [n.name])
  fresh : next ∉ nodes
  old : ∀ i, i ≠ next → (nodes'.lookup i).map Node.bare = (nodes.lookup i).map Node.bare ∧
    partsOf nodes' i = partsOf nodes i

section
variable {p : Node} (ht : Tree nodes next) (hl : Linked nodes)
  (hp : nodes.lookup n.parent = some p) (hdir : p.kind = .dir) (hn : n.children = [])
  (ha : addNode nodes next n = some nodes')
include ht hp ha

theorem addNode_lookup {i : ℕ} {m : Node} (hm : nodes'.lookup i = some m) :
    (i = next ∧ m = n) ∨ ∃ o, nodes.lookup i = some o ∧ i ≠ next ∧
      m = { o with children := if i = n.parent then o.children ++ [next] else o.children } := by
  have hlt := ht.below _ (Table.mem_of_lookup hp)
  obtain ⟨q, hq, hlook⟩ := addNode_spec (by omega) ha
  rw [hlook] at hm
  split at hm
  · rename_i hi
    subst hi
    cases hm
    exact .inr ⟨q, hq, by omega, by rw [if_pos rfl]⟩
  · rename_i hi
    split at hm
    · rename_i hin
      exact .inl ⟨hin, (Option.some.inj hm).symm⟩
    · rename_i hin
      exact .inr ⟨m, hm, hin, by rw [if_neg hi]⟩

theorem addNode_keeps {i : ℕ} {o : Node} (ho : nodes.lookup i = some o) :
    nodes'.lookup i = some { o with
      children := if i = n.parent then o.children ++ [next] else o.children } := by
  have hlt := ht.below _ (Table.mem_of_lookup hp)
  have hi := ht.below _ (Table.mem_of_lookup ho)
  obtain ⟨q, hq, hlook⟩ := addNode_spec (by omega) ha
  rw [hlook]
  split
  · rename_i hin
    subst hin
    rw [Option.some.inj (ho.symm.trans hq)]
  · rw [if_neg (by omega), ho]

theorem addNode_new : nodes'.lookup next = some n := by
  have hlt := ht.below _ (Table.mem_of_lookup hp)
  obtain ⟨q, hq, hlook⟩ := addNode_spec (by omega) ha
  rw [hlook, if_neg (by omega), if_pos rfl]

include hl hdir hn in
theorem Linked.addNode : Linked nodes' := by
  have hlt := ht.below _ (Table.mem_of_lookup hp)
  have hroot := ht.below _ ht.root
  refine ⟨?_, ?_, ?_⟩
  · intro d m hd c hc
    obtain ⟨_, rfl⟩ | ⟨o, ho, _, rfl⟩ := addNode_lookup ht hp ha hd
    · rw [hn] at hc
      cases hc
    · have hold : c ∈ o.children → c ≠ Mount.root ∧ ∃ m, nodes'.lookup c = some m ∧ m.parent = d := by
        intro hc
        obtain ⟨hne, m, hm, hpar⟩ := hl.child d o ho c hc
        exact ⟨hne, _, addNode_keeps ht hp ha hm, hpar⟩
      simp only at hc
      split at hc
      · rename_i hdp
        rcases List.mem_append.mp hc with hc | hc
        · exact hold hc
        · obtain rfl := List.mem_singleton.mp hc
          exact ⟨by omega, n, addNode_new ht hp ha, hdp.symm⟩
      · exact hold hc
  · intro c m hc hne
    obtain ⟨rfl, rfl⟩ | ⟨o, ho, _, rfl⟩ := addNode_lookup ht hp ha hc
    · exact ⟨_, addNode_keeps ht hp ha hp, hdir, by simp⟩
    · obtain ⟨q, hq, hqd, hm⟩ := hl.parent c o ho hne
      refine ⟨_, addNode_keeps ht hp ha hq, hqd, ?_⟩
      simp only
      split
      · exact List.mem_append_left _ hm
      · exact hm
  · intro d m hd
    obtain ⟨_, rfl⟩ | ⟨o, ho, _, rfl⟩ := addNode_lookup ht hp ha hd
    · rw [hn]
      exact .nil
    · have honce := hl.once d o ho
      simp only
      split
      · refine List.nodup_append.mpr ⟨honce, List.nodup_singleton _, ?_⟩
        rintro c hc _ hm rfl
        obtain rfl := List.mem_singleton.mp hm
        obtain ⟨_, m, hm, _⟩ := hl.child d o ho c hc
        exact absurd (ht.below _ (Table.mem_of_lookup hm)) (Nat.lt_irrefl _)
      · exact honce

end

theorem addNode_grows (ht : Tree nodes next) (hl : Linked nodes) {p : Node}
    (hp : nodes.lookup n.parent = some p) (hdir : p.kind = .dir) (hn : n.children = []) :
    ∃ nodes', addNode nodes next n = some nodes' ∧ Grows nodes nodes' next n := by
  have hpm := Table.mem_of_lookup hp
  have hlt := ht.below _ hpm
  have hroot := ht.below _ ht.root
  have hne : n.parent ≠ next := by omega
  obtain ⟨nodes', ha⟩ := addNode_total hne hpm
  have hparts : ∀ i, i ≠ next → partsOf nodes' i = partsOf nodes i :=
    fun i hi => ht.closed.pathParts ha _ hi
  have ht' := ht.addNode hpm ha
  have hnew := addNode_new ht hp ha
  refine ⟨nodes', ha, ht', hl.addNode ht hp hdir hn ha, hnew, ?_, ?_, ?_⟩
  · rw [ht'.partsOf_child hnew (by omega), hparts _ (by omega)]
  · exact fun h => absurd (ht.below _ h) (Nat.lt_irrefl _)
  · intro i hi
    refine ⟨?_, hparts i hi⟩
    cases ho : nodes.lookup i with
    | some o =>
      rw [addNode_keeps ht hp ha ho]
      rfl
    | none =>
      have hm : i ∉ nodes' := by
        rw [addNode_mem ha]
        rintro (he | hm)
        · exact hi he
        · rw [← AList.lookup_isSome, ho] at hm
          cases hm
      rw [AList.lookup_eq_none.mpr hm]

theorem Tree.root_of_parts (ht : Tree nodes next) (hm : ino ∈ nodes)
    (h : partsOf nodes ino = some []) : ino = Mount.root := by
  by_contra hne
  obtain ⟨n, hn⟩ := Table.mem_iff.mp hm
  obtain ⟨ps, _, hps⟩ := ht.partsOf_snoc hn hne
  rw [h] at hps
  simp at hps

/-- The names of the children of a directory. -/
def childNames (nodes : Table ℕ Node) (n : Node) : List (Option String) :=
  n.children.map (fun c => (nodes.lookup c).map Node.name)

/-- Inodes can be told apart by their names down from the root exactly when each
directory can tell its children apart. -/
theorem unique_iff (ht : Tree nodes next) (hl : Linked nodes) : Unique nodes ↔
    ∀ d n, nodes.lookup d = some n → n.kind = .dir → (childNames nodes n).Nodup := by
  constructor
  · intro hu d n hd _
    refine List.Nodup.map_on ?_ (hl.once d n hd)
    intro c hc c' hc' hname
    obtain ⟨hne, m, hm, hpar⟩ := hl.child d n hd c hc
    obtain ⟨hne', m', hm', hpar'⟩ := hl.child d n hd c' hc'
    rw [hm, hm', Option.map_some, Option.map_some, Option.some.injEq] at hname
    refine hu c (Table.mem_of_lookup hm) c' (Table.mem_of_lookup hm') ?_
    rw [ht.partsOf_child hm hne, ht.partsOf_child hm' hne', hpar, hpar', hname]
  · intro hd i hi j hj he
    obtain ⟨ps, hps⟩ := ht.partsOf_total i
    have hps' := he.symm.trans hps
    clear he
    induction ps using List.reverseRecOn generalizing i j with
    | nil => exact (ht.root_of_parts hi hps).trans (ht.root_of_parts hj hps').symm
    | append_singleton ps name ih =>
      have hne : ∀ k, partsOf nodes k = some (ps ++ [name]) → k ≠ Mount.root := by
        rintro k hk rfl
        rw [partsOf_root] at hk
        simp at hk
      obtain ⟨m, hm⟩ := Table.mem_iff.mp hi
      obtain ⟨m', hm'⟩ := Table.mem_iff.mp hj
      obtain ⟨qs, hq, hqs⟩ := ht.partsOf_snoc hm (hne i hps)
      obtain ⟨qs', hq', hqs'⟩ := ht.partsOf_snoc hm' (hne j hps')
      rw [hps, Option.some.injEq] at hqs
      rw [hps', Option.some.injEq] at hqs'
      obtain ⟨rfl, hn⟩ := List.append_inj' hqs rfl
      obtain ⟨rfl, hn'⟩ := List.append_inj' hqs' rfl
      obtain ⟨n, hdir, hkind, hc⟩ := hl.parent i m hm (hne i hps)
      obtain ⟨n', hdir', _, hc'⟩ := hl.parent j m' hm' (hne j hps')
      have hsame := ih m.parent (Table.mem_of_lookup hdir) m'.parent (Table.mem_of_lookup hdir')
        hq hq'
      rw [← hsame, hdir, Option.some.injEq] at hdir'
      subst hdir'
      refine List.inj_on_of_nodup_map (hd _ n hdir hkind) hc hc' ?_
      rw [hm, hm', Option.map_some, Option.map_some, ← (List.cons.inj hn).1,
        (List.cons.inj hn').1]

end

end Dejaveph.Mount

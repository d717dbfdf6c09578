import Dejaveph.Lib.Run
import Dejaveph.Mount.Connect
import Dejaveph.Mount.Shelf

namespace Dejaveph.Proofs.LookupAgrees
open Lib Server Mount

variable {σ : Type}

/-- Look up names one after another, from an inode down. -/
def resolve (agent : XetAgent σ) (m : Mounted σ) : ℕ → List String → Option ℕ
  | ino, [] => some ino
  | ino, name :: names =>
    match serve agent m (.lookup ino name) with
    | some (_, .entry a) => resolve agent m a.ino names
    | _ => none

/-- What `readdir` lists of a directory after `.` and `..`. -/
def listing (agent : XetAgent σ) (m : Mounted σ) (dir : ℕ) : Option (List (ℕ × String)) :=
  match m.fs.nodes.lookup dir with
  | none => none
  | some n =>
    match serve agent m (.readdir dir 0 2 n.children.length) with
    | some (_, .directory es) => some (es.map (fun x => (x.1, x.2.2.2)))
    | _ => none

/-- Every entry with a name is found where its path says. -/
def Reaches (agent : XetAgent σ) (m : Mounted σ) (entries : List EntryOut) : Prop :=
  ∀ e ∈ entries, trimmed e.path ≠ [] → ∃ ino n,
    resolve agent m root (components e.path) = some ino ∧ m.fs.nodes.lookup ino = some n ∧
      n.kind = .file ∧ n.fileHash = some e.fileHash ∧ n.size = e.size

/-- Every directory lists each name once, with the inode that a lookup finds. -/
def Agrees (agent : XetAgent σ) (m : Mounted σ) : Prop :=
  ∀ dir n, m.fs.nodes.lookup dir = some n → n.kind = .dir → ∃ es, listing agent m dir = some es ∧
    (es.map Prod.snd).Nodup ∧
    ∀ ino name, (ino, name) ∈ es ↔ resolve agent m dir [name] = some ino

/-- A file is created in an existing directory. -/
def CreatesIn (m : Mounted σ) (r : Request) : Prop :=
  ∃ parent name p, r = .create parent name ∧ m.fs.nodes.lookup parent = some p ∧ p.kind = .dir

section
variable {agent : XetAgent σ} {m : Mounted σ} {dir : ℕ} {n : Node}

theorem resolve_one (name : String) : resolve agent m dir [name] = m.fs.childNamed dir name := by
  simp only [resolve, serve]
  cases hc : m.fs.childNamed dir name with
  | none => rfl
  | some c =>
    have hany := List.find?_some hc
    obtain ⟨k, hk, _⟩ := (Option.any_eq_true _ _).mp hany
    simp [Xetfs.attr, hk]

theorem resolve_append (names : List String) (name : String) :
    resolve agent m dir (names ++ [name]) =
      (resolve agent m dir names).bind (fun d => resolve agent m d [name]) := by
  induction names generalizing dir with
  | nil => rfl
  | cons x names ih =>
    simp only [List.cons_append, resolve]
    split
    · exact ih
    · rfl

theorem mapM_children {nodes : Table ℕ Node} {cs : List ℕ} (h : ∀ c ∈ cs, c ∈ nodes) :
    ∃ xs, cs.mapM (fun c => (nodes.lookup c).map (fun n => (c, n.kind, n.name))) = some xs ∧
      xs.map (fun x => (x.1, some x.2.2)) = cs.map (fun c => (c, (nodes.lookup c).map Node.name)) := by
  induction cs with
  | nil => exact ⟨[], rfl, rfl⟩
  | cons c cs ih =>
    obtain ⟨xs, hxs, hmap⟩ := ih (fun d hd => h d (List.mem_cons_of_mem _ hd))
    obtain ⟨n, hn⟩ := Table.mem_iff.mp (h c List.mem_cons_self)
    refine ⟨(c, n.kind, n.name) :: xs, ?_, ?_⟩
    · simp [List.mapM_cons, hn, hxs]
    · rw [List.map_cons, List.map_cons, hmap, hn]
      rfl

variable (agent) in
theorem listing_children (hl : Linked m.fs.nodes) (hd : m.fs.nodes.lookup dir = some n)
    (hk : n.kind = .dir) : ∃ es, listing agent m dir = some es ∧
      es.map (fun x => (x.1, some x.2)) =
        n.children.map (fun c => (c, (m.fs.nodes.lookup c).map Node.name)) := by
  have hmem : ∀ c ∈ n.children, c ∈ m.fs.nodes := by
    intro c hc
    obtain ⟨_, k, hk, _⟩ := hl.child dir n hd c hc
    exact Table.mem_of_lookup hk
  obtain ⟨xs, hxs, hmap⟩ := mapM_children hmem
  have hlen : xs.length = n.children.length := by
    have := congrArg List.length hmap
    simpa using this
  refine ⟨xs.map (fun x => (x.1, x.2.2)), ?_, ?_⟩
  · simp only [listing, hd, serve, Xetfs.readdir, hk, ne_eq, not_true_eq_false, ↓reduceIte, hxs,
      Option.map_some]
    rw [if_neg (by decide), ← hlen]
    change some ((List.take xs.length ((xs.zipIdx 2).map _)).map _) = _
    rw [List.take_of_length_le (by simp), List.map_map]
    refine congrArg some (Eq.trans ?_ (congrArg (List.map _) (List.zipIdx_map_fst 2 xs)))
    rw [List.map_map]
    rfl
  · rw [List.map_map, ← hmap]
    rfl

theorem childNamed_iff {next : ℕ} (ht : Tree m.fs.nodes next) (hl : Linked m.fs.nodes)
    (hu : Unique m.fs.nodes) (hd : m.fs.nodes.lookup dir = some n) {c : ℕ} {name : String} :
    m.fs.childNamed dir name = some c ↔
      c ∈ n.children ∧ (m.fs.nodes.lookup c).map Node.name = some name := by
  have hnamed : ∀ c name, m.fs.childNamed dir name = some c →
      c ∈ n.children ∧ (m.fs.nodes.lookup c).map Node.name = some name := by
    intro c name hc
    have hany := List.find?_some hc
    have hm := List.mem_of_find?_eq_some hc
    rw [hd] at hm
    obtain ⟨k, hk, hn⟩ := (Option.any_eq_true _ _).mp hany
    exact ⟨hm, by rw [hk, Option.map_some, of_decide_eq_true hn]⟩
  constructor
  · exact hnamed c name
  · rintro ⟨hc, hname⟩
    obtain ⟨hne, k, hk, hpar⟩ := hl.child dir n hd c hc
    rw [hk, Option.map_some, Option.some.injEq] at hname
    cases hf : m.fs.childNamed dir name with
    | none =>
      simp only [Xetfs.childNamed, hd, Option.map_some, Option.getD_some,
        List.find?_eq_none] at hf
      exact absurd (by simp [hk, hname]) (hf c hc)
    | some c' =>
      obtain ⟨hc', hname'⟩ := hnamed c' name hf
      obtain ⟨hne', k', hk', hpar'⟩ := hl.child dir n hd c' hc'
      rw [hk', Option.map_some, Option.some.injEq] at hname'
      refine congrArg some (hu c' (Table.mem_of_lookup hk') c (Table.mem_of_lookup hk) ?_)
      rw [ht.partsOf_child hk' hne', ht.partsOf_child hk hne, hpar, hpar', hname, hname']

/-- Listing and lookup agree exactly when the names of the tree are unique. -/
theorem agrees_iff {next : ℕ} (ht : Tree m.fs.nodes next) (hl : Linked m.fs.nodes) :
    Agrees agent m ↔ Unique m.fs.nodes := by
  constructor
  · intro ha
    refine (unique_iff ht hl).mpr ?_
    intro d n hd hk
    obtain ⟨es, hes, hmap⟩ := listing_children agent hl hd hk
    obtain ⟨es', hes', hnodup, _⟩ := ha d n hd hk
    obtain rfl := Option.some.inj (hes.symm.trans hes')
    have hnames := congrArg (List.map Prod.snd) hmap
    rw [List.map_map, List.map_map] at hnames
    change _ = childNames m.fs.nodes n at hnames
    rw [← hnames]
    have hsome := hnodup.map (Option.some_injective String)
    rwa [List.map_map] at hsome
  · intro hu d n hd hk
    obtain ⟨es, hes, hmap⟩ := listing_children agent hl hd hk
    have hnames := congrArg (List.map Prod.snd) hmap
    rw [List.map_map, List.map_map] at hnames
    refine ⟨es, hes, ?_, ?_⟩
    · apply List.Nodup.of_map some
      rw [List.map_map]
      exact hnames ▸ (unique_iff ht hl).mp hu d n hd hk
    · intro ino name
      rw [resolve_one, childNamed_iff ht hl hu hd]
      have hmem : (ino, name) ∈ es ↔
          (ino, some name) ∈ es.map (fun x : ℕ × String => (x.1, some x.2)) := by
        rw [List.mem_map]
        constructor
        · intro h
          exact ⟨_, h, rfl⟩
        · rintro ⟨⟨i, s⟩, h, he⟩
          cases he
          exact h
      rw [hmem, hmap, List.mem_map]
      constructor
      · rintro ⟨c, hc, he⟩
        obtain ⟨rfl, hname⟩ := Prod.mk.inj he
        exact ⟨hc, hname⟩
      · rintro ⟨hc, hname⟩
        exact ⟨ino, hc, by rw [hname]⟩

/-- Where names are unique, an inode is found by its names. -/
theorem resolve_parts {next : ℕ} (ht : Tree m.fs.nodes next) (hl : Linked m.fs.nodes)
    (hu : Unique m.fs.nodes) {names : List String} {ino : ℕ} (hi : ino ∈ m.fs.nodes)
    (hp : partsOf m.fs.nodes ino = some names) : resolve agent m root names = some ino := by
  induction names using List.reverseRecOn generalizing ino with
  | nil => rw [ht.root_of_parts hi hp, resolve]
  | append_singleton names name ih =>
    have hne : ino ≠ root := by
      rintro rfl
      rw [partsOf_root] at hp
      simp at hp
    obtain ⟨k, hk⟩ := Table.mem_iff.mp hi
    obtain ⟨qs, hq, hqs⟩ := ht.partsOf_snoc hk hne
    rw [hp, Option.some.injEq] at hqs
    obtain ⟨rfl, hn⟩ := List.append_inj' hqs rfl
    obtain ⟨d, hd, _, hc⟩ := hl.parent ino k hk hne
    rw [resolve_append, ih (Table.mem_of_lookup hd) hq, Option.bind_some, resolve_one]
    refine (childNamed_iff ht hl hu hd).mpr ⟨hc, ?_⟩
    rw [hk, Option.map_some, (List.cons.inj hn).1]

end

/-- The tree that `connect` built, after some files have been created in it. -/
structure Grown (nodes : Table ℕ Node) (m : Mounted σ) : Prop where
  tree : Tree m.fs.nodes m.fs.next
  linked : Linked m.fs.nodes
  extends_ : Extends nodes m.fs.nodes
  unique : Unique m.fs.nodes ↔ Unique nodes

theorem create_nodes {fs fs' : Xetfs} {parent : ℕ} {name : String} {reply : Reply}
    (h : fs.create parent name = some (fs', reply)) :
    (fs'.nodes = fs.nodes ∧ fs'.next = fs.next) ∨ fs.childNamed parent name = none ∧
      addNode fs.nodes fs.next ⟨name, .file, parent, [], none, 0⟩ = some fs'.nodes ∧
      fs'.next = fs.next + 1 := by
  unfold Xetfs.create at h
  cases hc : fs.childNamed parent name with
  | some i =>
    simp only [hc, Option.bind_eq_bind, Option.bind_some] at h
    cases h
    exact .inl ⟨rfl, rfl⟩
  | none =>
    simp only [hc, Option.bind_eq_bind, Option.bind_eq_some_iff, Option.map_eq_some_iff] at h
    obtain ⟨_, ⟨nodes, ha, rfl⟩, he⟩ := h
    cases he
    exact .inr ⟨rfl, ha, rfl⟩

theorem Grown.create {agent : XetAgent σ} {nodes : Table ℕ Node} {m m' : Mounted σ} {r : Request}
    (hg : Grown nodes m) (hr : CreatesIn m r) (h : next agent m r = some m') : Grown nodes m' := by
  obtain ⟨parent, name, p, rfl, hp, hk⟩ := hr
  simp only [next, serve, Option.map_map, Option.map_eq_some_iff] at h
  obtain ⟨⟨fs', reply⟩, hcreate, rfl⟩ := h
  obtain ⟨hn, hnext⟩ | ⟨hnone, ha, hnext⟩ := create_nodes hcreate
  · refine ⟨?_, ?_, ?_, ?_⟩
    all_goals simp only [Function.comp_apply, hn]
    · rw [hnext]
      exact hg.tree
    · exact hg.linked
    · exact hg.extends_
    · exact hg.unique
  · obtain ⟨nodes', ha', hgrows⟩ := addNode_grows hg.tree hg.linked
      (n := ⟨name, .file, parent, [], none, 0⟩) hp hk rfl
    obtain rfl := Option.some.inj (ha.symm.trans ha')
    refine ⟨?_, hgrows.linked, hg.extends_.trans hgrows.extends, ?_⟩
    · simp only [Function.comp_apply, hnext]
      exact hgrows.tree
    · refine Iff.trans ⟨hgrows.extends.unique, fun hu => hgrows.unique hu ?_⟩ hg.unique
      intro i hi he
      obtain ⟨done, hdone⟩ := hg.tree.partsOf_total parent
      rw [hgrows.parts, hdone, Option.map_some] at he
      have hne : i ≠ root := by
        rintro rfl
        rw [partsOf_root] at he
        simp at he
      obtain ⟨k, hki⟩ := Table.mem_iff.mp hi
      obtain ⟨qs, hq, hqs⟩ := hg.tree.partsOf_snoc hki hne
      rw [he, Option.some.injEq] at hqs
      obtain ⟨rfl, hname⟩ := List.append_inj' hqs rfl
      obtain ⟨d, hd, _, hc⟩ := hg.linked.parent i k hki hne
      have hpar := hu k.parent (Table.mem_of_lookup hd) parent (Table.mem_of_lookup hp)
        (hq.trans hdone.symm)
      rw [hpar] at hd
      have hsome := (childNamed_iff hg.tree hg.linked hu hd).mpr
        ⟨hc, by rw [hki, Option.map_some, ← (List.cons.inj hname).1]⟩
      rw [hnone] at hsome
      cases hsome

/-- After any creations in existing directories the mount finds every entry of a
listing, and its directories agree with their lookups, exactly when no listed path
is at or below another one. -/
theorem lookup_agrees_iff (agent : XetAgent σ) (volume : String) (entries : List EntryOut)
    (uid gid : ℕ) (server : σ) (fs : Xetfs) (hc : connect volume entries uid gid = some fs)
    (requests : List Request) (m : Mounted σ)
    (creates : Run.Guarded (next agent) CreatesIn ⟨fs, server⟩ requests)
    (h : Run.exec (next agent) ⟨fs, server⟩ requests = some m) :
    (Reaches agent m entries ∧ Agrees agent m) ↔ Separate (filePaths entries) := by
  obtain ⟨fs', hc', ht, hl, _, hfiles, hentries, huniq⟩ := connect_built volume entries uid gid
  obtain rfl := Option.some.inj (hc.symm.trans hc')
  have hg : Grown fs.nodes m :=
    Run.exec_invariant (fun _ _ _ hg hr hn => hg.create hr hn) ⟨ht, hl, .refl, .rfl⟩ creates h
  rw [agrees_iff hg.tree hg.linked, hg.unique, huniq]
  refine and_iff_right_of_imp (fun hsep => ?_)
  have hu := hg.unique.mpr (huniq.mpr hsep)
  intro e he hne
  have hin : e ∈ (fileInodes rootOnly entries).map Prod.snd := by
    rw [hentries]
    exact List.mem_filter.mpr ⟨he, by simpa using hne⟩
  obtain ⟨⟨ino, e'⟩, hp, rfl⟩ := List.mem_map.mp hin
  have hfile := hg.extends_.fileOf (hfiles _ hp)
  obtain ⟨n, hn, hkind, hhash, hsize⟩ := hfile.node
  exact ⟨ino, n, resolve_parts hg.tree hg.linked hu hfile.mem hfile.parts, hn, hkind, hhash, hsize⟩

/-- Two files of one directory, and one at the root that is created later. -/
def twoOfOne : List EntryOut := [⟨"/d/a", "h1", 1⟩, ⟨"d/b", "h2", 2⟩]

theorem lookup_agrees_iff_two : ∃ fs m, connect "v" twoOfOne 0 0 = some fs ∧
    Run.exec (next (Shelf.agent (fun _ => true))) ⟨fs, {}⟩ [.create root "c"] = some m ∧
    Reaches (Shelf.agent (fun _ => true)) m twoOfOne ∧
    Agrees (Shelf.agent (fun _ => true)) m := by
  have hrun : (connect "v" twoOfOne 0 0).any (fun fs =>
      (Run.exec (next (Shelf.agent (fun _ => true))) ⟨fs, {}⟩ [.create root "c"]).isSome &&
        (fs.nodes.lookup root).any (fun n => n.kind = .dir)) = true := by decide
  simp only [Option.any_eq_true, Bool.and_eq_true, decide_eq_true_eq,
    Option.isSome_iff_exists] at hrun
  obtain ⟨fs, hc, ⟨m, hm⟩, n, hn, hk⟩ := hrun
  have hcreates : Run.Guarded (next (Shelf.agent (fun _ => true))) CreatesIn ⟨fs, {}⟩
      [.create root "c"] := ⟨⟨root, "c", n, rfl, hn, hk⟩, fun _ _ => trivial⟩
  have hsep : Separate (filePaths twoOfOne) := by
    unfold Separate
    decide
  exact ⟨fs, m, hc, hm, (lookup_agrees_iff _ "v" twoOfOne 0 0 {} fs hc _ m hcreates hm).mpr hsep⟩

/-- Of two entries whose paths differ in the leading slash the second is not found. -/
theorem shadowed_entry_lost : ∃ fs, connect "v" [⟨"/a", "h1", 1⟩, ⟨"a", "h2", 2⟩] 0 0 = some fs ∧
    ¬ Reaches (Shelf.agent (fun _ => true)) ⟨fs, {}⟩ [⟨"/a", "h1", 1⟩, ⟨"a", "h2", 2⟩] := by
  have hrun : (connect "v" [⟨"/a", "h1", 1⟩, ⟨"a", "h2", 2⟩] 0 0).any (fun fs =>
      (resolve (Shelf.agent (fun _ => true)) ⟨fs, {}⟩ root (components "a")).any (fun ino =>
        (fs.nodes.lookup ino).any (fun n => n.fileHash = some "h1"))) = true := by decide
  simp only [Option.any_eq_true, decide_eq_true_eq] at hrun
  obtain ⟨fs, hc, ino, hres, n, hn, hh⟩ := hrun
  refine ⟨fs, hc, ?_⟩
  intro hr
  obtain ⟨ino', n', hres', hn', _, hh', _⟩ := hr ⟨"a", "h2", 2⟩ (by simp) (by decide)
  obtain rfl := Option.some.inj (hres.symm.trans hres')
  obtain rfl := Option.some.inj (hn.symm.trans hn')
  rw [hh] at hh'
  exact absurd hh' (by decide)

end Dejaveph.Proofs.LookupAgrees

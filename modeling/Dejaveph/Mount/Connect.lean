import Dejaveph.Mount.Paths

namespace Dejaveph.Mount
open Lib Server

/-- The file inodes that `connect` builds, each with its entry: placing an entry
ends with the inode of the file. -/
def fileInodes : Builder → List EntryOut → List (ℕ × EntryOut)
  | _, [] => []
  | b, e :: es =>
    match placeEntry b e with
    | none => []
    | some b' =>
      if trimmed e.path = [] then fileInodes b' es else (b'.next - 1, e) :: fileInodes b' es

/-- No path of these is at or below another one. -/
def Separate (paths : List (List String)) : Prop :=
  paths.Pairwise (fun c c' => ¬ c <+: c' ∧ ¬ c' <+: c)

/-- The components of the entries that the mount turns into files. -/
def filePaths (entries : List EntryOut) : List (List String) :=
  (entries.filter (fun e => trimmed e.path ≠ [])).map (fun e => components e.path)

/-- The file of an entry, as `connect` builds it. -/
structure FileOf (nodes : Table ℕ Node) (ino : ℕ) (e : EntryOut) : Prop where
  parts : partsOf nodes ino = some (components e.path)
  node : ∃ n, nodes.lookup ino = some n ∧ n.kind = .file ∧ n.fileHash = some e.fileHash ∧
    n.size = e.size

/-- The tree under construction, with the paths of which directories have been
placed and those of which files have. -/
structure Builder.Built (above files : List (List String)) (b : Builder) : Prop where
  tree : Tree b.nodes b.next
  linked : Linked b.nodes
  root : ∃ n, b.nodes.lookup Mount.root = some n ∧ n.kind = .dir
  dirs : ∀ path ino, b.dirIno.lookup path = some ino → ∃ ps n, ps ≠ [] ∧ Proper ps ∧
    path = String.intercalate "/" ps ∧ partsOf b.nodes ino = some ps ∧
    b.nodes.lookup ino = some n ∧ n.kind = .dir
  known : ∀ ino n, b.nodes.lookup ino = some n → n.kind = .dir → ino ≠ Mount.root →
    ∃ ps, partsOf b.nodes ino = some ps ∧ b.dirIno.lookup (String.intercalate "/" ps) = some ino ∧
      ∃ c ∈ above, ps <+: c ∧ ps ≠ c
  files : ∀ ino n, b.nodes.lookup ino = some n → n.kind = .file →
    ∃ c ∈ files, partsOf b.nodes ino = some c
  blank : ∀ ino n, b.nodes.lookup ino = some n → n.kind = .dir → n.fileHash = none ∧ n.size = 0

/-- The nodes of the smaller tree, with their names, in the larger one. -/
def Extends (nodes nodes' : Table ℕ Node) : Prop :=
  ∀ i ∈ nodes, (nodes'.lookup i).map Node.bare = (nodes.lookup i).map Node.bare ∧
    partsOf nodes' i = partsOf nodes i

section
variable {nodes nodes' nodes'' : Table ℕ Node} {next ino : ℕ} {n : Node}

theorem Extends.refl : Extends nodes nodes := fun _ _ => ⟨rfl, rfl⟩

theorem Extends.mem (h : Extends nodes nodes') {i : ℕ} (hi : i ∈ nodes) : i ∈ nodes' := by
  have hm := congrArg Option.isSome (h i hi).1
  rw [Option.isSome_map, Option.isSome_map, AList.lookup_isSome.mpr hi] at hm
  exact AList.lookup_isSome.mp hm

theorem Extends.trans (h : Extends nodes nodes') (h' : Extends nodes' nodes'') :
    Extends nodes nodes'' :=
  fun i hi => ⟨(h' i (h.mem hi)).1.trans (h i hi).1, (h' i (h.mem hi)).2.trans (h i hi).2⟩

theorem Grows.extends (h : Grows nodes nodes' next n) : Extends nodes nodes' := by
  intro i hi
  apply h.old i
  rintro rfl
  exact h.fresh hi

theorem Extends.lookup (h : Extends nodes nodes') (hn : nodes.lookup ino = some n) :
    ∃ m, nodes'.lookup ino = some m ∧ m.bare = n.bare := by
  have hb := (h ino (Table.mem_of_lookup hn)).1
  rw [hn, Option.map_some] at hb
  exact Option.map_eq_some_iff.mp hb

theorem Extends.fileOf (h : Extends nodes nodes') {e : EntryOut} (hf : FileOf nodes ino e) :
    FileOf nodes' ino e := by
  obtain ⟨n, hn, hk, hh, hs⟩ := hf.node
  obtain ⟨m, hm, hb⟩ := h.lookup hn
  simp only [Node.bare, Node.mk.injEq] at hb
  refine ⟨(h ino (Table.mem_of_lookup hn)).2.trans hf.parts, m, hm, ?_, ?_, ?_⟩
  · rw [hb.2.1, hk]
  · rw [hb.2.2.2.2.1, hh]
  · rw [hb.2.2.2.2.2, hs]

theorem Grows.before (h : Grows nodes nodes' next n) {i : ℕ} {m : Node}
    (hm : nodes'.lookup i = some m) (hi : i ≠ next) :
    ∃ o, nodes.lookup i = some o ∧ o.bare = m.bare ∧ partsOf nodes' i = partsOf nodes i := by
  obtain ⟨hb, hp⟩ := h.old i hi
  rw [hm, Option.map_some] at hb
  obtain ⟨o, ho, hbare⟩ := Option.map_eq_some_iff.mp hb.symm
  exact ⟨o, ho, hbare, hp⟩

theorem bare_kind {m o : Node} (h : o.bare = m.bare) : o.kind = m.kind := by
  simp only [Node.bare, Node.mk.injEq] at h
  exact h.2.1

theorem Grows.unique (h : Grows nodes nodes' next n) (hu : Unique nodes)
    (hnew : ∀ i ∈ nodes, partsOf nodes i ≠ partsOf nodes' next) : Unique nodes' := by
  have hold : ∀ i ∈ nodes', i ≠ next → i ∈ nodes := by
    intro i hi hne
    have hb := congrArg Option.isSome (h.old i hne).1
    rw [Option.isSome_map, Option.isSome_map, AList.lookup_isSome.mpr hi] at hb
    exact AList.lookup_isSome.mp hb.symm
  intro i hi j hj he
  by_cases hin : i = next
  · by_cases hjn : j = next
    · rw [hin, hjn]
    · rw [hin, (h.old j hjn).2] at he
      exact absurd he.symm (hnew j (hold j hj hjn))
  · by_cases hjn : j = next
    · rw [hjn, (h.old i hin).2] at he
      exact absurd he (hnew i (hold i hi hin))
    · rw [(h.old i hin).2, (h.old j hjn).2] at he
      exact hu i (hold i hi hin) j (hold j hj hjn) he

theorem Extends.unique (h : Extends nodes nodes') (hu : Unique nodes') : Unique nodes := by
  intro i hi j hj he
  refine hu i (h.mem hi) j (h.mem hj) ?_
  rw [(h i hi).2, (h j hj).2, he]

end

section
variable {above files : List (List String)} {b : Builder} {parent : ℕ} {p : Node}
  {done : List String} {comp : String} {nodes : Table ℕ Node} {n : Node}

theorem Builder.Built.dirs_grow (hb : b.Built above files) (hg : Grows b.nodes nodes b.next n)
    {path : String} {ino : ℕ} (hd : b.dirIno.lookup path = some ino) : ∃ ps n, ps ≠ [] ∧ Proper ps ∧
      path = String.intercalate "/" ps ∧ partsOf nodes ino = some ps ∧
      nodes.lookup ino = some n ∧ n.kind = .dir := by
  obtain ⟨ps, o, hne, hp, he, hparts, ho, hk⟩ := hb.dirs path ino hd
  obtain ⟨m, hm, hbare⟩ := hg.extends.lookup ho
  exact ⟨ps, m, hne, hp, he, (hg.extends ino (Table.mem_of_lookup ho)).2.trans hparts, hm,
    (bare_kind hbare).trans hk⟩

theorem Builder.Built.blank_grow (hb : b.Built above files) (hg : Grows b.nodes nodes b.next n)
    (hn : n.kind = .dir → n.fileHash = none ∧ n.size = 0) :
    ∀ ino m, nodes.lookup ino = some m → m.kind = .dir → m.fileHash = none ∧ m.size = 0 := by
  intro ino m hm hk
  by_cases hi : ino = b.next
  · subst hi
    obtain rfl := Option.some.inj (hg.new.symm.trans hm)
    exact hn hk
  · obtain ⟨o, ho, hbare, _⟩ := hg.before hm hi
    have ho' := hb.blank ino o ho ((bare_kind hbare).trans hk)
    simp only [Node.bare, Node.mk.injEq] at hbare
    rw [← hbare.2.2.2.2.1, ← hbare.2.2.2.2.2]
    exact ho'

theorem Builder.Built.root_grow (hb : b.Built above files)
    (hg : Grows b.nodes nodes b.next n) :
    ∃ n, nodes.lookup Mount.root = some n ∧ n.kind = .dir := by
  obtain ⟨o, ho, hk⟩ := hb.root
  obtain ⟨m, hm, hbare⟩ := hg.extends.lookup ho
  exact ⟨m, hm, (bare_kind hbare).trans hk⟩

theorem Builder.Built.named (hb : b.Built above files) {i : ℕ} (hi : i ∈ b.nodes)
    {ps : List String} (hne : ps ≠ []) (hparts : partsOf b.nodes i = some ps) :
    ps ∈ files ∨ b.dirIno.lookup (String.intercalate "/" ps) = some i ∧
      ∃ c ∈ above, ps <+: c ∧ ps ≠ c := by
  obtain ⟨m, hm⟩ := Table.mem_iff.mp hi
  cases hk : m.kind with
  | dir =>
    have hroot : i ≠ Mount.root := by
      rintro rfl
      rw [partsOf_root, Option.some.injEq] at hparts
      exact hne hparts.symm
    obtain ⟨qs, hq, hl, hc⟩ := hb.known i m hm hk hroot
    obtain rfl := Option.some.inj (hparts.symm.trans hq)
    exact .inr ⟨hl, hc⟩
  | file =>
    obtain ⟨c, hc, hq⟩ := hb.files i m hm hk
    obtain rfl := Option.some.inj (hparts.symm.trans hq)
    exact .inl hc

theorem Builder.Built.dir_once (hb : b.Built above files) {i j : ℕ} {m o : Node}
    (hi : b.nodes.lookup i = some m) (hj : b.nodes.lookup j = some o) (hm : m.kind = .dir)
    (ho : o.kind = .dir) (he : partsOf b.nodes i = partsOf b.nodes j) : i = j := by
  by_cases hir : i = Mount.root
  · subst hir
    rw [partsOf_root] at he
    exact (hb.tree.root_of_parts (Table.mem_of_lookup hj) he.symm).symm
  · by_cases hjr : j = Mount.root
    · subst hjr
      rw [partsOf_root] at he
      exact hb.tree.root_of_parts (Table.mem_of_lookup hi) he
    · obtain ⟨ps, hps, hli, _⟩ := hb.known i m hi hm hir
      obtain ⟨qs, hqs, hlj, _⟩ := hb.known j o hj ho hjr
      rw [hps, hqs, Option.some.injEq] at he
      rw [he, hlj, Option.some.injEq] at hli
      exact hli.symm

theorem Builder.Built.addDir (hb : b.Built above files) (hp : b.nodes.lookup parent = some p)
    (hdir : p.kind = .dir) (hparts : partsOf b.nodes parent = some done)
    (hprop : Proper (done ++ [comp])) {c : List String} (hc : c ∈ above)
    (hpre : done ++ [comp] <+: c) (hne : done ++ [comp] ≠ c)
    (hnone : b.dirIno.lookup (String.intercalate "/" (done ++ [comp])) = none) :
    ∃ nodes, addNode b.nodes b.next ⟨comp, .dir, parent, [], none, 0⟩ = some nodes ∧
      Grows b.nodes nodes b.next ⟨comp, .dir, parent, [], none, 0⟩ ∧
      Builder.Built above files ⟨nodes,
        b.dirIno.insert (String.intercalate "/" (done ++ [comp])) b.next, b.next + 1⟩ ∧
      (Unique b.nodes → done ++ [comp] ∉ files → Unique nodes) := by
  obtain ⟨nodes, ha, hg⟩ := addNode_grows hb.tree hb.linked
    (n := ⟨comp, .dir, parent, [], none, 0⟩) hp hdir rfl
  have hnew : partsOf nodes b.next = some (done ++ [comp]) := by
    rw [hg.parts, hparts]
    rfl
  refine ⟨nodes, ha, hg, ⟨hg.tree, hg.linked, hb.root_grow hg, ?_, ?_, ?_,
    hb.blank_grow hg (fun _ => ⟨rfl, rfl⟩)⟩, ?_⟩
  · intro path ino hd
    rw [Table.lookup_insert_if] at hd
    split at hd
    · rename_i he
      cases hd
      exact ⟨_, _, by simp, hprop, he, hnew, hg.new, rfl⟩
    · exact hb.dirs_grow hg hd
  · intro ino m hm hk hroot
    by_cases hi : ino = b.next
    · subst hi
      exact ⟨_, hnew, by rw [AList.lookup_insert], c, hc, hpre, hne⟩
    · obtain ⟨o, ho, hbare, hsame⟩ := hg.before hm hi
      obtain ⟨ps, hps, hl, hin⟩ := hb.known ino o ho ((bare_kind hbare).trans hk) hroot
      refine ⟨ps, hsame.trans hps, ?_, hin⟩
      rw [Table.lookup_insert_if, if_neg, hl]
      intro he
      rw [he, hnone] at hl
      cases hl
  · intro ino m hm hk
    by_cases hi : ino = b.next
    · subst hi
      cases hg.new.symm.trans hm
      cases hk
    · obtain ⟨o, ho, hbare, hsame⟩ := hg.before hm hi
      obtain ⟨c', hc', hps⟩ := hb.files ino o ho ((bare_kind hbare).trans hk)
      exact ⟨c', hc', hsame.trans hps⟩
  · intro hu hfile
    apply hg.unique hu
    intro i hi he
    rcases hb.named hi (by simp) (he.trans hnew) with hf | ⟨hl, _⟩
    · exact hfile hf
    · rw [hnone] at hl
      cases hl

theorem Builder.Built.addFile (hb : b.Built above files) (hp : b.nodes.lookup parent = some p)
    (hdir : p.kind = .dir) (hparts : partsOf b.nodes parent = some done) (comp : String)
    (e : EntryOut) :
    ∃ nodes, addNode b.nodes b.next ⟨comp, .file, parent, [], some e.fileHash, e.size⟩ = some nodes ∧
      Grows b.nodes nodes b.next ⟨comp, .file, parent, [], some e.fileHash, e.size⟩ ∧
      partsOf nodes b.next = some (done ++ [comp]) ∧
      Builder.Built above ((done ++ [comp]) :: files) ⟨nodes, b.dirIno, b.next + 1⟩ ∧
      (Unique b.nodes → done ++ [comp] ∉ files →
        (∀ c ∈ above, done ++ [comp] <+: c → done ++ [comp] = c) → Unique nodes) := by
  obtain ⟨nodes, ha, hg⟩ := addNode_grows hb.tree hb.linked
    (n := ⟨comp, .file, parent, [], some e.fileHash, e.size⟩) hp hdir rfl
  have hnew : partsOf nodes b.next = some (done ++ [comp]) := by
    rw [hg.parts, hparts]
    rfl
  refine ⟨nodes, ha, hg, hnew, ⟨hg.tree, hg.linked, hb.root_grow hg, ?_, ?_, ?_,
    hb.blank_grow hg nofun⟩, ?_⟩
  · exact fun path ino hd => hb.dirs_grow hg hd
  · intro ino m hm hk hroot
    by_cases hi : ino = b.next
    · subst hi
      cases hg.new.symm.trans hm
      cases hk
    · obtain ⟨o, ho, hbare, hsame⟩ := hg.before hm hi
      obtain ⟨ps, hps, hl, hin⟩ := hb.known ino o ho ((bare_kind hbare).trans hk) hroot
      exact ⟨ps, hsame.trans hps, hl, hin⟩
  · intro ino m hm hk
    by_cases hi : ino = b.next
    · subst hi
      exact ⟨_, List.mem_cons_self, hnew⟩
    · obtain ⟨o, ho, hbare, hsame⟩ := hg.before hm hi
      obtain ⟨c', hc', hps⟩ := hb.files ino o ho ((bare_kind hbare).trans hk)
      exact ⟨c', List.mem_cons_of_mem _ hc', hsame.trans hps⟩
  · intro hu hfile hab
    apply hg.unique hu
    intro i hi he
    rcases hb.named hi (by simp) (he.trans hnew) with hf | ⟨_, c, hc, hpre, hne⟩
    · exact hfile hf
    · exact hne (hab c hc hpre)

end

/-- What placing an entry adds to a tree: the file of the entry, last of all. -/
structure Builder.Places (above files : List (List String)) (e : EntryOut) (b b' : Builder) :
    Prop where
  built : b'.Built above (components e.path :: files)
  extends_ : Extends b.nodes b'.nodes
  later : b.next < b'.next
  file : FileOf b'.nodes (b'.next - 1) e
  unique : Unique b.nodes → (∀ f ∈ files, ¬ f <+: components e.path) →
    (∀ c ∈ above, components e.path <+: c → components e.path = c) → Unique b'.nodes

/-- The loop over the components of a path, from a directory that has the names
of the components before. -/
theorem placeAt_places {above files : List (List String)} {e : EntryOut}
    (hc : Proper (components e.path)) (hin : components e.path ∈ above) {rest done : List String}
    {parent : ℕ} {p : Node} {b : Builder} (hsplit : done ++ rest = components e.path)
    (hrest : rest ≠ []) (hb : b.Built above files) (hp : b.nodes.lookup parent = some p)
    (hdir : p.kind = .dir) (hparts : partsOf b.nodes parent = some done) :
    ∃ b', placeAt e rest parent (String.intercalate "/" done) b = some b' ∧
      Builder.Places above files e b b' := by
  induction rest generalizing done parent p b with
  | nil => exact absurd rfl hrest
  | cons comp rest ih =>
    have hpre : done ++ [comp] <+: components e.path := ⟨rest, by rw [← hsplit]; simp⟩
    have hprop := hc.shorter hpre
    have haccum := accum_snoc (hc.shorter ⟨comp :: rest, hsplit⟩) comp
    simp only [placeAt]
    rw [haccum]
    by_cases hr : rest = []
    · subst hr
      rw [if_pos rfl]
      obtain ⟨nodes, ha, hg, hnew, hbuilt, hu⟩ := hb.addFile hp hdir hparts comp e
      rw [hsplit] at hnew hbuilt hu
      refine ⟨_, by rw [ha]; rfl, hbuilt, hg.extends, Nat.lt_succ_self _,
        ⟨hnew, _, hg.new, rfl, rfl, rfl⟩, ?_⟩
      intro huniq hfiles habove
      exact hu huniq (fun hf => hfiles _ hf (List.prefix_refl _)) habove
    · rw [if_neg hr]
      have hne : done ++ [comp] ≠ components e.path := by
        intro he
        rw [← hsplit] at he
        exact hr (by simpa using he)
      have hsplit' : (done ++ [comp]) ++ rest = components e.path := by simpa using hsplit
      cases hd : b.dirIno.lookup (String.intercalate "/" (done ++ [comp])) with
      | some ino =>
        obtain ⟨ps, m, hps, hpp, he, hip, hm, hk⟩ := hb.dirs _ _ hd
        have hsame := Text.intercalate_injective (by simp) hps hprop.1 hpp.1 he
        subst hsame
        exact ih hsplit' hr hb hm hk hip
      | none =>
        obtain ⟨nodes, ha, hg, hbuilt, hu⟩ := hb.addDir hp hdir hparts hprop hin hpre hne hd
        have hnew : partsOf nodes b.next = some (done ++ [comp]) := by
          rw [hg.parts, hparts]
          rfl
        obtain ⟨b', hplace, hpl⟩ := ih hsplit' hr hbuilt hg.new rfl hnew
        refine ⟨b', by rw [ha]; exact hplace, hpl.built, hg.extends.trans hpl.extends_,
          Nat.lt_trans (Nat.lt_succ_self _) hpl.later, hpl.file, ?_⟩
        intro huniq hfiles habove
        exact hpl.unique (hu huniq (fun hf => hfiles _ hf hpre)) hfiles habove

theorem Builder.Built.mono {above above' files : List (List String)} {b : Builder}
    (hb : b.Built above files) (h : ∀ c ∈ above, c ∈ above') : b.Built above' files := by
  refine ⟨hb.tree, hb.linked, hb.root, hb.dirs, ?_, hb.files, hb.blank⟩
  intro ino n hn hk hne
  obtain ⟨ps, hps, hl, c, hc, hrest⟩ := hb.known ino n hn hk hne
  exact ⟨ps, hps, hl, c, h c hc, hrest⟩

theorem placeEntry_places {paths : List (List String)} {e : EntryOut} {b : Builder}
    (he : trimmed e.path ≠ []) (hb : b.Built paths paths) :
    ∃ b', placeEntry b e = some b' ∧
      Builder.Places (components e.path :: paths) paths e b b' := by
  obtain ⟨p, hp, hk⟩ := hb.root
  have hmono : b.Built (components e.path :: paths) paths :=
    hb.mono (fun c hc => List.mem_cons_of_mem _ hc)
  have hsplit : [] ++ components e.path = components e.path := rfl
  obtain ⟨b', hplace, hpl⟩ := placeAt_places (components_proper he) List.mem_cons_self
    hsplit (components_ne_nil _) hmono hp hk partsOf_root
  refine ⟨b', ?_, hpl⟩
  rw [String.intercalate_nil] at hplace
  simp only [placeEntry]
  exact (if_neg he).trans hplace

/-- What placing entries adds to a tree: a file for each of them that has one. -/
structure Builder.Fills (paths : List (List String)) (es : List EntryOut) (b b' : Builder) :
    Prop where
  built : b'.Built ((filePaths es).reverse ++ paths) ((filePaths es).reverse ++ paths)
  extends_ : Extends b.nodes b'.nodes
  later : b.next ≤ b'.next
  files : ∀ p ∈ fileInodes b es, b.next ≤ p.1 ∧ FileOf b'.nodes p.1 p.2
  entries : (fileInodes b es).map Prod.snd = es.filter (fun e => trimmed e.path ≠ [])
  apart : (fileInodes b es).Pairwise (fun p q => p.1 < q.1)
  unique : Unique b.nodes → Separate ((filePaths es).reverse ++ paths) → Unique b'.nodes

theorem placeEntries_fills (es : List EntryOut) {paths : List (List String)} {b : Builder}
    (hb : b.Built paths paths) :
    ∃ b', es.foldlM placeEntry b = some b' ∧ Builder.Fills paths es b b' := by
  induction es generalizing b paths with
  | nil =>
    exact ⟨b, rfl, hb, .refl, Nat.le_refl _, nofun, rfl, .nil, fun hu _ => hu⟩
  | cons e es ih =>
    by_cases he : trimmed e.path = []
    · have hplace : placeEntry b e = some b := if_pos he
      obtain ⟨b', hfold, hf⟩ := ih hb
      have hpaths : filePaths (e :: es) = filePaths es := by simp [filePaths, he]
      have hinodes : fileInodes b (e :: es) = fileInodes b es := by
        simp [fileInodes, hplace, he]
      refine ⟨b', by rw [List.foldlM_cons, hplace]; exact hfold, ?_⟩
      refine ⟨?_, hf.extends_, hf.later, ?_, ?_, ?_, ?_⟩
      · rw [hpaths]
        exact hf.built
      · rw [hinodes]
        exact hf.files
      · rw [hinodes, hf.entries, List.filter_cons_of_neg (by simpa using he)]
      · rw [hinodes]
        exact hf.apart
      · rw [hpaths]
        exact hf.unique
    · obtain ⟨b1, hplace, hpl⟩ := placeEntry_places he hb
      obtain ⟨b', hfold, hf⟩ := ih hpl.built
      have hpaths : (filePaths (e :: es)).reverse ++ paths =
          (filePaths es).reverse ++ components e.path :: paths := by
        simp [filePaths, he]
      have hinodes : fileInodes b (e :: es) = (b1.next - 1, e) :: fileInodes b1 es := by
        simp [fileInodes, hplace, he]
      have hlater := hpl.later
      refine ⟨b', by rw [List.foldlM_cons, hplace]; exact hfold, ?_⟩
      refine ⟨?_, hpl.extends_.trans hf.extends_, by have := hf.later; omega, ?_, ?_, ?_, ?_⟩
      · rw [hpaths]
        exact hf.built
      · rw [hinodes]
        intro q hq
        rcases List.mem_cons.mp hq with rfl | hq
        · exact ⟨by simp only; omega, hf.extends_.fileOf hpl.file⟩
        · exact ⟨Nat.le_trans (Nat.le_of_lt hlater) (hf.files q hq).1, (hf.files q hq).2⟩
      · rw [hinodes, List.map_cons, hf.entries, List.filter_cons_of_pos (by simpa using he)]
      · rw [hinodes]
        refine .cons ?_ hf.apart
        intro q hq
        have := (hf.files q hq).1
        simp only
        omega
      · rw [hpaths]
        intro hu hsep
        have htail := (List.pairwise_append.mp hsep).2.1
        refine hf.unique (hpl.unique hu ?_ ?_) hsep
        · exact fun f hm => ((List.pairwise_cons.mp htail).1 f hm).2
        · intro c hc hpre
          rcases List.mem_cons.mp hc with rfl | hc
          · rfl
          · exact absurd hpre ((List.pairwise_cons.mp htail).1 c hc).1

section
variable {nodes : Table ℕ Node} {next : ℕ}

theorem Linked.ancestor (ht : Tree nodes next) (hl : Linked nodes) {ps qs : List String} {j : ℕ}
    (hj : j ∈ nodes) (hparts : partsOf nodes j = some (ps ++ qs)) (hne : qs ≠ []) :
    ∃ k n, nodes.lookup k = some n ∧ n.kind = .dir ∧ partsOf nodes k = some ps := by
  induction qs using List.reverseRecOn generalizing j with
  | nil => exact absurd rfl hne
  | append_singleton qs x ih =>
    obtain ⟨m, hm⟩ := Table.mem_iff.mp hj
    have hroot : j ≠ Mount.root := by
      rintro rfl
      rw [partsOf_root] at hparts
      simp at hparts
    obtain ⟨rs, hrs, hself⟩ := ht.partsOf_snoc hm hroot
    rw [hparts, ← List.append_assoc, Option.some.injEq] at hself
    obtain ⟨rfl, _⟩ := List.append_inj' hself rfl
    obtain ⟨n, hn, hk, _⟩ := hl.parent j m hm hroot
    by_cases hq : qs = []
    · subst hq
      rw [List.append_nil] at hrs
      exact ⟨m.parent, n, hn, hk, hrs⟩
    · exact ih (Table.mem_of_lookup hn) hrs hq

theorem FileOf.mem {i : ℕ} {e : EntryOut} (h : FileOf nodes i e) : i ∈ nodes := by
  obtain ⟨n, hn, _⟩ := h.node
  exact Table.mem_of_lookup hn

/-- Where names are unique, no file is at or below another one. -/
theorem FileOf.apart (ht : Tree nodes next) (hl : Linked nodes) (hu : Unique nodes) {i j : ℕ}
    {e e' : EntryOut} (hi : FileOf nodes i e) (hj : FileOf nodes j e') (hne : i ≠ j) :
    ¬ components e.path <+: components e'.path := by
  rintro ⟨qs, he⟩
  by_cases hq : qs = []
  · subst hq
    rw [List.append_nil] at he
    exact hne (hu i hi.mem j hj.mem (by rw [hi.parts, hj.parts, he]))
  · obtain ⟨k, n, hn, hk, hparts⟩ := hl.ancestor ht hj.mem (hj.parts.trans (by rw [he])) hq
    obtain rfl := hu k (Table.mem_of_lookup hn) i hi.mem (hparts.trans hi.parts.symm)
    obtain ⟨m, hm, hkind, _⟩ := hi.node
    obtain rfl := Option.some.inj (hn.symm.trans hm)
    rw [hk] at hkind
    cases hkind

end

theorem rootOnly_built : rootOnly.Built [] [] := by
  refine ⟨(rootOnly_ok (fun _ => True)).tree, ⟨?_, ?_, ?_⟩, ⟨_, rfl, rfl⟩, ?_, ?_, ?_, ?_⟩
  · intro d n hd c hc
    rw [(rootOnly_lookup hd).2] at hc
    cases hc
  · intro c m hc hne
    exact absurd (rootOnly_lookup hc).1 hne
  · intro d n hd
    rw [(rootOnly_lookup hd).2]
    exact .nil
  · intro path ino h
    cases h
  · intro i n hn _ hne
    exact absurd (rootOnly_lookup hn).1 hne
  · intro i n hn hk
    rw [(rootOnly_lookup hn).2] at hk
    cases hk
  · intro i n hn _
    rw [(rootOnly_lookup hn).2]
    exact ⟨rfl, rfl⟩

theorem Separate.reverse {paths : List (List String)} (h : Separate paths) :
    Separate paths.reverse :=
  List.pairwise_reverse.mpr (h.imp And.symm)

/-- Connecting builds one file for each entry with a name, and can tell its inodes
apart exactly when no entry is at or below another one. -/
theorem connect_built (volume : String) (entries : List EntryOut) (uid gid : ℕ) :
    ∃ fs, connect volume entries uid gid = some fs ∧ Tree fs.nodes fs.next ∧ Linked fs.nodes ∧
      (∃ n, fs.nodes.lookup root = some n ∧ n.kind = .dir) ∧
      (∀ p ∈ fileInodes rootOnly entries, FileOf fs.nodes p.1 p.2) ∧
      (fileInodes rootOnly entries).map Prod.snd =
        entries.filter (fun e => trimmed e.path ≠ []) ∧
      (Unique fs.nodes ↔ Separate (filePaths entries)) := by
  obtain ⟨b, hb, hf⟩ := placeEntries_fills entries rootOnly_built
  refine ⟨⟨volume, b.nodes, ∅, ∅, b.next, uid, gid⟩, by simp [connect, hb], hf.built.tree,
    hf.built.linked, hf.built.root, fun p hp => (hf.files p hp).2, hf.entries, ?_, ?_⟩
  · intro hu
    unfold filePaths
    rw [← hf.entries, List.map_map]
    refine List.pairwise_map.mpr (hf.apart.imp_of_mem ?_)
    intro p q hp hq hlt
    have hfp := (hf.files p hp).2
    have hfq := (hf.files q hq).2
    exact ⟨hfp.apart hf.built.tree hf.built.linked hu hfq (Nat.ne_of_lt hlt),
      hfq.apart hf.built.tree hf.built.linked hu hfp (Nat.ne_of_gt hlt)⟩
  · intro hsep
    have hone : Unique rootOnly.nodes := by
      intro i hi j hj _
      rw [rootOnly, AList.mem_insert] at hi hj
      rcases hi with rfl | hi
      · rcases hj with rfl | hj
        · rfl
        · exact absurd hj (AList.notMem_empty j)
      · exact absurd hi (AList.notMem_empty i)
    apply hf.unique hone
    rw [List.append_nil]
    exact hsep.reverse

/-- Connecting builds a directory for each list of names above a file, and the root. -/
theorem connect_dirs {volume : String} {entries : List EntryOut} {uid gid : ℕ} {fs : Xetfs}
    (h : connect volume entries uid gid = some fs) :
    (∃ n, fs.nodes.lookup root = some n ∧ n.kind = .dir ∧ n.parent = root) ∧
      (∀ i j n m, fs.nodes.lookup i = some n → n.kind = .dir → fs.nodes.lookup j = some m →
        m.kind = .dir → partsOf fs.nodes i = partsOf fs.nodes j → i = j) ∧
      ∀ ino n, fs.nodes.lookup ino = some n → n.kind = .dir → n.fileHash = none ∧ n.size = 0 ∧
        (ino ≠ root → ∃ ps, partsOf fs.nodes ino = some ps ∧
          ∃ c ∈ filePaths entries, ps <+: c ∧ ps ≠ c) := by
  obtain ⟨b, hb, hf⟩ := placeEntries_fills entries rootOnly_built
  have hfs : connect volume entries uid gid =
      some ⟨volume, b.nodes, ∅, ∅, b.next, uid, gid⟩ := by simp [connect, hb]
  obtain rfl := Option.some.inj (h.symm.trans hfs)
  have hbuilt := hf.built
  rw [List.append_nil] at hbuilt
  obtain ⟨n, hn, hbare⟩ := hf.extends_.lookup (n := ⟨"/", .dir, root, [], none, 0⟩)
    (AList.lookup_insert _)
  simp only [Node.bare, Node.mk.injEq] at hbare
  refine ⟨⟨n, hn, hbare.2.1, hbare.2.2.1⟩, ?_, ?_⟩
  · intro i j n m hi hn hj hm
    exact hbuilt.dir_once hi hj hn hm
  · intro ino n hn hk
    obtain ⟨hhash, hsize⟩ := hbuilt.blank ino n hn hk
    refine ⟨hhash, hsize, fun hne => ?_⟩
    obtain ⟨ps, hps, _, c, hc, hpre⟩ := hbuilt.known ino n hn hk hne
    exact ⟨ps, hps, c, List.mem_reverse.mp hc, hpre⟩

end Dejaveph.Mount

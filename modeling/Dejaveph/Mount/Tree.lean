import Dejaveph.Mount.Xetfs

namespace Dejaveph.Mount
open Lib Server

/-- Every inode but the root hangs below an older one. -/
structure Tree (nodes : Table ℕ Node) (next : ℕ) : Prop where
  root : root ∈ nodes
  below : ∀ ino ∈ nodes, ino < next
  parent : ∀ ino n, nodes.lookup ino = some n → ino ≠ Mount.root →
    n.parent < ino ∧ n.parent ∈ nodes

section
variable {nodes nodes' : Table ℕ Node} {next ino : ℕ} {n : Node}

theorem addNode_spec (hne : n.parent ≠ ino) (h : addNode nodes ino n = some nodes') :
    ∃ p, nodes.lookup n.parent = some p ∧ ∀ i, nodes'.lookup i =
      if i = n.parent then some { p with children := p.children ++ [ino] }
      else if i = ino then some n else nodes.lookup i := by
  obtain ⟨p, hp, rfl⟩ := Option.map_eq_some_iff.mp h
  rw [AList.lookup_insert_ne hne] at hp
  refine ⟨p, hp, ?_⟩
  intro i
  rw [Table.lookup_insert_if, Table.lookup_insert_if]

theorem addNode_total (hne : n.parent ≠ ino) (hp : n.parent ∈ nodes) :
    ∃ nodes', addNode nodes ino n = some nodes' := by
  obtain ⟨p, hp⟩ := Table.mem_iff.mp hp
  simp only [addNode, AList.lookup_insert_ne hne, hp, Option.map_some]
  exact ⟨_, rfl⟩

theorem Tree.addNode (ht : Tree nodes next) (hp : n.parent ∈ nodes)
    (h : addNode nodes next n = some nodes') : Tree nodes' (next + 1) := by
  have hlt := ht.below _ hp
  obtain ⟨p, hlp, hl⟩ := addNode_spec (by omega) h
  have hmem : ∀ i, i ∈ nodes' ↔ i = next ∨ i ∈ nodes := by
    intro i
    rw [Table.mem_iff, Table.mem_iff, hl]
    by_cases hi : i = n.parent
    · subst hi
      simp [hlp]
    · by_cases hn : i = next
      · rw [if_neg hi, if_pos hn]
        exact ⟨fun _ => .inl hn, fun _ => ⟨n, rfl⟩⟩
      · simp [hi, hn]
  have hroot : Mount.root ≠ next := by
    have := ht.below _ ht.root
    omega
  refine ⟨(hmem _).mpr (.inr ht.root), ?_, ?_⟩
  · intro i hi
    rcases (hmem i).mp hi with rfl | hi
    · omega
    · have := ht.below i hi
      omega
  · intro i m hi hne
    rw [hl] at hi
    split at hi
    · rename_i he
      cases hi
      obtain ⟨hpl, hpm⟩ := ht.parent i p (he ▸ hlp) hne
      exact ⟨hpl, (hmem _).mpr (.inr hpm)⟩
    · split at hi
      · rename_i he
        cases hi
        exact ⟨he ▸ hlt, (hmem _).mpr (.inr hp)⟩
      · obtain ⟨hpl, hpm⟩ := ht.parent i m hi hne
        exact ⟨hpl, (hmem _).mpr (.inr hpm)⟩

theorem Tree.pathParts (ht : Tree nodes next) {fuel cur : ℕ} (h : cur < fuel) :
    ∃ parts, Xetfs.pathParts nodes fuel cur = some parts := by
  induction fuel generalizing cur with
  | zero => omega
  | succ fuel ih =>
    by_cases hr : cur = Mount.root
    · exact ⟨[], by simp [Xetfs.pathParts, hr]⟩
    · cases hl : nodes.lookup cur with
      | none => exact ⟨[], by simp [Xetfs.pathParts, hl]⟩
      | some node =>
        have hlt : node.parent < fuel := by
          have := (ht.parent cur node hl hr).1
          omega
        obtain ⟨parts, hp⟩ := ih hlt
        exact ⟨parts ++ [node.name], by simp [Xetfs.pathParts, hr, hl, hp]⟩

end

theorem Tree.fullPath {fs : Xetfs} (ht : Tree fs.nodes fs.next) (ino : ℕ) :
    ∃ path, fs.fullPath ino = some path := by
  obtain ⟨parts, hp⟩ := ht.pathParts (Nat.lt_succ_self ino)
  exact ⟨_, congrArg (Option.map _) hp⟩

/-- The tree under construction: its files have hashes of entries. -/
structure Builder.Ok (p : String → Prop) (b : Builder) : Prop where
  tree : Tree b.nodes b.next
  dirs : ∀ path ino, b.dirIno.lookup path = some ino → ino ∈ b.nodes
  files : ∀ ino n, b.nodes.lookup ino = some n → n.kind = .file →
    ∃ fh, n.fileHash = some fh ∧ p fh

theorem rootOnly_lookup {i : ℕ} {n : Node} (h : rootOnly.nodes.lookup i = some n) :
    i = root ∧ n = ⟨"/", .dir, root, [], none, 0⟩ := by
  rw [rootOnly, Table.lookup_insert_if] at h
  split at h
  · rename_i he
    exact ⟨he, (Option.some.inj h).symm⟩
  · cases h

theorem rootOnly_ok (p : String → Prop) : rootOnly.Ok p := by
  refine ⟨⟨?_, ?_, ?_⟩, ?_, ?_⟩
  · exact (AList.mem_insert _).mpr (.inl rfl)
  · intro i hi
    obtain ⟨n, hn⟩ := Table.mem_iff.mp hi
    rw [(rootOnly_lookup hn).1]
    decide
  · intro i n hn hne
    exact absurd (rootOnly_lookup hn).1 hne
  · intro path ino h
    cases h
  · intro i n hn hk
    rw [(rootOnly_lookup hn).2] at hk
    cases hk

theorem Builder.Ok.add {p : String → Prop} {b : Builder} (hb : b.Ok p) {n : Node}
    (hp : n.parent ∈ b.nodes) (hn : n.kind = .file → ∃ fh, n.fileHash = some fh ∧ p fh) :
    ∃ nodes, addNode b.nodes b.next n = some nodes ∧ b.next ∈ nodes ∧
      (∀ i ∈ b.nodes, i ∈ nodes) ∧ Builder.Ok p { b with nodes, next := b.next + 1 } := by
  have hlt := hb.tree.below _ hp
  have hne : n.parent ≠ b.next := by omega
  obtain ⟨nodes, ha⟩ := addNode_total hne hp
  obtain ⟨q, hq, hl⟩ := addNode_spec hne ha
  have hkeep : ∀ i ∈ b.nodes, i ∈ nodes := by
    intro i hi
    obtain ⟨m, hm⟩ := Table.mem_iff.mp hi
    rw [Table.mem_iff, hl]
    split
    · exact ⟨_, rfl⟩
    · split
      · exact ⟨_, rfl⟩
      · exact ⟨m, hm⟩
  refine ⟨nodes, ha, ?_, hkeep, hb.tree.addNode hp ha, fun path ino h => hkeep _ (hb.dirs path ino h),
    ?_⟩
  · rw [Table.mem_iff, hl, if_neg (Ne.symm hne), if_pos rfl]
    exact ⟨n, rfl⟩
  · intro i m hm hk
    rw [hl] at hm
    split at hm
    · rename_i he
      cases hm
      exact hb.files i q (he ▸ hq) hk
    · split at hm
      · cases hm
        exact hn hk
      · exact hb.files i m hm hk

theorem placeAt_ok {p : String → Prop} {e : EntryOut} (he : p e.fileHash) {comps : List String}
    {parent : ℕ} {accum : String} {b : Builder} (hb : b.Ok p) (hp : parent ∈ b.nodes) :
    ∃ b', placeAt e comps parent accum b = some b' ∧ b'.Ok p := by
  induction comps generalizing parent accum b with
  | nil => exact ⟨b, rfl, hb⟩
  | cons comp rest ih =>
    simp only [placeAt]
    generalize (if accum = "" then accum else accum ++ "/") ++ comp = path
    split
    · obtain ⟨nodes, ha, _, _, hok⟩ := hb.add (n := ⟨comp, .file, parent, [], some e.fileHash, e.size⟩)
        hp (fun _ => ⟨_, rfl, he⟩)
      exact ⟨_, by rw [ha]; rfl, hok⟩
    · split
      · rename_i ino hd
        exact ih hb (hb.dirs _ _ hd)
      · obtain ⟨nodes, ha, hnew, _, hok⟩ := hb.add (n := ⟨comp, .dir, parent, [], none, 0⟩) hp nofun
        rw [ha, Option.bind_some]
        refine ih ⟨hok.tree, ?_, hok.files⟩ hnew
        intro path' ino hd
        rw [Table.lookup_insert_if] at hd
        split at hd
        · cases hd
          exact hnew
        · exact hok.dirs path' ino hd

theorem placeEntries_ok {p : String → Prop} {es : List EntryOut} (hes : ∀ e ∈ es, p e.fileHash)
    {b : Builder} (hb : b.Ok p) : ∃ b', es.foldlM placeEntry b = some b' ∧ b'.Ok p := by
  induction es generalizing b with
  | nil => exact ⟨b, rfl, hb⟩
  | cons e es ih =>
    obtain ⟨b', hb', hok⟩ : ∃ b', placeEntry b e = some b' ∧ b'.Ok p := by
      simp only [placeEntry]
      split
      · exact ⟨b, rfl, hb⟩
      · exact placeAt_ok (hes e (by simp)) hb hb.tree.root
    obtain ⟨b'', hb'', hok'⟩ := ih (fun d hd => hes d (by simp [hd])) hok
    refine ⟨b'', ?_, hok'⟩
    rw [List.foldlM_cons, hb']
    exact hb''

/-- Connecting to a volume builds a tree in which each file has the hash of an
entry, with nothing staged or cached. -/
theorem connect_ok (volume : String) (entries : List EntryOut) (uid gid : ℕ) :
    ∃ fs, connect volume entries uid gid = some fs ∧ fs.volume = volume ∧
      fs.openFiles = ∅ ∧ fs.cache = ∅ ∧ Tree fs.nodes fs.next ∧
      ∀ ino n, fs.nodes.lookup ino = some n → n.kind = .file →
        ∃ e ∈ entries, n.fileHash = some e.fileHash := by
  obtain ⟨b, hb, hok⟩ := placeEntries_ok (p := fun fh => ∃ e ∈ entries, fh = e.fileHash)
    (fun e he => ⟨e, he, rfl⟩) (rootOnly_ok _)
  refine ⟨⟨volume, b.nodes, ∅, ∅, b.next, uid, gid⟩, ?_, rfl, rfl, rfl, hok.tree, ?_⟩
  · simp [connect, hb]
  · intro ino n hn hk
    obtain ⟨fh, hfh, e, he, rfl⟩ := hok.files ino n hn hk
    exact ⟨e, he, hfh⟩

end Dejaveph.Mount

import Dejaveph.Mount.Connect
import Dejaveph.Mount.Served

namespace Dejaveph.Mount
open Lib Server

/-- A name that the kernel can ask for. -/
def ProperName (name : String) : Prop := name ≠ "" ∧ '/' ∉ name.toList

instance (name : String) : Decidable (ProperName name) :=
  inferInstanceAs (Decidable (_ ∧ _))

theorem Proper.snoc {names : List String} {name : String} (h : Proper names)
    (hname : ProperName name) : Proper (names ++ [name]) := by
  refine ⟨?_, ?_⟩
  · intro s hs
    rcases List.mem_append.mp hs with hs | hs
    · exact h.1 s hs
    · rw [List.mem_singleton.mp hs]
      exact hname.2
  · intro s hs
    cases names with
    | nil =>
      obtain rfl := Option.some.inj hs
      exact hname.1
    | cons t ts => exact h.2 s hs

/-- A tree in which the paths tell the files apart, and the directories. -/
structure Apart (nodes : Table ℕ Node) (next : ℕ) : Prop where
  tree : Tree nodes next
  linked : Linked nodes
  kinds : ∀ i j n m, nodes.lookup i = some n → nodes.lookup j = some m → n.kind = m.kind →
    partsOf nodes i = partsOf nodes j → i = j
  proper : ∀ i ∈ nodes, ∀ ps, partsOf nodes i = some ps → Proper ps

section
variable {nodes nodes' : Table ℕ Node} {next : ℕ}

theorem SameShape.linked (h : SameShape nodes nodes') (hl : Linked nodes) : Linked nodes' := by
  have hback : SameShape nodes' nodes := fun i => (h i).symm
  have hnode : ∀ i n', nodes'.lookup i = some n' → ∃ n, nodes.lookup i = some n ∧
      n.kind = n'.kind ∧ n.parent = n'.parent ∧ n.children = n'.children := by
    intro i n' hn'
    obtain ⟨n, hn, hs⟩ := h.lookup hn'
    simp only [Node.shape, Node.mk.injEq] at hs
    exact ⟨n, hn, hs.2.1, hs.2.2.1, hs.2.2.2.1⟩
  refine ⟨?_, ?_, ?_⟩
  · intro d n' hd c hc
    obtain ⟨n, hn, _, _, hch⟩ := hnode d n' hd
    obtain ⟨hne, m, hm, hpar⟩ := hl.child d n hn c (hch ▸ hc)
    obtain ⟨m', hm', hs⟩ := hback.lookup hm
    simp only [Node.shape, Node.mk.injEq] at hs
    exact ⟨hne, m', hm', hs.2.2.1.trans hpar⟩
  · intro c m' hc hne
    obtain ⟨m, hm, _, hpar, _⟩ := hnode c m' hc
    obtain ⟨n, hn, hdir, hmem⟩ := hl.parent c m hm hne
    obtain ⟨n', hn', hs⟩ := hback.lookup hn
    simp only [Node.shape, Node.mk.injEq] at hs
    exact ⟨n', hpar ▸ hn', hs.2.1.trans hdir, by rw [hs.2.2.2.1]; exact hmem⟩
  · intro d n' hd
    obtain ⟨n, hn, _, _, hch⟩ := hnode d n' hd
    exact hch ▸ hl.once d n hn

theorem Apart.sameShape (ha : Apart nodes next) (h : SameShape nodes nodes') :
    Apart nodes' next := by
  have hparts : ∀ i, partsOf nodes' i = partsOf nodes i := fun i => h.outline.pathParts _ _
  refine ⟨h.outline.tree ha.tree, h.linked ha.linked, ?_, ?_⟩
  · intro i j n' m' hi hj hk he
    obtain ⟨n, hn, _, hnk, _⟩ := h.outline.lookup hi
    obtain ⟨m, hm, _, hmk, _⟩ := h.outline.lookup hj
    exact ha.kinds i j n m hn hm (by rw [hnk, hmk, hk]) (by rw [← hparts, ← hparts, he])
  · intro i hi ps hps
    exact ha.proper i (h.outline.mem.mp hi) ps ((hparts i).symm.trans hps)

/-- A name that no child of a directory has makes a path that no inode has. -/
theorem Apart.unused_path (ha : Apart nodes next) {parent : ℕ} {name : String} {p : Node}
    {ps : List String} (hp : nodes.lookup parent = some p) (hdir : p.kind = .dir)
    (hps : partsOf nodes parent = some ps)
    (hnew : ∀ c ∈ p.children, ∀ m, nodes.lookup c = some m → m.name ≠ name) {j : ℕ} {m : Node}
    (hm : nodes.lookup j = some m) : partsOf nodes j ≠ some (ps ++ [name]) := by
  intro he
  have hne : j ≠ root := by
    rintro rfl
    rw [partsOf_root] at he
    simp at he
  obtain ⟨qs, hqs, hself⟩ := ha.tree.partsOf_snoc hm hne
  rw [he, Option.some.injEq] at hself
  obtain ⟨rfl, hlast⟩ := List.append_inj' hself rfl
  obtain ⟨q, hq, hqd, hmem⟩ := ha.linked.parent j m hm hne
  have hsamedir := ha.kinds _ _ q p hq hp (hqd.trans hdir.symm) (hqs.trans hps.symm)
  rw [hsamedir, hp, Option.some.injEq] at hq
  exact hnew j (by rw [hq]; exact hmem) m hm (List.cons.inj hlast).1.symm

theorem Apart.addFile (ha : Apart nodes next) {parent : ℕ} {name : String} {p : Node}
    (hp : nodes.lookup parent = some p) (hdir : p.kind = .dir) (hname : ProperName name)
    (hnew : ∀ c ∈ p.children, ∀ m, nodes.lookup c = some m → m.name ≠ name)
    (hadd : addNode nodes next ⟨name, .file, parent, [], none, 0⟩ = some nodes') :
    Apart nodes' (next + 1) := by
  obtain ⟨nodes'', hadd', hg⟩ := addNode_grows ha.tree ha.linked
    (n := ⟨name, .file, parent, [], none, 0⟩) hp hdir rfl
  obtain rfl := Option.some.inj (hadd.symm.trans hadd')
  obtain ⟨ps, hps⟩ := ha.tree.partsOf_total parent
  have hparts : partsOf nodes' next = some (ps ++ [name]) := by
    rw [hg.parts]
    change (partsOf nodes parent).map _ = _
    rw [hps]
    rfl
  have hfresh : ∀ j m, j ≠ next → nodes'.lookup j = some m →
      partsOf nodes' j ≠ some (ps ++ [name]) := by
    intro j m hj hm
    obtain ⟨o, ho, _, hsame⟩ := hg.before hm hj
    rw [hsame]
    exact ha.unused_path hp hdir hps hnew ho
  refine ⟨hg.tree, hg.linked, ?_, ?_⟩
  · intro i j n m hn hm hk he
    by_cases hi : i = next
    · by_cases hj : j = next
      · rw [hi, hj]
      · rw [hi] at he
        exact absurd (he.symm.trans hparts) (hfresh j m hj hm)
    · by_cases hj : j = next
      · rw [hj] at he
        exact absurd (he.trans hparts) (hfresh i n hi hn)
      · obtain ⟨n', hn', hbn, hpn⟩ := hg.before hn hi
        obtain ⟨m', hm', hbm, hpm⟩ := hg.before hm hj
        exact ha.kinds i j n' m' hn' hm' (by rw [bare_kind hbn, bare_kind hbm, hk])
          (by rw [← hpn, ← hpm, he])
  · intro i hi qs hqs
    by_cases hin : i = next
    · subst hin
      rw [hparts, Option.some.injEq] at hqs
      subst hqs
      exact (ha.proper parent (Table.mem_of_lookup hp) ps hps).snoc hname
    · obtain ⟨n, hn⟩ := Table.mem_iff.mp hi
      obtain ⟨o, ho, _, hsame⟩ := hg.before hn hin
      exact ha.proper i (Table.mem_of_lookup ho) qs (hsame.symm.trans hqs)

end

theorem Apart.fullPath {fs : Xetfs} (ha : Apart fs.nodes fs.next) {i j : ℕ} {n m : Node}
    (hi : fs.nodes.lookup i = some n) (hj : fs.nodes.lookup j = some m) (hk : n.kind = m.kind)
    (he : fs.fullPath i = fs.fullPath j) : i = j := by
  obtain ⟨ps, hps⟩ := ha.tree.partsOf_total i
  obtain ⟨qs, hqs⟩ := ha.tree.partsOf_total j
  have hp := ha.proper i (Table.mem_of_lookup hi) ps hps
  have hq := ha.proper j (Table.mem_of_lookup hj) qs hqs
  rw [partsOf_fullPath hps, partsOf_fullPath hqs, Option.some.injEq,
    String.append_right_inj] at he
  apply ha.kinds i j n m hi hj hk
  rw [hps, hqs]
  by_cases hpn : ps = []
  · by_cases hqn : qs = []
    · rw [hpn, hqn]
    · subst hpn
      exact absurd he.symm (intercalate_ne_empty hqn hq)
  · by_cases hqn : qs = []
    · subst hqn
      exact absurd he (intercalate_ne_empty hpn hp)
    · rw [Text.intercalate_injective hpn hqn hp.1 hq.1 he]

/-- The inode of a file. -/
def FileIn (nodes : Table ℕ Node) (ino : ℕ) : Prop :=
  (nodes.lookup ino).map Node.kind = some .file

section
variable {b b' : Builder} {ino : ℕ}

theorem addNode_fileIn {nodes nodes' : Table ℕ Node} {next : ℕ} {n : Node}
    (h : addNode nodes next n = some nodes') (hf : FileIn nodes' ino) :
    (ino = next ∧ n.kind = .file) ∨ FileIn nodes ino := by
  have hv := congrArg (Option.map (fun v => v.1.2.1)) (addNode_view h ino)
  rw [Option.map_map] at hv
  change (nodes'.lookup ino).map Node.kind = _ at hv
  rw [show (nodes'.lookup ino).map Node.kind = some .file from hf] at hv
  split at hv
  · rename_i hi
    exact .inl ⟨hi, (Option.some.inj hv).symm⟩
  · rw [Option.map_map] at hv
    exact .inr hv.symm

theorem placeAt_fileIn {e : EntryOut} {comps : List String} {parent : ℕ} {accum : String}
    (hne : comps ≠ []) (h : placeAt e comps parent accum b = some b') (hf : FileIn b'.nodes ino) :
    ino = b'.next - 1 ∨ FileIn b.nodes ino := by
  induction comps generalizing parent accum b with
  | nil => exact absurd rfl hne
  | cons comp rest ih =>
    simp only [placeAt] at h
    split at h
    · obtain ⟨nodes, ha, rfl⟩ := Option.map_eq_some_iff.mp h
      rcases addNode_fileIn ha hf with ⟨rfl, _⟩ | hold
      · exact .inl rfl
      · exact .inr hold
    · rename_i hrest
      split at h
      · exact ih hrest h
      · obtain ⟨nodes, ha, h⟩ := Option.bind_eq_some_iff.mp h
        rcases ih hrest h with hlast | hf
        · exact .inl hlast
        · rcases addNode_fileIn ha hf with ⟨_, hk⟩ | hold
          · cases hk
          · exact .inr hold

theorem fileInodes_complete {es : List EntryOut} (h : es.foldlM placeEntry b = some b')
    (hf : FileIn b'.nodes ino) : (∃ e, (ino, e) ∈ fileInodes b es) ∨ FileIn b.nodes ino := by
  induction es generalizing b with
  | nil =>
    cases h
    exact .inr hf
  | cons e es ih =>
    rw [List.foldlM_cons] at h
    obtain ⟨b1, hb1, hes⟩ := Option.bind_eq_some_iff.mp h
    by_cases he : trimmed e.path = []
    · have hsame : b1 = b := by
        have hskip : placeEntry b e = some b := if_pos he
        exact (Option.some.inj (hskip.symm.trans hb1)).symm
      subst hsame
      simp only [fileInodes, hb1, he, ↓reduceIte]
      exact ih hes
    · simp only [fileInodes, hb1, he, ↓reduceIte]
      rcases ih hes with ⟨d, hd⟩ | hf
      · exact .inl ⟨d, List.mem_cons_of_mem _ hd⟩
      · have hplace : placeAt e (components e.path) root "" b = some b1 := by
          rw [placeEntry] at hb1
          exact (if_neg he).symm.trans hb1
        rcases placeAt_fileIn (components_ne_nil _) hplace hf with rfl | hold
        · exact .inl ⟨e, List.mem_cons_self⟩
        · exact .inr hold

end

theorem connect_files {volume : String} {entries : List EntryOut} {uid gid : ℕ} {fs : Xetfs}
    (h : connect volume entries uid gid = some fs) {ino : ℕ} (hi : FileIn fs.nodes ino) :
    ∃ e, (ino, e) ∈ fileInodes rootOnly entries ∧ FileOf fs.nodes ino e := by
  obtain ⟨b, hb, hf⟩ := placeEntries_fills entries rootOnly_built
  have hfs : connect volume entries uid gid =
      some ⟨volume, b.nodes, ∅, ∅, b.next, uid, gid⟩ := by simp [connect, hb]
  obtain rfl := Option.some.inj (h.symm.trans hfs)
  rcases fileInodes_complete hb hi with ⟨e, he⟩ | hroot
  · exact ⟨e, he, (hf.files _ he).2⟩
  · obtain ⟨n, hn, hk⟩ := Option.map_eq_some_iff.mp hroot
    rw [rootOnly, Table.lookup_insert_if] at hn
    split at hn
    · cases hn
      cases hk
    · cases hn

/-- Connecting builds a tree in which the paths tell the files apart, when those of
the entries differ. -/
theorem connect_apart {volume : String} {entries : List EntryOut} {uid gid : ℕ} {fs : Xetfs}
    (h : connect volume entries uid gid = some fs) (hd : (filePaths entries).Nodup) :
    Apart fs.nodes fs.next ∧
      ∀ ino, FileIn fs.nodes ino → ∃ e, (ino, e) ∈ fileInodes rootOnly entries ∧
        FileOf fs.nodes ino e := by
  obtain ⟨b, hb, hf⟩ := placeEntries_fills entries rootOnly_built
  have hfs : connect volume entries uid gid =
      some ⟨volume, b.nodes, ∅, ∅, b.next, uid, gid⟩ := by simp [connect, hb]
  obtain rfl := Option.some.inj (h.symm.trans hfs)
  have hbuilt := hf.built
  rw [List.append_nil] at hbuilt
  have hproper : ∀ c ∈ (filePaths entries).reverse, Proper c := by
    intro c hc
    obtain ⟨e, he, rfl⟩ := List.mem_map.mp (List.mem_reverse.mp hc)
    exact components_proper (by simpa using (List.mem_filter.mp he).2)
  have hfile : ∀ ino, FileIn b.nodes ino →
      ∃ e, (ino, e) ∈ fileInodes rootOnly entries ∧ FileOf b.nodes ino e :=
    fun ino hi => connect_files h hi
  have hpaths : (fileInodes rootOnly entries).map (fun p => components p.2.path) =
      filePaths entries := by
    rw [filePaths, ← hf.entries, List.map_map]
    rfl
  refine ⟨⟨hbuilt.tree, hbuilt.linked, ?_, ?_⟩, hfile⟩
  · intro i j n m hi hj hk he
    cases hn : n.kind with
    | file =>
      obtain ⟨e, hei, hfi⟩ := hfile i (by rw [FileIn, hi, Option.map_some, hn])
      obtain ⟨d, hdj, hfj⟩ := hfile j (by rw [FileIn, hj, Option.map_some, ← hk, hn])
      rw [hfi.parts, hfj.parts, Option.some.injEq] at he
      have hsame := List.inj_on_of_nodup_map (hpaths ▸ hd) hei hdj he
      exact (Prod.mk.inj hsame).1
    | dir =>
      exact hbuilt.dir_once hi hj hn (hk ▸ hn) he
  · intro i hi ps hps
    by_cases hpn : ps = []
    · rw [hpn]
      exact proper_nil
    · rcases hbuilt.named hi hpn hps with hc | ⟨_, c, hc, hpre, _⟩
      · exact hproper ps hc
      · exact (hproper c hc).shorter hpre

end Dejaveph.Mount

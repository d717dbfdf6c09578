import Dejaveph.Mount.Tree

namespace Dejaveph.Mount
open Lib Server

/-- What of a node never changes. -/
def Node.outline (n : Node) : String × Kind × ℕ := (n.name, n.kind, n.parent)

/-- The same inodes with the same names, kinds and parents. -/
def SameOutline (nodes nodes' : Table ℕ Node) : Prop :=
  ∀ i, (nodes'.lookup i).map Node.outline = (nodes.lookup i).map Node.outline

section
variable {nodes nodes' : Table ℕ Node}

theorem SameOutline.lookup (h : SameOutline nodes nodes') {i : ℕ} {n' : Node}
    (hn : nodes'.lookup i = some n') :
    ∃ n, nodes.lookup i = some n ∧ n.name = n'.name ∧ n.kind = n'.kind ∧ n.parent = n'.parent := by
  have hi := h i
  rw [hn, Option.map_some] at hi
  obtain ⟨n, hl, ho⟩ := Option.map_eq_some_iff.mp hi.symm
  simp only [Node.outline, Prod.mk.injEq] at ho
  exact ⟨n, hl, ho.1, ho.2.1, ho.2.2⟩

theorem SameOutline.symm (h : SameOutline nodes nodes') : SameOutline nodes' nodes :=
  fun i => (h i).symm

theorem SameOutline.mem (h : SameOutline nodes nodes') {i : ℕ} : i ∈ nodes' ↔ i ∈ nodes := by
  rw [Table.mem_iff, Table.mem_iff]
  constructor
  · rintro ⟨n, hn⟩
    obtain ⟨m, hm, _⟩ := h.lookup hn
    exact ⟨m, hm⟩
  · rintro ⟨n, hn⟩
    obtain ⟨m, hm, _⟩ := h.symm.lookup hn
    exact ⟨m, hm⟩

theorem SameOutline.tree (h : SameOutline nodes nodes') {next : ℕ} (ht : Tree nodes next) :
    Tree nodes' next := by
  refine ⟨h.mem.mpr ht.root, fun i hi => ht.below i (h.mem.mp hi), ?_⟩
  intro i n hn hne
  obtain ⟨m, hm, _, _, hp⟩ := h.lookup hn
  obtain ⟨hlt, hmem⟩ := ht.parent i m hm hne
  exact ⟨hp ▸ hlt, h.mem.mpr (hp ▸ hmem)⟩

theorem SameOutline.pathParts (h : SameOutline nodes nodes') (fuel cur : ℕ) :
    Xetfs.pathParts nodes' fuel cur = Xetfs.pathParts nodes fuel cur := by
  induction fuel generalizing cur with
  | zero => rfl
  | succ fuel ih =>
    unfold Xetfs.pathParts
    split
    · rfl
    · cases hn : nodes'.lookup cur with
      | none =>
        have hi := h cur
        rw [hn] at hi
        rw [Option.map_eq_none_iff.mp hi.symm]
      | some n' =>
        obtain ⟨n, hl, hname, _, hp⟩ := h.lookup hn
        simp only [hl, ih, hname, hp]

end

/-- A node without its content. -/
def Node.shape (n : Node) : Node := { n with fileHash := none, size := 0 }

/-- The same inodes in the same directories. -/
def SameShape (nodes nodes' : Table ℕ Node) : Prop :=
  ∀ i, (nodes'.lookup i).map Node.shape = (nodes.lookup i).map Node.shape

theorem SameShape.outline {nodes nodes' : Table ℕ Node} (h : SameShape nodes nodes') :
    SameOutline nodes nodes' := by
  intro i
  have hi := congrArg (Option.map Node.outline) (h i)
  rw [Option.map_map, Option.map_map] at hi
  exact hi

theorem SameShape.lookup {nodes nodes' : Table ℕ Node} (h : SameShape nodes nodes') {i : ℕ}
    {n' : Node} (hn : nodes'.lookup i = some n') :
    ∃ n, nodes.lookup i = some n ∧ n.shape = n'.shape := by
  have hi := h i
  rw [hn, Option.map_some] at hi
  exact Option.map_eq_some_iff.mp hi.symm

/-- What adding a node changes, children aside: the node alone. -/
theorem addNode_views {τ : Type} (view : Node → τ)
    (hview : ∀ m children, view { m with children } = view m) {nodes nodes' : Table ℕ Node} {ino : ℕ}
    {n : Node} (h : addNode nodes ino n = some nodes') (i : ℕ) :
    (nodes'.lookup i).map view = if i = ino then some (view n) else (nodes.lookup i).map view := by
  obtain ⟨p, hp, rfl⟩ := Option.map_eq_some_iff.mp h
  rw [Table.lookup_insert_if] at hp ⊢
  by_cases hi : i = n.parent
  · subst hi
    rw [if_pos rfl, Option.map_some, hview]
    split at hp
    · rename_i he
      cases hp
      rw [if_pos he]
    · rename_i he
      rw [if_neg he, hp, Option.map_some]
  · rw [if_neg hi, Table.lookup_insert_if]
    split <;> rfl

theorem addNode_view {nodes nodes' : Table ℕ Node} {ino : ℕ} {n : Node}
    (h : addNode nodes ino n = some nodes') (i : ℕ) :
    (nodes'.lookup i).map (fun m => (m.outline, m.fileHash)) =
      if i = ino then some (n.outline, n.fileHash)
      else (nodes.lookup i).map (fun m => (m.outline, m.fileHash)) :=
  addNode_views _ (fun _ _ => rfl) h i

/-- The parent of every inode is there. -/
structure Closed (nodes : Table ℕ Node) (next : ℕ) : Prop where
  below : ∀ ino ∈ nodes, ino < next
  parent : ∀ ino n, nodes.lookup ino = some n → ino ≠ root → n.parent ∈ nodes

theorem Tree.closed {nodes : Table ℕ Node} {next : ℕ} (ht : Tree nodes next) :
    Closed nodes next :=
  ⟨ht.below, fun ino n hn hne => (ht.parent ino n hn hne).2⟩

section
variable {nodes nodes' : Table ℕ Node} {next : ℕ} {n : Node}

theorem SameOutline.closed (h : SameOutline nodes nodes') (hc : Closed nodes next) :
    Closed nodes' next := by
  refine ⟨fun i hi => hc.below i (h.mem.mp hi), ?_⟩
  intro i n hn hne
  obtain ⟨m, hm, _, _, hp⟩ := h.lookup hn
  exact h.mem.mpr (hp ▸ hc.parent i m hm hne)

theorem addNode_mem (h : addNode nodes next n = some nodes') {i : ℕ} :
    i ∈ nodes' ↔ i = next ∨ i ∈ nodes := by
  have hv := congrArg Option.isSome (addNode_view h i)
  rw [Option.isSome_map] at hv
  rw [← AList.lookup_isSome, ← AList.lookup_isSome, hv]
  split
  · rename_i hi
    simp [hi]
  · rename_i hi
    simp [hi]

theorem addNode_parent (h : addNode nodes next n = some nodes') :
    n.parent = next ∨ n.parent ∈ nodes := by
  obtain ⟨p, hp, _⟩ := Option.map_eq_some_iff.mp h
  exact (AList.mem_insert _).mp (Table.mem_of_lookup hp)

theorem Closed.addNode (hc : Closed nodes next) (h : Mount.addNode nodes next n = some nodes') :
    Closed nodes' (next + 1) := by
  constructor
  · intro i hi
    rcases (addNode_mem h).mp hi with rfl | hi
    · omega
    · have := hc.below i hi
      omega
  · intro i m hm hne
    have hv := addNode_view h i
    rw [hm, Option.map_some] at hv
    split at hv
    · have hp : m.parent = n.parent := by
        simp only [Option.some.injEq, Prod.mk.injEq, Node.outline] at hv
        exact hv.1.2.2
      rw [hp]
      exact (addNode_mem h).mpr (addNode_parent h)
    · obtain ⟨q, hq, ho⟩ := Option.map_eq_some_iff.mp hv.symm
      simp only [Prod.mk.injEq, Node.outline] at ho
      rw [← ho.1.2.2]
      exact (addNode_mem h).mpr (.inr (hc.parent i q hq hne))

theorem Closed.pathParts (hc : Closed nodes next) (h : Mount.addNode nodes next n = some nodes')
    (fuel : ℕ) {cur : ℕ} (hne : cur ≠ next) :
    Xetfs.pathParts nodes' fuel cur = Xetfs.pathParts nodes fuel cur := by
  induction fuel generalizing cur with
  | zero => rfl
  | succ fuel ih =>
    have hv := addNode_view h cur
    rw [if_neg hne] at hv
    unfold Xetfs.pathParts
    split
    · rfl
    · rename_i hr
      cases hl : nodes.lookup cur with
      | none =>
        rw [hl] at hv
        rw [Option.map_eq_none_iff.mp hv]
      | some m =>
        rw [hl, Option.map_some] at hv
        obtain ⟨m', hm', ho⟩ := Option.map_eq_some_iff.mp hv
        simp only [Prod.mk.injEq, Node.outline] at ho
        have hp : m.parent ≠ next := by
          have := hc.below _ (hc.parent cur m hl hr)
          omega
        simp only [hm', ho.1.1, ho.1.2.2, ih hp]

end

theorem SameOutline.fullPath {fs fs' : Xetfs} (h : SameOutline fs.nodes fs'.nodes) (ino : ℕ) :
    fs'.fullPath ino = fs.fullPath ino :=
  congrArg (Option.map _) (h.pathParts _ _)

namespace Xetfs
variable {fs : Xetfs} {σ : Type} {agent : XetAgent σ} {server : σ} {ino : ℕ}

theorem modifyNode_lookup (f : Node → Node) (i : ℕ) : (fs.modifyNode ino f).nodes.lookup i =
    if i = ino then (fs.nodes.lookup ino).map f else fs.nodes.lookup i := by
  unfold modifyNode
  split
  · rename_i hn
    split
    · rename_i he
      rw [he, hn]
      rfl
    · rfl
  · rename_i n hn
    rw [Table.lookup_insert_if, hn]
    rfl

theorem modifyNode_view {τ : Type} {view : Node → τ} {f : Node → Node}
    (hf : ∀ n, view (f n) = view n) (i : ℕ) :
    ((fs.modifyNode ino f).nodes.lookup i).map view = (fs.nodes.lookup i).map view := by
  rw [modifyNode_lookup]
  split
  · rename_i he
    subst he
    rw [Option.map_map]
    exact Option.map_congr (fun n _ => hf n)
  · rfl

theorem modifyNode_outline {f : Node → Node} (hf : ∀ n, (f n).outline = n.outline) :
    SameOutline fs.nodes (fs.modifyNode ino f).nodes :=
  modifyNode_view hf

theorem modifyNode_shape {f : Node → Node} (hf : ∀ n, (f n).shape = n.shape) :
    SameShape fs.nodes (fs.modifyNode ino f).nodes :=
  modifyNode_view hf

@[simp] theorem modifyNode_openFiles (f : Node → Node) :
    (fs.modifyNode ino f).openFiles = fs.openFiles := by
  unfold modifyNode
  split <;> rfl

@[simp] theorem modifyNode_cache (f : Node → Node) : (fs.modifyNode ino f).cache = fs.cache := by
  unfold modifyNode
  split <;> rfl

@[simp] theorem modifyNode_next (f : Node → Node) : (fs.modifyNode ino f).next = fs.next := by
  unfold modifyNode
  split <;> rfl

@[simp] theorem modifyNode_volume (f : Node → Node) :
    (fs.modifyNode ino f).volume = fs.volume := by
  unfold modifyNode
  split <;> rfl

/-- The content hash of an inode. -/
def hashOf (fs : Xetfs) (ino : ℕ) : Option String := (fs.nodes.lookup ino).bind Node.fileHash

theorem modifyNode_hashOf {f : Node → Node} (hf : ∀ n, (f n).fileHash = n.fileHash) (i : ℕ) :
    (fs.modifyNode ino f).hashOf i = fs.hashOf i := by
  rw [hashOf, modifyNode_lookup]
  split
  · rename_i he
    subst he
    rw [hashOf, Option.bind_map]
    exact Option.bind_congr (fun n _ => hf n)
  · rfl

theorem fileBytes_frame :
    ∃ cache, (fs.fileBytes agent server ino).2 = { fs with cache := cache } := by
  unfold fileBytes
  repeat' split
  all_goals exact ⟨_, rfl⟩

theorem read_frame (offset : ℤ) (size : ℕ) :
    ∃ cache, (fs.read agent server ino offset size).1 = { fs with cache := cache } := by
  obtain ⟨cache, hc⟩ : ∃ cache,
    (fs.fileBytes agent server ino).2 = { fs with cache := cache } := fileBytes_frame
  unfold read
  split
  · exact ⟨fs.cache, rfl⟩
  · split <;> rename_i hb <;> rw [hb] at hc <;> exact ⟨cache, hc⟩

theorem read_openFiles (offset : ℤ) (size : ℕ) :
    (fs.read agent server ino offset size).1.openFiles = fs.openFiles := by
  obtain ⟨cache, hc⟩ : ∃ cache, (fs.read agent server ino offset size).1 =
    { fs with cache := cache } := read_frame offset size
  rw [hc]

theorem ensureStaging_frame : ∃ openFiles cache,
    (fs.ensureStaging agent server ino).2 = { fs with openFiles := openFiles, cache := cache } ∧
      ∀ i, i ≠ ino → openFiles.lookup i = fs.openFiles.lookup i := by
  unfold ensureStaging
  split
  · exact ⟨_, _, rfl, fun _ _ => rfl⟩
  · obtain ⟨cache, hc⟩ : ∃ cache,
        (fs.fileBytes agent server ino).2 = { fs with cache := cache } := fileBytes_frame
    generalize fs.fileBytes agent server ino = r at hc
    obtain ⟨bytes, fs'⟩ := r
    simp only at hc
    subst hc
    exact ⟨_, _, rfl, fun i hi => AList.lookup_insert_ne hi⟩

theorem fileBytes_cache {i : ℕ} {c : Bytes}
    (h : (fs.fileBytes agent server ino).2.cache.lookup i = some c) :
    fs.cache.lookup i = some c ∨
      ∃ fh, fs.hashOf i = some fh ∧ agent.reconstruct fh server = .ok c := by
  unfold fileBytes at h
  split at h
  · exact .inl h
  · split at h
    · exact .inl h
    · rename_i fh hfh
      split at h
      · exact .inl h
      · rename_i bytes hrec
        rw [Table.lookup_insert_if] at h
        split at h
        · rename_i hi
          cases h
          exact .inr ⟨fh, hi ▸ hfh, hrec⟩
        · exact .inl h

theorem ensureStaging_cache {i : ℕ} {c : Bytes}
    (h : (fs.ensureStaging agent server ino).2.cache.lookup i = some c) :
    fs.cache.lookup i = some c ∨
      ∃ fh, fs.hashOf i = some fh ∧ agent.reconstruct fh server = .ok c := by
  unfold ensureStaging at h
  split at h
  · exact .inl h
  · exact fileBytes_cache h

theorem read_cache {offset : ℤ} {size i : ℕ} {c : Bytes}
    (h : (fs.read agent server ino offset size).1.cache.lookup i = some c) :
    fs.cache.lookup i = some c ∨
      ∃ fh, fs.hashOf i = some fh ∧ agent.reconstruct fh server = .ok c := by
  unfold read at h
  split at h
  · exact .inl h
  · split at h <;> rename_i hb <;> exact fileBytes_cache (by rw [hb]; exact h)

/-- The inode has a dirty staging buffer. -/
def isDirty (fs : Xetfs) (ino : ℕ) : Bool := (fs.openFiles.lookup ino).any Staging.dirty

/-- A file is created with an empty, dirty staging buffer. -/
structure Creates (fs fs' : Xetfs) (parent : ℕ) (name : String) : Prop where
  added : addNode fs.nodes fs.next ⟨name, .file, parent, [], none, 0⟩ = some fs'.nodes
  next : fs'.next = fs.next + 1
  volume : fs'.volume = fs.volume
  cache : fs'.cache = fs.cache
  files : ∀ i, fs'.openFiles.lookup i =
    if i = fs.next then some ⟨[], true⟩ else fs.openFiles.lookup i

theorem create_new {parent : ℕ} {name : String} {nodes : Table ℕ Node}
    (hnew : fs.childNamed parent name = none)
    (ha : addNode fs.nodes fs.next ⟨name, .file, parent, [], none, 0⟩ = some nodes) :
    ∃ fs' a, fs.create parent name = some (fs', .created a) ∧ a.ino = fs.next ∧
      Creates fs fs' parent name := by
  have hview := addNode_view ha fs.next
  rw [if_pos rfl] at hview
  obtain ⟨n, hn, _⟩ := Option.map_eq_some_iff.mp hview
  simp only [create, hnew, ha, Option.map_some, Option.bind_eq_bind, Option.bind_some, attr, hn]
  exact ⟨_, _, rfl, rfl, ha, rfl, rfl, rfl, fun i => Table.lookup_insert_if ..⟩

/-- One inode gets a dirty staging buffer. -/
structure Stages (fs fs' : Xetfs) (ino : ℕ) (buf : Bytes) : Prop where
  outline : SameOutline fs.nodes fs'.nodes
  hashes : ∀ i, fs'.hashOf i = fs.hashOf i
  next : fs'.next = fs.next
  volume : fs'.volume = fs.volume
  files : ∀ i, fs'.openFiles.lookup i =
    if i = ino then some ⟨buf, true⟩ else fs.openFiles.lookup i

theorem stages_resized {buf : Bytes} {size : ℕ} :
    Stages fs (modifyNode { (fs.ensureStaging agent server ino).2 with
        openFiles := (fs.ensureStaging agent server ino).2.openFiles.insert ino ⟨buf, true⟩ } ino
      (fun n => { n with size := size })) ino buf := by
  obtain ⟨files, cache, hfs, hother⟩ : ∃ files cache, (fs.ensureStaging agent server ino).2 =
      { fs with openFiles := files, cache := cache } ∧
        ∀ i, i ≠ ino → files.lookup i = fs.openFiles.lookup i := ensureStaging_frame
  rw [hfs]
  refine ⟨modifyNode_outline (fun _ => rfl), modifyNode_hashOf (fun _ => rfl), ?_, ?_, ?_⟩
  · simp
  · simp
  · intro i
    simp only [modifyNode_openFiles, Table.lookup_insert_if]
    split
    · rfl
    · rename_i hi
      exact hother i hi

theorem resized_shape {openFiles : Table ℕ Staging} {size : ℕ} :
    SameShape fs.nodes (modifyNode { (fs.ensureStaging agent server ino).2 with openFiles } ino
      (fun n => { n with size := size })).nodes := by
  obtain ⟨files, cache, hfs, _⟩ : ∃ files cache, (fs.ensureStaging agent server ino).2 =
      { fs with openFiles := files, cache := cache } ∧
        ∀ i, i ≠ ino → files.lookup i = fs.openFiles.lookup i := ensureStaging_frame
  rw [hfs]
  exact modifyNode_shape (fun _ => rfl)

theorem write_stages (offset : ℤ) (data : Bytes) :
    Stages fs (fs.write agent server ino offset data).1 ino
      (written (fs.ensureStaging agent server ino).1.buf offset.toNat data) :=
  stages_resized

theorem setattr_stages (size : ℕ) :
    Stages fs (fs.setattr agent server ino (some size)).1 ino
      (resize (fs.ensureStaging agent server ino).1.buf size) :=
  stages_resized

theorem write_cache (offset : ℤ) (data : Bytes) :
    (fs.write agent server ino offset data).1.cache =
      (fs.ensureStaging agent server ino).2.cache :=
  modifyNode_cache _

theorem setattr_cache (size : ℕ) : (fs.setattr agent server ino (some size)).1.cache =
    (fs.ensureStaging agent server ino).2.cache :=
  modifyNode_cache _

theorem setattr_reply {size : Option ℕ} {a : FileAttr}
    (ha : (fs.setattr agent server ino size).1.attr ino = some a) :
    (fs.setattr agent server ino size).2 = .attr a := by
  simp only [setattr] at ha ⊢
  rw [ha]

/-- One inode's staging buffer has become its content. -/
structure Flushes (fs fs' : Xetfs) (ino : ℕ) (buf : Bytes) (fh : String) : Prop where
  outline : SameOutline fs.nodes fs'.nodes
  hashes : ∀ i, fs'.hashOf i =
    if i = ino then (fs.nodes.lookup ino).map (fun _ => fh) else fs.hashOf i
  next : fs'.next = fs.next
  volume : fs'.volume = fs.volume
  files : ∀ i, fs'.openFiles.lookup i =
    if i = ino then some ⟨buf, false⟩ else fs.openFiles.lookup i
  cache : ∀ i, fs'.cache.lookup i = if i = ino then none else fs.cache.lookup i

theorem Flushes.hashOf {fs' : Xetfs} {b : Bytes} {fh : String} (h : Flushes fs fs' ino b fh)
    (hm : ino ∈ fs.nodes) : fs'.hashOf ino = some fh := by
  obtain ⟨n, hn⟩ := Table.mem_iff.mp hm
  rw [h.hashes, if_pos rfl, hn, Option.map_some]

theorem ingested_flushes (st : Staging) (fh : String) :
    Flushes fs ((fs.markClean ino st).ingested ino fh st.buf.length) ino st.buf fh := by
  refine ⟨modifyNode_outline (fun _ => rfl), ?_, modifyNode_next _, modifyNode_volume _, ?_, ?_⟩
  · intro i
    change ((modifyNode _ ino _).nodes.lookup i).bind Node.fileHash = _
    rw [modifyNode_lookup]
    split
    · rw [Option.bind_map]
      change (fs.nodes.lookup ino).bind _ = _
      cases fs.nodes.lookup ino <;> rfl
    · rfl
  · intro i
    change (modifyNode _ ino _).openFiles.lookup i = _
    rw [modifyNode_openFiles, markClean, Table.lookup_insert_if]
  · intro i
    change ((modifyNode _ ino _).cache.erase ino).lookup i = _
    rw [modifyNode_cache, Table.lookup_erase_if]
    rfl

theorem flushIfDirty_ok {st : Staging} {path fh : String} {server' : σ}
    (hs : fs.openFiles.lookup ino = some st) (hd : st.dirty = true)
    (hpath : fs.fullPath ino = some path)
    (hingest : agent.ingestBytes fs.volume path st.buf server = (.ok fh, server')) :
    ∃ fs', fs.flushIfDirty agent server ino = some (fs', server') ∧
      Flushes fs fs' ino st.buf fh := by
  refine ⟨_, ?_, ingested_flushes st fh⟩
  simp only [flushIfDirty, hs, hd, ↓reduceIte, flushBytes]
  change (fs.fullPath ino).map _ = _
  simp only [hpath, Option.map_some, markClean, hingest]

theorem flushIfDirty_clean (h : ∀ st, fs.openFiles.lookup ino = some st → st.dirty = false) :
    fs.flushIfDirty agent server ino = some (fs, server) := by
  unfold flushIfDirty
  split
  · rename_i st hs
    rw [h st hs]
    rfl
  · rfl

/-- A flush does nothing, or hands the staged bytes to the server, which takes them
or not. -/
theorem flushIfDirty_cases {fs' : Xetfs} {server' : σ}
    (h : fs.flushIfDirty agent server ino = some (fs', server')) :
    (fs' = fs ∧ server' = server ∧
      ∀ st, fs.openFiles.lookup ino = some st → st.dirty = false) ∨
    ∃ st path result, fs.openFiles.lookup ino = some st ∧ st.dirty = true ∧
      fs.fullPath ino = some path ∧
      agent.ingestBytes fs.volume path st.buf server = (result, server') ∧
      fs' = match result with
        | .ok fh => (fs.markClean ino st).ingested ino fh st.buf.length
        | .error _ => fs.markClean ino st := by
  unfold flushIfDirty at h
  split at h
  · rename_i st hs
    split at h
    · rename_i hd
      obtain ⟨path, hpath, he⟩ := Option.map_eq_some_iff.mp h
      refine .inr ⟨st, path, (agent.ingestBytes fs.volume path st.buf server).1, hs, hd, hpath, ?_⟩
      split at he
      · rename_i fh server'' hi
        change agent.ingestBytes fs.volume path st.buf server = _ at hi
        cases he
        exact ⟨by rw [hi], by rw [hi]⟩
      · rename_i e server'' hi
        change agent.ingestBytes fs.volume path st.buf server = _ at hi
        cases he
        exact ⟨by rw [hi], by rw [hi]⟩
    · rename_i hd
      cases h
      refine .inl ⟨rfl, rfl, ?_⟩
      intro st' hs'
      rw [← Option.some.inj (hs.symm.trans hs')]
      exact Bool.eq_false_iff.mpr hd
  · rename_i hs
    cases h
    exact .inl ⟨rfl, rfl, fun st hs' => by rw [hs] at hs'; cases hs'⟩

theorem flushIfDirty_files {fs' : Xetfs} {server' : σ}
    (h : fs.flushIfDirty agent server ino = some (fs', server')) (i : ℕ) :
    fs'.openFiles.lookup i = if i = ino
      then (fs.openFiles.lookup ino).map (fun st => { st with dirty := false })
      else fs.openFiles.lookup i := by
  obtain ⟨rfl, _, hclean⟩ | ⟨st, path, result, hs, _, _, _, rfl⟩ := flushIfDirty_cases h
  · split
    · rename_i hi
      rw [hi]
      cases hs : fs'.openFiles.lookup ino with
      | none => rfl
      | some st =>
        rw [Option.map_some, ← hclean st hs]
    · rfl
  · have hm : (fs.markClean ino st).openFiles.lookup i =
        if i = ino then some { st with dirty := false } else fs.openFiles.lookup i :=
      Table.lookup_insert_if ..
    rw [hs, Option.map_some, ← hm]
    cases result with
    | ok fh => exact congrArg (AList.lookup i) (modifyNode_openFiles _)
    | error e => rfl

/-- Creating a name that is not there adds a file. -/
theorem create_absent {parent : ℕ} {name : String} {fs' : Xetfs} {reply : Reply}
    (hnew : fs.childNamed parent name = none) (h : fs.create parent name = some (fs', reply)) :
    ∃ a, reply = .created a ∧ a.ino = fs.next ∧ Creates fs fs' parent name := by
  obtain ⟨nodes, ha⟩ : ∃ nodes,
      addNode fs.nodes fs.next ⟨name, .file, parent, [], none, 0⟩ = some nodes := by
    rw [← Option.isSome_iff_exists, ← Option.ne_none_iff_isSome]
    intro hn
    simp [create, hnew, hn] at h
  obtain ⟨fs'', a, hcreate, hino, hcr⟩ := create_new hnew ha
  cases h.symm.trans hcreate
  exact ⟨a, rfl, hino, hcr⟩

/-- Creating a name that is there stages its inode with no bytes, and leaves the
node as it is. -/
theorem create_present {parent i : ℕ} {name : String} {fs' : Xetfs} {reply : Reply}
    (hold : fs.childNamed parent name = some i) (h : fs.create parent name = some (fs', reply)) :
    ∃ a, reply = .created a ∧ a.ino = i ∧
      fs' = { fs with openFiles := fs.openFiles.insert i ⟨[], true⟩ } := by
  obtain ⟨n, hn⟩ : ∃ n, fs.nodes.lookup i = some n := by
    have hany := List.find?_some hold
    exact (Option.any_eq_true _ _).mp hany |>.imp (fun _ => And.left)
  simp only [create, hold, Option.bind_eq_bind, Option.bind_some, attr, hn, Option.map_some] at h
  cases h
  exact ⟨_, rfl, rfl, rfl⟩

theorem insert_stages (i : ℕ) :
    Stages fs { fs with openFiles := fs.openFiles.insert i ⟨[], true⟩ } i [] :=
  ⟨fun _ => rfl, fun _ => rfl, rfl, rfl, fun _ => Table.lookup_insert_if ..⟩

theorem create_cache {parent : ℕ} {name : String} {fs' : Xetfs} {reply : Reply}
    (h : fs.create parent name = some (fs', reply)) : fs'.cache = fs.cache := by
  cases hc : fs.childNamed parent name with
  | none =>
    obtain ⟨_, _, _, hcr⟩ := create_absent hc h
    exact hcr.cache
  | some i =>
    obtain ⟨_, _, _, rfl⟩ := create_present hc h
    rfl

theorem create_cases {parent : ℕ} {name : String} {fs' : Xetfs} {reply : Reply}
    (h : fs.create parent name = some (fs', reply)) :
    ∃ a, reply = .created a ∧ (Stages fs fs' a.ino [] ∨
      a.ino = fs.next ∧ Creates fs fs' parent name) := by
  cases hc : fs.childNamed parent name with
  | none =>
    obtain ⟨a, ha, hino, hcr⟩ := create_absent hc h
    exact ⟨a, ha, .inr ⟨hino, hcr⟩⟩
  | some i =>
    obtain ⟨a, ha, rfl, rfl⟩ := create_present hc h
    exact ⟨a, ha, .inl (insert_stages a.ino)⟩

end Xetfs

end Dejaveph.Mount

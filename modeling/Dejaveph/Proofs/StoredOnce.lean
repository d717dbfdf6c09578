import Dejaveph.Proofs.IngestSucceeds

namespace Dejaveph.Proofs.StoredOnce
open Lib Server Agent DedupSound RegisteredTerms StoredXorbs RoundTrip DistinctChunks Layout AtRest
  IngestSucceeds

variable {Hash β : Type} {core : XetCore Hash}

theorem distinct_hashes (pipe : core.PipelineLaws) {b : Bytes} (h : Distinct core b) :
    ((core.nextBlock b).map Chunk.hash).Nodup :=
  h.map_on (fun c hc d hd he =>
    hashed_eq pipe (pipe.chunk_hash b c hc) (pipe.chunk_hash b d hd) he)

section
variable {idx idx' : Index Hash}

/-- What a call has missed is still missing. -/
def Missing (idx : Index Hash) (locs : List (Chunk Hash × Option Agent.ChunkLoc)) : Prop :=
  ∀ p ∈ locs, p.2 = none → p.1.hash ∉ idx.chunkIndex

/-- No chunk that a call is to upload is in the dedup index. -/
def Fresh (idx : Index Hash) : Stage Hash → Prop
  | .query locs _ => Missing idx locs
  | .walk _ rest => Missing idx rest
  | .upload _ group _ rest => (∀ c ∈ group, c.hash ∉ idx.chunkIndex) ∧ Missing idx rest
  | .register _ | .finished _ => True

theorem Missing.subset {locs locs' : List (Chunk Hash × Option Agent.ChunkLoc)}
    (h : Missing idx locs) (hs : locs' ⊆ locs) : Missing idx locs' :=
  fun p hp => h p (hs hp)

theorem compute_fresh {stage stage' : Stage Hash} (h : Fresh idx stage)
    (hc : compute core stage = some stage') : Fresh idx stage' := by
  cases stage with
  | query locs todo =>
    cases todo with
    | nil =>
      cases hc
      exact h
    | cons c todo => cases hc
  | walk terms rest =>
    cases hc
    cases rest with
    | nil => trivial
    | cons p rest =>
      obtain ⟨c, loc⟩ := p
      cases loc with
      | some loc =>
        obtain ⟨xorb, i⟩ := loc
        have hs := (takeHits_rest xorb (i + 1) rest).subset
        exact Missing.subset h (fun q hq => List.mem_cons_of_mem _ (hs hq))
      | none =>
        obtain ⟨taken, hcut, _, hgroup, hnone, _⟩ := novelGroup_cut c rest
        have hmissing : Missing idx (taken ++ (novelGroup c rest).2) := hcut ▸ h
        simp only [walkRun, packNovel]
        split
        · trivial
        · refine ⟨fun d hd => ?_, hmissing.subset (fun q hq => List.mem_append_right _ hq)⟩
          rw [← hgroup] at hd
          obtain ⟨q, hq, rfl⟩ := List.mem_map.mp hd
          exact hmissing q (List.mem_append_left _ hq) (hnone q hq)
  | upload | register | finished => cases hc

end

variable [DecidableEq Hash]

/-- The stored bytes of `x` have at `i` the chunk of this hash. -/
def Holds (core : XetCore Hash) (fs : LocalFs Hash) (x : Hash) (i : ℕ)
    (h : Hash) : Prop :=
  ∃ body info, fs.files.lookup x = some body ∧ core.validateXorbObject body x = .ok (some info) ∧
    info.chunkHashes[i]? = some h

/-- The dedup index has each chunk of each indexed xorb where it is. -/
def Locating (core : XetCore Hash) (idx : Index Hash) : Prop :=
  ∀ x ∈ idx.xorbs, ∀ info, core.Commits x info → ∀ i h, info.chunkHashes[i]? = some h →
    ∃ loc, idx.chunkIndex.lookup h = some loc ∧ loc.xorb = x ∧ loc.index.toNat = i

section
variable {idx idx' : Index Hash} {x : Hash} {info : XorbObjectInfoV1 Hash}

theorem indexed_chunks (h : indexXorb idx x info = some idx') {k : Hash}
    (hk : k ∈ idx'.chunkIndex) : k ∈ idx.chunkIndex ∨ k ∈ info.chunkHashes := by
  obtain ⟨_, _, _, hm⟩ := indexXorb_spec h
  obtain ⟨loc, hl⟩ := Table.mem_iff.mp hk
  obtain hold | ⟨j, _, _, hj, _⟩ := Index.indexChunksFrom_new rfl hm hl
  · exact .inl (Table.mem_of_lookup hold)
  · exact .inr (List.mem_of_getElem? hj)

/-- A xorb of chunks that are stored nowhere is indexed. -/
theorem Locating.indexXorb (gate : core.GateLaws) (hi : Locating core idx)
    (hc : core.Commits x info) (h : indexXorb idx x info = some idx')
    (fresh : ∀ k ∈ info.chunkHashes, k ∉ idx.chunkIndex) (once : info.chunkHashes.Nodup) :
    Locating core idx' := by
  obtain ⟨hxorbs, _, _, hm⟩ := indexXorb_spec h
  intro y hy info' hc' i k hk
  rw [hxorbs] at hy
  rcases Table.mem_orInsert.mp hy with rfl | hy
  · rw [(gate.one_list _ _ _ hc' hc).1] at hk
    have hin := List.mem_of_getElem? hk
    obtain ⟨loc, hl⟩ := Table.mem_iff.mp (Index.indexChunksFrom_covers hm hin)
    obtain hold | ⟨j, _, _, hj, _, _, _, rfl⟩ := Index.indexChunksFrom_new rfl hm hl
    · exact absurd (Table.mem_of_lookup hold) (fresh k hin)
    · have hlt := (List.getElem?_eq_some_iff.mp hj).1
      obtain rfl : j = i := (List.getElem?_inj hlt once).mp (hj.trans hk.symm)
      rw [(gate.well_formed _ _ hc).hashes] at hlt
      refine ⟨_, hl, rfl, ?_⟩
      rw [Nat.zero_add]
      exact UInt32.toNat_ofNat_of_lt' (Nat.lt_trans hlt info.numChunks.toNat_lt)
  · obtain ⟨loc, hl, hloc⟩ := hi y hy info' hc' i k hk
    exact ⟨loc, Index.indexChunksFrom_keeps hm hl, hloc⟩

/-- A sweep of the garbage leaves each kept chunk its entry. -/
theorem Locating.sweep {order : List Hash} (hi : Locating core idx)
    (all : order.Perm idx.xorbs.keys) : Locating core (sweep idx (garbage idx order)) := by
  intro y hy info hc i k hk
  obtain ⟨hm, hr⟩ := (mem_collected all).mp hy
  obtain ⟨loc, hl, rfl, hloc⟩ := hi y hm info hc i k hk
  refine ⟨loc, ?_, rfl, hloc⟩
  rw [sweep_chunkIndex, hl, Option.filter_eq_some_iff]
  exact ⟨rfl, decide_eq_true (fun hg => ((mem_garbage all).mp hg).2 hr)⟩

end

section
variable {store : BlobStore Hash β} {P : Choice Hash → Prop} {app app' : AppState Hash β}
  {job : Job} {stage : Stage Hash} {a : Answer}

theorem completes_dedup {h : Hash} (hc : Completes core store P app (.dedupLock h) a app') :
    a = .globalDedup (dedupAnswer core (app.index.chunkIndex.lookup h)) ∧
      app'.index = app.index := by
  obtain ⟨c, p, _, hp, hc⟩ := completes_next rfl hc
  obtain ⟨_, hc⟩ := completes_lock (Option.some.inj hp) hc
  obtain ⟨rfl, rfl⟩ := completes_reply hc
  exact ⟨rfl, rfl⟩

/-- What a request of a call does to the places of the chunks. -/
structure Keeps (core : XetCore Hash) (job : Job) (idx idx' : Index Hash) : Prop where
  locating : Locating core idx'
  chunks : ∀ h ∈ idx'.chunkIndex, h ∈ idx.chunkIndex ∨
    h ∈ (core.nextBlock job.bytes).map Chunk.hash

theorem keeps_same {idx idx' : Index Hash} (hi : Locating core idx) (hx : idx'.xorbs = idx.xorbs)
    (hc : idx'.chunkIndex = idx.chunkIndex) : Keeps core job idx idx' := by
  refine ⟨?_, fun h hm => .inl (hc ▸ hm)⟩
  unfold Locating
  rw [hx, hc]
  exact hi

theorem completes_uploaded {hash : Hash} {info : XorbObjectInfoV1 Hash} {call : PutCall Hash}
    (h : Completes core store P app (.putStore hash info call) a app') :
    (∃ result, a = .putXorb result) ∧
      (app'.index = app.index ∨ Server.indexXorb app.index hash info = some app'.index) := by
  refine ⟨?_, (completes_putStore h).imp And.right And.right⟩
  generalize hg : Handler.putStore hash info call = g at h
  induction h generalizing call with
  | reply => cases hg
  | step c allowed move rest ih =>
    subst hg
    cases move
    generalize (store.putStep call c.io _).1 = out at rest ih
    rcases out with call' | (e | b)
    · exact ih rfl
    · exact ⟨_, (completes_reply rest).1⟩
    · cases b with
      | false => exact ⟨_, (completes_reply rest).1⟩
      | true =>
        obtain ⟨_, _, _, rfl, _⟩ := completes_putIndex rest
        exact ⟨_, rfl⟩

theorem upload_keeps (hex : core.HexLaws) (gate : core.GateLaws) (pipe : core.PipelineLaws)
    {terms : List RegisterTerm} {group : List (Chunk Hash)} {ser : SerializedXorbObject Hash}
    {rest : List (Chunk Hash × Option Agent.ChunkLoc)} (hi : Locating core app.index)
    (hok : StageOk core job (.upload terms group ser rest)) (hd : Distinct core job.bytes)
    (hf : Fresh app.index (.upload terms group ser rest))
    (hs : Serves core store P app
      (.putXorb "default" (core.hex ser.hash) ser.serializedData) a app') :
    (∃ result, a = .putXorb result) ∧ Keeps core job app.index app'.index ∧
      Missing app'.index rest := by
  obtain ⟨before, _, hcut, hne, _, hser, _⟩ := hok
  have hgroup := infix_of_append hcut
  obtain ⟨info, _, _, hv, _⟩ := pipe.serialized job.bytes group ser hgroup hne hser
  have hgate : Server.gate core (core.hex ser.hash) ser.serializedData = .ok (ser.hash, info) := by
    simp only [Server.gate, hex.from_hex, hv]
  simp only [Serves, start, hgate] at hs
  obtain ⟨ha, he | hidx⟩ := completes_uploaded hs
  · rw [he]
    exact ⟨ha, keeps_same hi rfl rfl, hf.2⟩
  have hhashes := ((packed_serialized pipe hgroup hne hser).commits gate ⟨_, hv⟩).1
  have honce := distinct_hashes pipe hd
  rw [← hcut, List.map_append, List.map_append] at honce
  obtain ⟨hnodup, _, hapart⟩ := List.nodup_append'.mp (List.nodup_append'.mp honce).2.1
  refine ⟨ha, ⟨hi.indexXorb gate ⟨_, hv⟩ hidx ?_ (hhashes ▸ hnodup), ?_⟩, ?_⟩
  · intro k hk
    rw [hhashes] at hk
    obtain ⟨c, hc, rfl⟩ := List.mem_map.mp hk
    exact hf.1 c hc
  · intro k hk
    refine (indexed_chunks hidx hk).imp_right (fun hk => ?_)
    rw [hhashes] at hk
    exact (hgroup.map Chunk.hash).subset hk
  · intro p hp hn hm
    rcases indexed_chunks hidx hm with hm | hm
    · exact hf.2 p hp hn hm
    · rw [hhashes] at hm
      exact hapart hm (List.mem_map_of_mem (List.mem_map_of_mem hp))

theorem request_keeps (hex : core.HexLaws) (gate : core.GateLaws) (pipe : core.PipelineLaws)
    {r : Request} (hi : Locating core app.index) (hok : StageOk core job stage)
    (hd : Distinct core job.bytes) (hf : Fresh app.index stage)
    (hr : nextRequest core job stage = some r) (hs : Serves core store P app r a app') :
    Keeps core job app.index app'.index ∧ Fresh app'.index (resume core job stage a) := by
  cases stage with
  | query locs todo =>
    cases todo with
    | nil => cases hr
    | cons c todo =>
      cases hr
      simp only [Serves, start, hex.from_hex] at hs
      obtain ⟨rfl, hidx⟩ := completes_dedup hs
      rw [hidx]
      refine ⟨keeps_same hi rfl rfl, ?_⟩
      have hsnoc : ∀ loc : Option Agent.ChunkLoc,
          (loc = none → c.hash ∉ app.index.chunkIndex) →
          Missing app.index (locs ++ [(c, loc)]) := by
        intro loc hloc p hp
        rcases List.mem_append.mp hp with hp | hp
        · exact hf p hp
        · exact List.mem_singleton.mp hp ▸ hloc
      cases hl : app.index.chunkIndex.lookup c.hash with
      | none => exact hsnoc none (fun _ => AList.lookup_eq_none.mp hl)
      | some loc => exact hsnoc (some _) (fun he => by cases he)
  | upload terms group ser rest =>
    cases hr
    obtain ⟨⟨result, rfl⟩, hkeeps, hrest⟩ := upload_keeps hex gate pipe hi hok hd hf hs
    refine ⟨hkeeps, ?_⟩
    cases result with
    | ok inserted => exact hrest
    | error f => trivial
  | register terms =>
    cases hr
    simp only [Serves, start, hex.from_hex] at hs
    obtain ⟨f, _, rfl, rfl⟩ | ⟨result, idx, hreg, rfl, rfl⟩ := completes_register hs
    · exact ⟨keeps_same hi rfl rfl, trivial⟩
    · obtain ⟨_, _, _, hx, hch⟩ := registerFile_spec hreg
      exact ⟨keeps_same hi hx hch, trivial⟩
  | walk => cases hr
  | finished => cases hr

end

section
variable {publicBase : String} {app app' : AppState Hash (LocalFs Hash)} {job : Job}
  {found : Hash → Prop}

theorem handled_serves {r : Request} {a : Answer}
    (h : Handled core (localFs core publicBase) app r a app') :
    ∃ P, Serves core (localFs core publicBase) P app r a app' := by
  rcases h with h | ⟨h, _⟩ <;> exact ⟨_, h⟩

theorem Keeps.trans {idx idx' idx'' : Index Hash} (h : Keeps core job idx idx')
    (h' : Keeps core job idx' idx'') : Keeps core job idx idx'' := by
  refine ⟨h'.locating, fun k hk => ?_⟩
  rcases h'.chunks k hk with hk | hk
  · exact h.chunks k hk
  · exact .inr hk

/-- A call that has the server to itself, however it ends, stores each chunk once. -/
theorem ingests_keeps (hex : core.HexLaws) (gate : core.GateLaws) (pipe : core.PipelineLaws)
    {stage : Stage Hash} {cut : Option (Handler Hash)} {result : Except String String}
    (hs : Settled core found app) (hi : Locating core app.index) (hok : StageOk core job stage)
    (hd : Distinct core job.bytes) (hf : Fresh app.index stage)
    (h : Ingests core (localFs core publicBase) job stage app cut result app') :
    Keeps core job app.index app'.index := by
  induction h with
  | finished => exact keeps_same hi rfl rfl
  | computed next rest ih =>
    exact ih hs hi (compute_ok hex gate pipe hok next) (compute_fresh hf next)
  | answered next fits handled rest ih =>
    obtain ⟨P, hserves⟩ := handled_serves handled
    obtain ⟨hkeeps, hf'⟩ := request_keeps hex gate pipe hi hok hd hf next hserves
    obtain ⟨hs', ha, _⟩ := hs.handled hex gate pipe (nextRequest_asked hok next) handled
    exact hkeeps.trans (ih hs' hkeeps.locating (resume_ok hex pipe hok next ha) hf')
  | refused next large rest ih =>
    obtain ⟨e, he⟩ := tooLarge_finished core next large
    rw [he] at rest
    obtain ⟨_, _, rfl⟩ := ingests_finished rest
    exact keeps_same hi rfl rfl
  | lost next handled rest ih =>
    obtain ⟨e, he⟩ := hangUp_finished next
    rw [he] at rest
    obtain ⟨_, _, rfl⟩ := ingests_finished rest
    obtain rfl | ⟨_, a, handled⟩ := handled
    · exact keeps_same hi rfl rfl
    · obtain ⟨P, hserves⟩ := handled_serves handled
      exact (request_keeps hex gate pipe hi hok hd hf next hserves).1
  | dropped next fits dropped rest ih =>
    obtain ⟨e, he⟩ := hangUp_finished next
    rw [he] at rest
    obtain ⟨_, _, rfl⟩ := ingests_finished rest
    -- a handler that is dropped has not come to the index
    obtain ⟨_, hidx, _⟩ | ⟨_, _, _, _, hstrands⟩ :=
      FailedIngest.dropped_left (FailedIngest.nextRequest_ne_gc next) dropped
    · exact keeps_same hi (by rw [hidx]) (by rw [hidx])
    · exact keeps_same hi (by rw [hstrands.index]) (by rw [hstrands.index])

theorem past_located (hex : core.HexLaws) (gate : core.GateLaws) (pipe : core.PipelineLaws)
    {acts : List (Act Hash)} {results : List (Option (Except String String))}
    (hs : Settled core found app) (hi : Locating core app.index)
    (distinct : ∀ job cut, .ingest job cut ∈ acts → Distinct core job.bytes)
    (h : Run.Runs (Does core publicBase) app acts results app') :
    Locating core app'.index ∧ ∀ k ∈ app'.index.chunkIndex, k ∈ app.index.chunkIndex ∨
      ∃ job cut, .ingest job cut ∈ acts ∧ k ∈ (core.nextBlock job.bytes).map Chunk.hash := by
  induction h generalizing found with
  | nil => exact ⟨hi, fun k hk => .inl hk⟩
  | cons head tail ih =>
    obtain ⟨hs', _⟩ := does_settled hex gate pipe hs head
    have hlater := ih hs'
    cases head with
    | ingested job cut result _ call =>
      have hkeeps := ingests_keeps hex gate pipe hs hi stageOk_start (distinct job cut (by simp))
        (fun p hp => absurd hp (by simp)) call
      obtain ⟨hi', hchunks⟩ :=
        hlater hkeeps.locating (fun j c hj => distinct j c (List.mem_cons_of_mem _ hj))
      refine ⟨hi', fun k hk => ?_⟩
      rcases hchunks k hk with hk | ⟨j, c, hj, hk⟩
      · exact (hkeeps.chunks k hk).imp_right (fun hk => ⟨job, cut, List.mem_cons_self, hk⟩)
      · exact .inr ⟨j, c, List.mem_cons_of_mem _ hj, hk⟩
    | collected works a _ gc =>
      obtain ⟨order, all, _, ios, _, _, rfl⟩ := completes_gc gc
      obtain ⟨hi', hchunks⟩ :=
        hlater (hi.sweep all) (fun j c hj => distinct j c (List.mem_cons_of_mem _ hj))
      refine ⟨hi', fun k hk => ?_⟩
      rcases hchunks k hk with hk | ⟨j, c, hj, hk⟩
      · obtain ⟨loc, hl⟩ := Table.mem_iff.mp hk
        rw [sweep_chunkIndex, Option.filter_eq_some_iff] at hl
        exact .inl (Table.mem_of_lookup hl.1)
      · exact .inr ⟨j, c, List.mem_cons_of_mem _ hj, hk⟩

theorem holds_located (gate : core.GateLaws) (hs : Holding core app) (hi : Locating core app.index)
    {x : Hash} {i : ℕ} {h : Hash} : x ∈ app.index.xorbs ∧ Holds core app.blob x i h ↔
      ∃ loc, app.index.chunkIndex.lookup h = some loc ∧ loc.xorb = x ∧ loc.index.toNat = i := by
  constructor
  · rintro ⟨hx, body, info, _, hv, hat⟩
    exact hi x hx info ⟨body, hv⟩ i h hat
  · rintro ⟨loc, hl, rfl, rfl⟩
    obtain ⟨hm, info, hc, hloc⟩ := hs.sound.entries h loc hl
    obtain ⟨xorbMeta, hmeta⟩ := Table.mem_iff.mp hm
    obtain ⟨info', _, content, body, hb, _, hv⟩ := hs.kept _ _ hmeta
    exact ⟨hm, body, info', hb, hv, (gate.one_list _ _ _ ⟨body, hv⟩ hc).1 ▸ hloc.hash⟩

theorem recorded_holds (gate : core.GateLaws) (pipe : core.PipelineLaws) (hs : Holding core app)
    {b : Bytes} (hm : core.fileHashOf b ∈ app.index.files) {c : Chunk Hash}
    (hc : c ∈ core.nextBlock b) :
    ∃ x i, x ∈ app.index.xorbs ∧ Holds core app.blob x i c.hash := by
  obtain ⟨file, hfile⟩ := Table.mem_iff.mp hm
  have hshelved : Shelved core LocalFs.object (⟨app, fun _ => none⟩ : State Hash (LocalFs Hash)) :=
    ⟨nofun, hs.kept⟩
  obtain ⟨content, pieces, hlay⟩ := recorded_layout gate pipe hshelved (hs.files _ file hfile)
  rw [← hlay.own] at hc
  obtain ⟨_, hown, hc⟩ := List.mem_flatten.mp hc
  obtain ⟨t, ht, rfl⟩ := List.mem_map.mp hown
  obtain ⟨⟨xorbMeta, hmeta, _⟩, _⟩ := hlay.within t ht
  obtain ⟨info, _, _, body, hb, _, hv⟩ := hs.kept _ _ hmeta
  have hin : c ∈ content t.xorb := List.mem_of_mem_take (List.mem_of_mem_drop hc)
  obtain ⟨i, hat⟩ := List.getElem?_of_mem hin
  refine ⟨t.xorb, i, Table.mem_of_lookup hmeta, body, info, hb, hv, ?_⟩
  rw [((hlay.packed t ht).commits gate ⟨body, hv⟩).1, List.getElem?_map, hat]
  rfl

end

/-- After any calls, however they ended, and any collections, whatever their deletions did,
each with the server to itself, over any store and where no bytes repeat a chunk: the dedup
index is exactly the map of the chunks of the indexed xorbs, so each is in one of them at
one place; the chunks of every file returned are in them, and only chunks of what was to be
ingested are. Where no upload was dropped between its store and its index and all deletions
have worked, what is stored and was not at the start is indexed. -/
theorem stored_once (hex : core.HexLaws) (gate : core.GateLaws) (pipe : core.PipelineLaws)
    (publicBase : String) {disk : LocalFs Hash} {acts : List (Act Hash)}
    {results : List (Option (Except String String))} {app : AppState Hash (LocalFs Hash)}
    (past : Run.Runs (Does core publicBase) { blob := disk } acts results app)
    (distinct : ∀ job cut, .ingest job cut ∈ acts → Distinct core job.bytes) :
    (∀ x i h, x ∈ app.index.xorbs ∧ Holds core app.blob x i h ↔
      ∃ loc, app.index.chunkIndex.lookup h = some loc ∧ loc.xorb = x ∧ loc.index.toNat = i) ∧
    (∀ x y i j h, x ∈ app.index.xorbs → y ∈ app.index.xorbs → Holds core app.blob x i h →
      Holds core app.blob y j h → x = y ∧ i = j) ∧
    (∀ old cut fh, (.ingest old cut, some (.ok fh)) ∈ acts.zip results →
      ∀ c ∈ core.nextBlock old.bytes,
        ∃ x i, x ∈ app.index.xorbs ∧ Holds core app.blob x i c.hash) ∧
    (∀ x i h, x ∈ app.index.xorbs → Holds core app.blob x i h →
      ∃ job cut, .ingest job cut ∈ acts ∧ h ∈ (core.nextBlock job.bytes).map Chunk.hash) ∧
    ((∀ act ∈ acts, act.Tidy) →
      ∀ x ∈ app.blob.files, x ∈ app.index.xorbs ∨ x ∈ disk.files) := by
  obtain ⟨found, hs, _, hnone, hreturned⟩ := past_settled hex gate pipe (settled_boot disk) past
  obtain ⟨hi, hchunks⟩ := past_located hex gate pipe (settled_boot disk)
    (fun x hx => absurd hx (AList.notMem_empty x)) distinct past
  have hiff : ∀ x i h, x ∈ app.index.xorbs ∧ Holds core app.blob x i h ↔ ∃ loc,
      app.index.chunkIndex.lookup h = some loc ∧ loc.xorb = x ∧ loc.index.toNat = i :=
    fun _ _ _ => holds_located gate hs.toHolding hi
  refine ⟨hiff, ?_, ?_, ?_, ?_⟩
  · intro x y i j h hx hy hold hold'
    obtain ⟨loc, hl, rfl, rfl⟩ := (hiff x i h).mp ⟨hx, hold⟩
    obtain ⟨loc', hl', rfl, rfl⟩ := (hiff y j h).mp ⟨hy, hold'⟩
    obtain rfl := Option.some.inj (hl.symm.trans hl')
    exact ⟨rfl, rfl⟩
  · intro old cut fh hm c hc
    exact recorded_holds gate pipe hs.toHolding (hreturned old cut fh hm).2 hc
  · intro x i h hx hold
    obtain ⟨loc, hl, _⟩ := (hiff x i h).mp ⟨hx, hold⟩
    exact (hchunks h (Table.mem_of_lookup hl)).resolve_left (AList.notMem_empty h)
  · intro tidy x hx
    by_cases hm : x ∈ app.index.xorbs
    · exact .inl hm
    · obtain rfl := hnone tidy
      exact .inr ((hs.stranded x).mp ⟨hx, hm⟩)

/-- A call whose upload is lost, a collection, and two calls that share a chunk: it is
in the xorb of the first. -/
theorem stored_once_shared : ∃ app results,
    Run.Runs (Does Plain.plain "") { blob := {} } [.ingest ⟨"vol", "/e", [3]⟩ none, .collect true,
      .ingest ⟨"vol", "/f", [5, 4]⟩ none, .ingest ⟨"vol", "/g", [3, 4]⟩ none] results app ∧
    app.index.xorbs.keys = [[1, 3], [1, 5, 1, 4]] ∧
    ∀ x ∈ app.index.xorbs, ∀ i, Holds Plain.plain app.blob x i [4] → x = [1, 5, 1, 4] ∧ i = 1 := by
  have hrun : ((ingestAlone Plain.plain (localFs Plain.plain "") 9 ⟨"vol", "/e", [3]⟩ 9
      [true, true, false] (.query [] (Plain.plain.nextBlock [3])) { blob := {} }).bind (fun p =>
        (runAlone Plain.plain (localFs Plain.plain "") 9 p.2 (start Plain.plain .gc)).bind
          (fun q => (ingestAlone Plain.plain (localFs Plain.plain "") 9 ⟨"vol", "/f", [5, 4]⟩ 14 []
            (.query [] (Plain.plain.nextBlock [5, 4])) q.1).bind (fun r =>
              (ingestAlone Plain.plain (localFs Plain.plain "") 9 ⟨"vol", "/g", [3, 4]⟩ 14 []
                (.query [] (Plain.plain.nextBlock [3, 4])) r.2).map (fun t =>
                  (t.2.index.xorbs.keys, t.2.blob.files.lookup [1, 5, 1, 4])))))) =
      some ([[1, 3], [1, 5, 1, 4]], some [0, 1, 5, 0, 1, 4, 2]) := by decide +kernel
  obtain ⟨⟨lost, app1⟩, h1, hrun⟩ := Option.bind_eq_some_iff.mp hrun
  obtain ⟨⟨app2, a⟩, h2, hrun⟩ := Option.bind_eq_some_iff.mp hrun
  obtain ⟨⟨first, app3⟩, h3, hrun⟩ := Option.bind_eq_some_iff.mp hrun
  obtain ⟨⟨second, app⟩, h4, he⟩ := Option.map_eq_some_iff.mp hrun
  obtain ⟨hkeys, hbody⟩ := Prod.mk.inj he
  have past : Run.Runs (Does Plain.plain "") { blob := {} } [.ingest ⟨"vol", "/e", [3]⟩ none,
      .collect true, .ingest ⟨"vol", "/f", [5, 4]⟩ none, .ingest ⟨"vol", "/g", [3, 4]⟩ none]
      [some lost, none, some first, some second] app :=
    .cons (.ingested _ _ _ _ (ingestAlone_ingests h1))
      (.cons (.collected true a _ (runAlone_completes (fun _ _ => rfl) h2))
        (.cons (.ingested _ _ _ _ (ingestAlone_ingests h3))
          (.cons (.ingested _ _ _ _ (ingestAlone_ingests h4)) (.nil app))))
  obtain ⟨_, honce, _⟩ := stored_once Plain.plain_hex Plain.plain_gate Plain.plain_pipeline "" past
    (by
      intro job cut hj
      simp only [List.mem_cons, Act.ingest.injEq, reduceCtorEq, List.not_mem_nil, or_false,
        false_or] at hj
      rcases hj with ⟨rfl, _⟩ | ⟨rfl, _⟩ | ⟨rfl, _⟩ <;> decide)
  have hfirst : Holds Plain.plain app.blob [1, 5, 1, 4] 1 [4] :=
    ⟨_, ⟨2, [[5], [4]], [3, 6], [1, 2]⟩, hbody, by decide, rfl⟩
  have hin : ([1, 5, 1, 4] : Plain.PlainHash) ∈ app.index.xorbs := by
    have hmem : ([1, 5, 1, 4] : Plain.PlainHash) ∈ app.index.xorbs.keys := hkeys ▸ by decide
    exact AList.mem_keys.mpr hmem
  exact ⟨app, _, past, hkeys, fun x hx i hold => honce x _ i 1 _ hx hin hold hfirst⟩

end Dejaveph.Proofs.StoredOnce

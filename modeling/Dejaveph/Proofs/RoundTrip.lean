import Dejaveph.Agent.Reconstruct
import Dejaveph.Proofs.StoredXorbs

namespace Dejaveph.Proofs.RoundTrip
open Lib Server Agent DedupSound RegisteredTerms ServedRanges StoredXorbs

variable {Hash : Type} {core : XetCore Hash}

section Confirmed
variable {β : Type}

/-- What a handler tells about a registration is so. -/
def Confirms (core : XetCore Hash) (idx : Index Hash) (r : Request) : Handler Hash → Prop
  | .registerLock fh _ => ∀ req, r = .registerFile req → core.fromHex req.fileHash = some fh
  | .reply a | .answered a => ∀ req n, r = .registerFile req → a = .registerFile (.ok n) →
    ∃ fh, core.fromHex req.fileHash = some fh ∧ fh ∈ idx.files
  | _ => True

theorem reply_confirms {idx : Index Hash} {r : Request} {a : Answer}
    (h : ∀ n, a ≠ .registerFile (.ok n)) : Confirms core idx r (.reply a) :=
  fun _ n _ ha => absurd ha (h n)

theorem gcNext_confirms {idx : Index Hash} {r : Request} (swept : ℕ) (todo : List Hash) :
    Confirms core idx r (gcNext swept todo) := by
  cases todo with
  | nil => exact reply_confirms nofun
  | cons x todo => trivial

theorem quiet_confirms {idx : Index Hash} {r : Request} {g : Handler Hash} (hq : g.Quiet) :
    Confirms core idx r g := by
  cases g with
  | reply a =>
    apply reply_confirms
    rintro n rfl
    exact hq
  | registerLock | answered => exact absurd hq id
  | _ => trivial

theorem start_confirms {idx : Index Hash} {r : Request} : Confirms core idx r (start core r) := by
  have hs := start_started core r
  generalize start core r = g at hs
  cases hs with
  | registerFile req fh read =>
    intro req' he
    cases he
    exact read
  | quiet _ _ still => exact quiet_confirms still
  | _ => trivial

theorem Confirms.mono {idx idx' : Index Hash} {r : Request} {g : Handler Hash}
    (hf : ∀ fh ∈ idx.files, fh ∈ idx'.files) (h : Confirms core idx r g) :
    Confirms core idx' r g := by
  cases g with
  | reply a | answered a =>
    intro req n hr ha
    obtain ⟨fh, hx, hm⟩ := h req n hr ha
    exact ⟨fh, hx, hf fh hm⟩
  | _ => exact h

variable [DecidableEq Hash] {store : BlobStore Hash β}

theorem effect_confirms {c : Choice Hash} {app app' : AppState Hash β} {r : Request}
    {g g' : Handler Hash} (heff : Effect core store c app g app' g')
    (h : Confirms core app.index r g) :
    (∀ fh ∈ app.index.files, fh ∈ app'.index.files) ∧ Confirms core app'.index r g' := by
  cases heff with
  | stored x info call =>
    refine ⟨fun _ hm => hm, ?_⟩
    unfold afterPut
    split
    · trivial
    · trivial
    · exact reply_confirms nofun
    · exact reply_confirms nofun
  | indexed x info len index metrics clean done =>
    obtain ⟨_, hfiles, _, _⟩ := indexXorb_spec done
    exact ⟨fun fh hm => hfiles ▸ hm, reply_confirms nofun⟩
  | registered fh req result index clean done =>
    obtain ⟨_, _, hfiles, _, _⟩ := registerFile_spec done
    refine ⟨fun fh' hm => ?_, ?_⟩
    · rw [hfiles]
      exact (AList.mem_insert _).mpr (.inr hm)
    · intro req' n hr _
      refine ⟨fh, h req' hr, ?_⟩
      rw [hfiles]
      exact (AList.mem_insert _).mpr (.inl rfl)
  | asked ch metrics => exact ⟨fun _ hm => hm, reply_confirms nofun⟩
  | sent a => exact ⟨fun _ hm => hm, h⟩
  | marked clean all => exact ⟨fun _ hm => hm, gcNext_confirms _ _⟩
  | deleted swept x todo => exact ⟨fun _ hm => hm, trivial⟩
  | evicted swept x todo clean => exact ⟨fun _ hm => hm, gcNext_confirms _ _⟩
  | poisoned _ panics => exact ⟨fun _ hm => hm, trivial⟩
  | quiet _ _ metrics live still => exact ⟨fun _ hm => hm, quiet_confirms still⟩

/-- What a call has been told of its registration is so. -/
structure Confirmed (core : XetCore Hash) (w : World Hash β) : Prop where
  tasks : ∀ n t, w.server.tasks n = some t →
    Confirms core w.server.app.index t.request t.handler
  calls : ∀ i c, w.clients i = some c → ∀ h, c.stage = .finished (.ok h) →
    h = core.hex (core.fileHashOf c.job.bytes) ∧
      core.fileHashOf c.job.bytes ∈ w.server.app.index.files

omit [DecidableEq Hash] in
theorem resume_finished {job : Job} {stage : Stage Hash} {r : Request} {a : Answer} {h : String}
    (hr : nextRequest core job stage = some r) (hs : resume core job stage a = .finished (.ok h)) :
    ∃ req n, r = .registerFile req ∧ a = .registerFile (.ok n) ∧
      req.fileHash = core.hex (core.fileHashOf job.bytes) ∧
      h = core.hex (core.fileHashOf job.bytes) := by
  cases stage with
  | query locs todo =>
    cases todo with
    | nil => cases hr
    | cons c todo =>
      cases a with
      | globalDedup hit =>
        simp only [resume] at hs
        split at hs <;> cases hs
      | _ => cases hs
  | upload terms group ser rest =>
    cases a with
    | putXorb result => cases result <;> cases hs
    | _ => cases hs
  | register terms =>
    cases hr
    cases a with
    | registerFile result =>
      cases result with
      | ok n =>
        cases hs
        exact ⟨_, n, rfl, rfl, rfl, rfl⟩
      | error f => cases hs
    | _ => cases hs
  | walk terms rest => cases hr
  | finished result => cases hr

omit [DecidableEq Hash] in
theorem hangUp_finished {stage : Stage Hash} {h : String}
    (hs : hangUp stage = .finished (.ok h)) : stage = .finished (.ok h) := by
  cases stage <;> first | exact hs | cases hs

theorem server_confirms {s s' : State Hash β} {l : Label Hash}
    (hi : ∀ n t, s.tasks n = some t → Confirms core s.app.index t.request t.handler)
    (h : Server.step core store s l = some s') :
    (∀ fh ∈ s.app.index.files, fh ∈ s'.app.index.files) ∧
      ∀ n t, s'.tasks n = some t → Confirms core s'.app.index t.request t.handler := by
  obtain ⟨i, r, rfl, _, rfl⟩ | ⟨i, c, t, app, g', rfl, ht, heff, rfl⟩ := step_cases core store h
  · exact ⟨fun _ hm => hm, Run.update_forall hi start_confirms⟩
  · obtain ⟨hf, hg⟩ := effect_confirms heff (hi i t ht)
    exact ⟨hf, Run.update_forall (fun j u hu => (hi j u hu).mono hf) hg⟩

theorem step_confirmed (hex : core.HexLaws) {w w' : World Hash β} {e : Event Hash}
    (hi : RegisteredTerms.Invariant core w) (hc : Confirmed core w)
    (h : World.step core store w e = some w') : Confirmed core w' := by
  cases World.step_moved h with
  | begun i job =>
    refine ⟨hc.tasks, Run.update_forall hc.calls ?_⟩
    intro h hs
    cases hs
  | computed i c stage call next =>
    exact ⟨hc.tasks,
      Run.update_forall hc.calls (fun h hs => absurd hs (compute_unfinished core next h))⟩
  | sent i n c r server call idle next fits arrives =>
    obtain ⟨hf, htasks⟩ := server_confirms hc.tasks arrives
    have hcalls : ∀ j d, w.clients j = some d → ∀ h, d.stage = .finished (.ok h) →
        h = core.hex (core.fileHashOf d.job.bytes) ∧
          core.fileHashOf d.job.bytes ∈ server.app.index.files :=
      fun j d hd h hs => (hc.calls j d hd h hs).imp_right (hf _)
    exact ⟨htasks, Run.update_forall hcalls (hcalls i c call)⟩
  | refused i c r call idle next large =>
    obtain ⟨e, he⟩ := tooLarge_finished core next large
    refine ⟨hc.tasks, Run.update_forall hc.calls ?_⟩
    intro h hs
    cases he.symm.trans hs
  | received i n c r a call waits task =>
    refine ⟨hc.tasks, Run.update_forall hc.calls ?_⟩
    intro h hs
    obtain ⟨t, ht, hr⟩ := hi.waits i c call n waits
    obtain rfl := Option.some.inj (task.symm.trans ht)
    obtain ⟨req, m, rfl, rfl, hfile, hh⟩ := resume_finished hr hs
    obtain ⟨fh, hx, hm⟩ := hc.tasks n _ task req m rfl rfl
    rw [hfile, hex.from_hex] at hx
    exact ⟨hh, Option.some.inj hx ▸ hm⟩
  | lost i c call =>
    exact ⟨hc.tasks,
      Run.update_forall hc.calls (fun h hs => hc.calls i c call h (hangUp_finished hs))⟩
  | served n c server steps =>
    obtain ⟨hf, htasks⟩ := server_confirms hc.tasks steps
    exact ⟨htasks, fun j d hd h hs => (hc.calls j d hd h hs).imp_right (hf _)⟩

omit [DecidableEq Hash] in
theorem boot_confirmed (blob : β) : Confirmed core (World.boot blob : World Hash β) where
  tasks := by
    intro n t ht
    cases ht
  calls := by
    intro i c hc
    cases hc

theorem run_confirmed (hex : core.HexLaws) (gate : core.GateLaws) (pipe : core.PipelineLaws)
    {blob : β} {events : List (Event Hash)} {w : World Hash β}
    (run : Run.exec (World.step core store) (World.boot blob) events = some w) :
    Confirmed core w := by
  suffices h : RegisteredTerms.Invariant core w ∧ Confirmed core w from h.2
  refine Run.exec_preserves (I := fun w => RegisteredTerms.Invariant core w ∧ Confirmed core w)
    ?_ ⟨boot_world blob, boot_confirmed blob⟩ run
  rintro w e w' ⟨hi, hc⟩ h
  exact ⟨step_world hex gate pipe hi h, step_confirmed hex hi hc h⟩

end Confirmed

variable [DecidableEq Hash]

/-- The first listed term of the same xorb that covers a term. -/
def firstCover (terms : List (Term Hash)) (t : Term Hash) : Option (Term Hash) :=
  terms.find? (fun u => u.xorb = t.xorb ∧ u.start ≤ t.start ∧ t.end_ ≤ u.end_)

/-- The first listed term that covers a term begins with that term's chunks. -/
def Aligned (core : XetCore Hash) (file : FileRecord Hash) : Prop :=
  ∀ t ∈ file.terms, ∀ u, firstCover file.terms t = some u → ∀ info, core.Commits t.xorb info →
    Pieces.slice info.chunkHashes u.start.toNat (u.start.toNat + (t.end_.toNat - t.start.toNat)) =
      Pieces.slice info.chunkHashes t.start.toNat t.end_.toNat

/-- The chunks of a term. -/
def own (content : Hash → List (Chunk Hash)) (t : Term Hash) : List (Chunk Hash) :=
  Pieces.slice (content t.xorb) t.start.toNat t.end_.toNat

/-- The chunks that a client reads for a term: as many as the term has, from
where its first cover begins. -/
def read (content : Hash → List (Chunk Hash)) (terms : List (Term Hash)) (t : Term Hash) :
    List (Chunk Hash) :=
  match firstCover terms t with
  | none => []
  | some u => Pieces.slice (content t.xorb) u.start.toNat
    (u.start.toNat + (t.end_.toNat - t.start.toNat))

omit [DecidableEq Hash] in
theorem deserialize_run {cs : List (Chunk Hash)} {ps : List Bytes}
    (h : List.Forall₂ (fun c p => p ≠ [] ∧
      ∀ rest, core.deserializeChunk (p ++ rest) = .ok (c.data, rest)) cs ps) {n : ℕ}
    (hn : n ≤ cs.length) :
    deserializeChunks core n ps.flatten = .ok ((cs.take n).map Chunk.data).flatten := by
  induction h generalizing n with
  | nil =>
    obtain rfl : n = 0 := Nat.le_zero.mp hn
    rfl
  | cons hd _ ih =>
    cases n with
    | zero => rfl
    | succ n =>
      simp only [List.flatten_cons, deserializeChunks, hd.2]
      rw [ih (Nat.le_of_succ_le_succ hn)]
      simp [Except.map]

theorem firstCover_some {terms : List (Term Hash)} {t : Term Hash} (ht : t ∈ terms) :
    ∃ u ∈ terms, firstCover terms t = some u ∧ u.xorb = t.xorb ∧ u.start ≤ t.start ∧
      t.end_ ≤ u.end_ := by
  have hsome : (firstCover terms t).isSome := by
    rw [firstCover, List.find?_isSome]
    exact ⟨t, ht, by simp⟩
  obtain ⟨u, hu⟩ := Option.isSome_iff_exists.mp hsome
  have hp := List.find?_some hu
  exact ⟨u, List.mem_of_find?_eq_some hu, hu, of_decide_eq_true hp⟩

variable {publicBase : String} {app : AppState Hash (LocalFs Hash)}
  {pieces : Hash → List Bytes} {content : Hash → List (Chunk Hash)} {file : FileRecord Hash}
  {resp : ReconResponse}

/-- The entry that the client picks for a term is that of its first cover. -/
theorem picks_firstCover (h : Serves core publicBase app pieces file resp) {t : Term Hash}
    (ht : t ∈ file.terms) : ∃ entries fi u, resp.fetchInfo.lookup (core.hex t.xorb) = some entries ∧
      entries.find? (covers ⟨t.start, t.end_⟩) = some fi ∧ fi ∈ entries ∧
      firstCover file.terms t = some u ∧ fi.range = ⟨u.start, u.end_⟩ := by
  obtain ⟨u, _, hu, _⟩ := firstCover_some ht
  have hfind : (((resp.fetchInfo.lookup (core.hex t.xorb)).getD []).find?
      (covers ⟨t.start, t.end_⟩)).map FetchInfo.range = some ⟨u.start, u.end_⟩ := by
    have hcov : covers ⟨t.start, t.end_⟩ =
        (fun s : ChunkRange => decide (s.start ≤ t.start) && decide (t.end_ ≤ s.end_)) ∘
          FetchInfo.range := rfl
    rw [hcov, ← List.find?_map, h.ranges t.xorb, List.find?_map, List.find?_filter]
    unfold firstCover at hu
    simp only [Function.comp_def, Bool.and_eq_true, decide_eq_true_eq, hu, Option.map_some]
  obtain ⟨fi, hfi, hr⟩ := Option.map_eq_some_iff.mp hfind
  cases hl : resp.fetchInfo.lookup (core.hex t.xorb) with
  | none => simp [hl] at hfi
  | some entries =>
    rw [hl, Option.getD_some] at hfi
    exact ⟨entries, fi, u, rfl, hfi, List.mem_of_find?_eq_some hfi, hu, hr⟩

omit [DecidableEq Hash] in
theorem slice_forall₂ {cs : List (Chunk Hash)} {ps : List Bytes} {p : Chunk Hash → Bytes → Prop}
    (h : List.Forall₂ p cs ps) (s e : ℕ) :
    List.Forall₂ p (Pieces.slice cs s e) (Pieces.slice ps s e) :=
  List.forall₂_drop s (List.forall₂_take e h)

/-- Each listed term lies within its xorb. -/
def Inside (content : Hash → List (Chunk Hash)) (file : FileRecord Hash) : Prop :=
  ∀ t ∈ file.terms, t.start < t.end_ ∧ t.end_.toNat ≤ (content t.xorb).length

/-- The serialized chunks of a xorb each read as its chunk. -/
def Reads (core : XetCore Hash) (content : Hash → List (Chunk Hash)) (pieces : Hash → List Bytes)
    (x : Hash) : Prop :=
  List.Forall₂ (fun c p => p ≠ [] ∧
    ∀ rest, core.deserializeChunk (p ++ rest) = .ok (c.data, rest)) (content x) (pieces x)

/-- The chunks of a term's first cover, read from its serialized bytes. -/
theorem term_reads (hin : Inside content file)
    (hreads : ∀ t ∈ file.terms, Reads core content pieces t.xorb) {t u : Term Hash}
    (ht : t ∈ file.terms) (hu : firstCover file.terms t = some u) :
    deserializeChunks core (t.end_.toNat - t.start.toNat)
        (Pieces.slice (pieces t.xorb) u.start.toNat u.end_.toNat).flatten =
      .ok ((read content file.terms t).map Chunk.data).flatten := by
  obtain ⟨u', hum, hu', hx, hs, he⟩ := firstCover_some ht
  obtain rfl := Option.some.inj (hu.symm.trans hu')
  have hlt := UInt32.lt_iff_toNat_lt.mp (hin t ht).1
  have hsn := UInt32.le_iff_toNat_le.mp hs
  have hen := UInt32.le_iff_toNat_le.mp he
  have hcount : u.end_.toNat ≤ (content t.xorb).length := hx ▸ (hin u hum).2
  have hlen := Pieces.slice_length (content t.xorb) (s := u.start.toNat) hcount
  have hrun := deserialize_run (slice_forall₂ (hreads t ht) u.start.toNat u.end_.toNat)
    (n := t.end_.toNat - t.start.toNat) (by rw [hlen]; omega)
  have htake : (Pieces.slice (content t.xorb) u.start.toNat u.end_.toNat).take
      (t.end_.toNat - t.start.toNat) = read content file.terms t := by
    rw [Pieces.slice_take _ (by omega), read, hu]
  exact htake ▸ hrun

/-- A term as the response names it. -/
def named (core : XetCore Hash) (t : Term Hash) : ReconTerm :=
  ⟨core.hex t.xorb, t.unpackedLength, ⟨t.start, t.end_⟩⟩

/-- For each term the client fetches the serialized chunks of its first cover. -/
def Gathers (core : XetCore Hash) (pieces : Hash → List Bytes) (file : FileRecord Hash)
    (fetchInfo : Table String (List FetchInfo)) (fetch : FetchInfo → Except String Bytes) : Prop :=
  ∀ t ∈ file.terms, ∃ fi u, pick fetchInfo (named core t) = .ok fi ∧
    firstCover file.terms t = some u ∧
    fetch fi = .ok (Pieces.slice (pieces t.xorb) u.start.toNat u.end_.toNat).flatten

theorem assemble_reads {fetchInfo : Table String (List FetchInfo)}
    {fetch : FetchInfo → Except String Bytes} (hfetch : Gathers core pieces file fetchInfo fetch)
    (hin : Inside content file) (hreads : ∀ t ∈ file.terms, Reads core content pieces t.xorb)
    {ts : List (Term Hash)} (hts : ∀ t ∈ ts, t ∈ file.terms) :
    assemble core fetch fetchInfo (ts.map (named core)) =
      .ok ((ts.map (read content file.terms)).flatten.map Chunk.data).flatten := by
  induction ts with
  | nil => rfl
  | cons t ts ih =>
    have ht := hts t (by simp)
    obtain ⟨fi, u, hpick, hu, hbody⟩ := hfetch t ht
    have hrun := term_reads hin hreads ht hu
    simp only [List.map_cons, assemble, hpick, hbody, bind, Except.bind]
    simp only [named, hrun, ih (fun u hu => hts u (by simp [hu])), List.flatten_cons,
      List.map_append, List.flatten_append]

theorem serves_fetches (h : Serves core publicBase app pieces file resp) :
    Gathers core pieces file resp.fetchInfo (fetchRange core publicBase app) := by
  intro t ht
  obtain ⟨entries, fi, u, hl, hfind, hmem, hu, hr⟩ := picks_firstCover h ht
  obtain ⟨hashHex, reply, hroute, hresp, hbody⟩ := h.bodies t.xorb entries hl fi hmem
  refine ⟨fi, u, ?_, hu, ?_⟩
  · simp only [pick, named, hl, hfind]
  · simp only [fetchRange, hroute, hresp, hbody, hr]

/-- The chunks read for the terms are their own when the first covers are aligned. -/
theorem reads_own (gate : core.GateLaws) (pipe : core.PipelineLaws) (hin : Inside content file)
    (hp : ∀ t ∈ file.terms, Packed core t.xorb (content t.xorb)) :
    (file.terms.map (read content file.terms)).flatten = (file.terms.map (own content)).flatten ↔
      Aligned core file := by
  have hread : ∀ t ∈ file.terms, ∃ u, firstCover file.terms t = some u ∧
      read content file.terms t = Pieces.slice (content t.xorb) u.start.toNat
        (u.start.toNat + (t.end_.toNat - t.start.toNat)) ∧
      u.start.toNat + (t.end_.toNat - t.start.toNat) ≤ (content t.xorb).length := by
    intro t ht
    obtain ⟨u, _, hu, _, hs, _⟩ := firstCover_some ht
    have hlt := UInt32.lt_iff_toNat_lt.mp (hin t ht).1
    have hsn := UInt32.le_iff_toNat_le.mp hs
    have hle := (hin t ht).2
    exact ⟨u, hu, by rw [read, hu], by omega⟩
  rw [Pieces.flatten_map_eq]
  · refine forall₂_congr ?_
    intro t ht
    obtain ⟨u, hu, hr, _⟩ := hread t ht
    obtain ⟨info, hc, hh, _⟩ := (hp t ht).footer
    rw [hr, own]
    constructor
    · rintro he u' hu' info' hc'
      obtain rfl := Option.some.inj (hu.symm.trans hu')
      rw [((hp t ht).commits gate hc').1, Pieces.slice_map, Pieces.slice_map, he]
    · intro ha
      have ha := ha u hu info hc
      rw [hh, Pieces.slice_map, Pieces.slice_map] at ha
      have hhash := (hp t ht).hashed pipe
      refine hashed_lists pipe ?_ ?_ ha
      · exact fun c hc => hhash c (List.mem_of_mem_take (List.mem_of_mem_drop hc))
      · exact fun c hc => hhash c (List.mem_of_mem_take (List.mem_of_mem_drop hc))
  · intro t ht
    obtain ⟨u, _, hr, hle⟩ := hread t ht
    rw [hr, own, Pieces.slice_length _ hle, Pieces.slice_length _ (hin t ht).2]
    omega

omit [DecidableEq Hash] in
theorem recorded_own (gate : core.GateLaws) (pipe : core.PipelineLaws) {idx : Index Hash}
    (hp : ∀ x ∈ idx.xorbs, Packed core x (content x)) {b : Bytes}
    (h : Recorded core idx (core.fileHashOf b) file) :
    (∀ t ∈ file.terms, t.xorb ∈ idx.xorbs) ∧ Inside content file ∧
      (file.terms.map (own content)).flatten = core.nextBlock b := by
  obtain ⟨b', hb, _, groups, hall, hflat⟩ := h
  obtain rfl := fileHashOf_injective pipe hb
  have hspan : List.Forall₂ (fun t group => t.xorb ∈ idx.xorbs ∧ t.start < t.end_ ∧
      t.end_.toNat ≤ (content t.xorb).length ∧ own content t = group) file.terms groups := by
    apply hall.imp
    rintro t group ⟨hm, ⟨content', hp', hle, hs⟩, hlt, _⟩
    obtain rfl := (hp _ hm).unique gate pipe hp'
    exact ⟨hm, hlt, hle, hs⟩
  have hterms : ∀ t ∈ file.terms, t.xorb ∈ idx.xorbs ∧ t.start < t.end_ ∧
      t.end_.toNat ≤ (content t.xorb).length := by
    intro t ht
    obtain ⟨j, hj, rfl⟩ := List.getElem_of_mem ht
    obtain ⟨hm, hlt, hle, _⟩ := (List.forall₂_iff_get.mp hspan).2 j hj (hspan.length_eq ▸ hj)
    exact ⟨hm, hlt, hle⟩
  refine ⟨fun t ht => (hterms t ht).1, fun t ht => (hterms t ht).2, ?_⟩
  have heq : List.Forall₂ (· = ·) (file.terms.map (own content)) groups :=
    List.forall₂_map_left_iff.mpr (hspan.imp (fun _ _ h => h.2.2.2))
  rw [List.forall₂_eq_eq_eq] at heq
  rw [heq, hflat]

/-- A served file is read as the chunks that its first covers begin with. -/
theorem reconstruct_reads (publicBase : String) (hex : core.HexLaws)
    (clean : app.poisoned = false) {fh : Hash} (registered : app.index.files.lookup fh = some file)
    (within : ∀ t ∈ file.terms, Within app.blob app.index pieces t) (hin : Inside content file)
    (hreads : ∀ t ∈ file.terms, Reads core content pieces t.xorb) :
    reconstruct core publicBase app (core.hex fh) =
      .ok ((file.terms.map (read content file.terms)).flatten.map Chunk.data).flatten := by
  obtain ⟨resp, hresp, hserves⟩ := respond_serves hex publicBase clean registered within
  have hout := assemble_reads (serves_fetches hserves) hin hreads (fun _ ht => ht)
  have hterms : resp.terms = file.terms.map (named core) := hserves.terms
  rw [← hterms] at hout
  simp only [reconstruct, hresp, hout, hserves.offset, bind, Except.bind]
  rfl

/-- In every state that a run of calls reaches, `reconstruct` returns, for the
hash that a call has returned, the data of some chunks. These are the chunks of
the call's bytes exactly when the first covers of the record are aligned, and
then `reconstruct` returns the bytes. -/
theorem reconstruct_aligned (hex : core.HexLaws) (gate : core.GateLaws) (pipe : core.PipelineLaws)
    (publicBase : String) (events : List (Event Hash)) (w : World Hash (LocalFs Hash))
    (whole : Run.Guarded (World.step core (localFs core publicBase)) Whole (World.boot {}) events)
    (run : Run.exec (World.step core (localFs core publicBase)) (World.boot {}) events = some w)
    (i : ℕ) (c : Client Hash) (h : String) (call : w.clients i = some c)
    (returned : c.stage = .finished (.ok h)) :
    h = core.hex (core.fileHashOf c.job.bytes) ∧
    ∃ file chunks, w.server.app.index.files.lookup (core.fileHashOf c.job.bytes) = some file ∧
      reconstruct core publicBase w.server.app h = .ok (chunks.map Chunk.data).flatten ∧
      (chunks = core.nextBlock c.job.bytes ↔ Aligned core file) ∧
      (Aligned core file → reconstruct core publicBase w.server.app h = .ok c.job.bytes) := by
  have hi := (run_world hex gate pipe run).server
  have hclean := (run_clean gate run).unpoisoned
  obtain ⟨rfl, hm⟩ := (run_confirmed hex gate pipe run).calls i c call h returned
  obtain ⟨file, hfile⟩ := Table.mem_iff.mp hm
  have hshelf : ∀ x, ∃ content pieces, x ∈ w.server.app.index.xorbs →
      Pieced core w.server.app.blob w.server.app.index x content pieces := by
    intro x
    by_cases hx : x ∈ w.server.app.index.xorbs
    · have hshelved := run_shelved hex gate pipe whole_serve whole run
      obtain ⟨content, pieces, hp⟩ := hshelved.pieced gate pipe hx
      exact ⟨content, pieces, fun _ => hp⟩
    · exact ⟨[], [], fun h => absurd h hx⟩
  choose content pieces hpieced using hshelf
  obtain ⟨hxorbs, hin, hown⟩ := recorded_own gate pipe (fun x hx => (hpieced x hx).packed)
    (hi.files _ file hfile)
  have hwithin : ∀ t ∈ file.terms, Within w.server.app.blob w.server.app.index pieces t := by
    intro t ht
    obtain ⟨xorbMeta, hmeta⟩ := Table.mem_iff.mp (hxorbs t ht)
    have hp := hpieced _ (hxorbs t ht)
    have hlaid := hp.laid xorbMeta hmeta
    refine ⟨⟨xorbMeta, hmeta, hlaid, ?_⟩, (hin t ht).1⟩
    rw [UInt32.le_iff_toNat_le, hlaid.count, ← hp.chunks.length_eq]
    exact (hin t ht).2
  have hrecon := reconstruct_reads publicBase hex hclean hfile hwithin hin
    (fun t ht => (hpieced _ (hxorbs t ht)).chunks)
  have hiff := reads_own gate pipe hin (fun t ht => (hpieced _ (hxorbs t ht)).packed)
  rw [hown] at hiff
  refine ⟨rfl, file, _, hfile, hrecon, hiff, ?_⟩
  intro ha
  rw [hrecon, hiff.mpr ha, pipe.concat]

/-- A test of `Whole`. -/
def wholeTest (w : World Hash (LocalFs Hash)) : Event Hash → Bool
  | .serve n c =>
    match w.server.tasks n with
    | some ⟨_, .putStore x _ call⟩ => call.stage ≠ .rename || c.io ≠ .ok ||
      (w.server.app.blob.tmp.lookup x).all (fun body => body = call.bytes)
    | _ => true
  | _ => true

theorem wholeTest_whole {w : World Hash (LocalFs Hash)} {e : Event Hash}
    (h : wholeTest w e = true) : Whole w e := by
  cases e with
  | serve n c =>
    intro r x info call ht hstage hio body hb
    simp only [wholeTest, ht, hstage, hio, hb] at h
    simpa using h
  | _ => trivial

/-- The hash that a call has returned. -/
def hashReturned (c : Client Hash) : Option String :=
  match c.stage with
  | .finished (.ok h) => some h
  | _ => none

omit [DecidableEq Hash] in
theorem hashReturned_eq {c : Client Hash} {h : String} (hr : hashReturned c = some h) :
    c.stage = .finished (.ok h) := by
  unfold hashReturned at hr
  split at hr
  · rename_i h' hs
    rw [hs, Option.some.inj hr]
  · cases hr

/-- The first file of `ingestTwo` keeps one term, and is read back. -/
theorem reconstruct_aligned_two : ∃ w : World Plain.PlainHash (LocalFs Plain.PlainHash),
    Run.exec (World.step Plain.plain (localFs Plain.plain "")) (World.boot {}) ingestTwo = some w ∧
    reconstruct Plain.plain "" w.server.app (Plain.hex (Plain.plain.fileHashOf [1, 2])) =
      .ok [1, 2] := by
  have hrun : (Run.exec (World.step Plain.plain (localFs Plain.plain "")) (World.boot {})
      ingestTwo).map (fun w => (w.server.app.index.files.lookup (Plain.plain.fileHashOf [1, 2]),
        (w.clients 0).map (fun c => (c.job.bytes, hashReturned c)))) =
      some (some ⟨2, [⟨[1, 1, 1, 2], 0, 2, 2⟩]⟩,
        some ([1, 2], some (Plain.hex (Plain.plain.fileHashOf [1, 2])))) := by decide +kernel
  have hwhole : Run.check (World.step Plain.plain (localFs Plain.plain "")) wholeTest
      (World.boot {}) ingestTwo = true := by decide +kernel
  obtain ⟨w, hw, hl⟩ := Option.map_eq_some_iff.mp hrun
  obtain ⟨hfile, hcall⟩ := Prod.ext_iff.mp hl
  obtain ⟨c, hc, hdone⟩ := Option.map_eq_some_iff.mp hcall
  obtain ⟨hbytes, hret⟩ := Prod.ext_iff.mp hdone
  have h := reconstruct_aligned Plain.plain_hex Plain.plain_gate Plain.plain_pipeline ""
    ingestTwo w (Run.guarded_of_test (fun _ _ => wholeTest_whole) hwhole) hw 0 c _ hc
    (hashReturned_eq hret)
  obtain ⟨_, file, _, hfile', _, _, hback⟩ := h
  simp only at hbytes
  rw [hbytes] at hfile' hback
  obtain rfl := Option.some.inj (hfile'.symm.trans hfile)
  refine ⟨w, hw, hback ?_⟩
  intro t ht u hu info _
  obtain rfl := List.mem_singleton.mp ht
  obtain rfl := List.mem_singleton.mp (List.mem_of_find?_eq_some hu)
  rfl

/-- The second file of `ingestTwo` is `[1, 2, 2]`. Its terms are the chunks
`[0, 2)` and `[1, 2)` of one xorb, and the second is read from the entry of the
first. -/
theorem nested_term_misread : ¬ ∀ (events : List (Event Plain.PlainHash))
    (w : World Plain.PlainHash (LocalFs Plain.PlainHash)),
    Run.exec (World.step Plain.plain (localFs Plain.plain "")) (World.boot {}) events = some w →
    ∀ i c h, w.clients i = some c → c.stage = .finished (.ok h) →
      reconstruct Plain.plain "" w.server.app h = .ok c.job.bytes := by
  intro hall
  have hrun : (Run.exec (World.step Plain.plain (localFs Plain.plain "")) (World.boot {})
      ingestTwo).map (fun w => (w.clients 1).map (fun c => (c.job.bytes, (hashReturned c).map
        (fun h => (reconstruct Plain.plain "" w.server.app h).toOption)))) =
      some (some ([1, 2, 2], some (some [1, 2, 1]))) := by decide +kernel
  obtain ⟨w, hw, hl⟩ := Option.map_eq_some_iff.mp hrun
  obtain ⟨c, hc, hdone⟩ := Option.map_eq_some_iff.mp hl
  obtain ⟨hbytes, hret⟩ := Prod.ext_iff.mp hdone
  obtain ⟨h, hh, hrecon⟩ := Option.map_eq_some_iff.mp hret
  rw [hall ingestTwo w hw 1 c h hc (hashReturned_eq hh)] at hrecon
  simp only at hbytes
  rw [hbytes] at hrecon
  exact absurd hrecon (by decide)

end Dejaveph.Proofs.RoundTrip

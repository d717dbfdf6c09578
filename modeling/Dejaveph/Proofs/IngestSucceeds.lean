import Dejaveph.Agent.Progress
import Dejaveph.Proofs.AtRest
import Dejaveph.Proofs.KnownContent
import Dejaveph.PlainCore

namespace Dejaveph.Proofs.IngestSucceeds
open Lib Server Agent RegisteredTerms StoredXorbs DistinctChunks AtRest
open KnownContent (Indexed)

variable {Hash : Type} {core : XetCore Hash}

/-- The serializer takes every run of chunks that a call packs, and what it writes is
within the limit of the router. -/
def Packs (core : XetCore Hash) : Prop :=
  ∀ b group, group <:+: core.nextBlock b → group ≠ [] → group.length ≤ maxXorbChunks →
    (unpackedLength group ≤ maxXorbUncompressed ∨ group.length = 1) →
    ∃ serialized, core.fromXorb group = .ok serialized ∧
      serialized.serializedData.length ≤ maxBodyBytes

section
variable {job : Job} {stage stage' : Stage Hash} {known known' hit hit' : String → Prop}

/-- Each lookup that has hit names a known xorb. -/
def Resolved (known : String → Prop) (locs : List (Chunk Hash × Option Agent.ChunkLoc)) : Prop :=
  ∀ p ∈ locs, ∀ loc, p.2 = some loc → known loc.1

/-- The terms of a call name known xorbs, and so do its lookups that have hit. What it is
to upload is within the limit of the router. -/
def Placed (known hit : String → Prop) : Stage Hash → Prop
  | .query locs _ => Resolved hit locs
  | .walk terms rest => (∀ t ∈ terms, known t.xorb) ∧ Resolved hit rest
  | .upload terms _ serialized rest => (∀ t ∈ terms, known t.xorb) ∧ Resolved hit rest ∧
    serialized.serializedData.length ≤ maxBodyBytes
  | .register terms => ∀ t ∈ terms, known t.xorb
  | .finished _ => True

theorem stageOk_start : StageOk core job (.query [] (core.nextBlock job.bytes)) :=
  ⟨rfl, by simp⟩

theorem placed_start {chunks : List (Chunk Hash)} : Placed known hit (.query [] chunks) :=
  fun p hp => absurd hp (by simp)

theorem Resolved.mono (h : ∀ xorb, known xorb → known' xorb)
    {locs : List (Chunk Hash × Option Agent.ChunkLoc)} (hr : Resolved known locs) :
    Resolved known' locs :=
  fun p hp loc hl => h _ (hr p hp loc hl)

theorem Placed.mono (h : ∀ xorb, known xorb → known' xorb) (h' : ∀ xorb, hit xorb → hit' xorb)
    (hp : Placed known hit stage) : Placed known' hit' stage := by
  cases stage with
  | query locs todo => exact Resolved.mono h' hp
  | walk terms rest => exact ⟨fun t ht => h _ (hp.1 t ht), hp.2.mono h'⟩
  | upload terms group ser rest =>
    exact ⟨fun t ht => h _ (hp.1 t ht), hp.2.1.mono h', hp.2.2⟩
  | register terms => exact fun t ht => h _ (hp t ht)
  | finished => trivial

theorem Resolved.snoc {locs : List (Chunk Hash × Option Agent.ChunkLoc)} (h : Resolved known locs)
    {c : Chunk Hash} {loc : Option Agent.ChunkLoc} (hloc : ∀ l, loc = some l → known l.1) :
    Resolved known (locs ++ [(c, loc)]) := by
  intro p hm
  rcases List.mem_append.mp hm with hm | hm
  · exact h p hm
  · exact List.mem_singleton.mp hm ▸ hloc

theorem known_snoc {terms : List RegisterTerm} (h : ∀ t ∈ terms, known t.xorb)
    {t : RegisterTerm} (ht : known t.xorb) : ∀ u ∈ terms ++ [t], known u.xorb := by
  intro u hu
  rcases List.mem_append.mp hu with hu | hu
  · exact h u hu
  · exact List.mem_singleton.mp hu ▸ ht

theorem indexed_mono {idx idx' : Index Hash} (h : Extends idx idx') (xorb : String)
    (hx : Indexed core idx xorb) : Indexed core idx' xorb :=
  hx.imp fun x hm => ⟨hm.1, h.xorbs x hm.2⟩

theorem novelGroup_packs (packs : Packs core) {terms : List RegisterTerm} {c : Chunk Hash}
    {rest : List (Chunk Hash × Option Agent.ChunkLoc)}
    (hok : StageOk core job (.walk terms ((c, none) :: rest))) :
    ∃ ser, core.fromXorb (novelGroup c rest).1 = .ok ser ∧
      ser.serializedData.length ≤ maxBodyBytes := by
  obtain ⟨taken, hcut, hne, hgroup, _, hfew, hsize⟩ := novelGroup_cut c rest
  obtain ⟨done, _, hd, _⟩ := hok
  have hpiece : done ++ ((novelGroup c rest).1 ++ (novelGroup c rest).2.map Prod.fst) =
      core.nextBlock job.bytes := by
    rw [← hd, hcut, List.map_append, hgroup]
  refine packs job.bytes (novelGroup c rest).1 (infix_of_append hpiece) ?_ ?_ ?_
  · rw [← hgroup]
    exact fun h => hne (List.map_eq_nil_iff.mp h)
  · rw [← hgroup, List.length_map]
    exact hfew
  · rw [← hgroup, List.length_map]
    exact hsize

theorem compute_placed (packs : Packs core) (sub : ∀ xorb, hit xorb → known xorb)
    (hok : StageOk core job stage) (h : Placed known hit stage)
    (hc : compute core stage = some stage') :
    Placed known hit stage' ∧ ∀ result, stage' ≠ .finished result := by
  cases stage with
  | query locs todo =>
    cases todo with
    | cons c todo => cases hc
    | nil =>
      cases hc
      exact ⟨⟨by simp, h⟩, by simp⟩
  | walk terms rest =>
    cases hc
    cases rest with
    | nil => exact ⟨h.1, by simp [walkRun]⟩
    | cons p rest =>
      obtain ⟨hterms, hrest⟩ := h
      have hsub : ∀ rest' : List (Chunk Hash × Option Agent.ChunkLoc), rest' <:+ rest →
          Resolved hit rest' :=
        fun rest' hs q hq => hrest q (List.mem_cons_of_mem p (hs.subset hq))
      obtain ⟨c, loc⟩ := p
      cases loc with
      | some loc =>
        obtain ⟨xorb, i⟩ := loc
        exact ⟨⟨known_snoc hterms (sub _ (hrest _ List.mem_cons_self (xorb, i) rfl)),
          hsub _ (takeHits_rest xorb (i + 1) rest)⟩, by simp [walkRun]⟩
      | none =>
        obtain ⟨ser, hser, hfits⟩ := novelGroup_packs packs hok
        simp only [walkRun, packNovel, hser]
        exact ⟨⟨hterms, hsub _ (novelGroup_rest c rest), hfits⟩, by simp⟩
  | upload | register | finished => cases hc

theorem placed_fits (h : Placed known hit stage) {r : Request}
    (hr : nextRequest core job stage = some r) (hreg : ∀ terms, stage ≠ .register terms) :
    r.Fits core := by
  cases stage with
  | query locs todo =>
    cases todo with
    | nil => cases hr
    | cons c todo =>
      cases hr
      exact Nat.zero_le _
  | upload terms group ser rest =>
    cases hr
    exact h.2.2
  | register terms => exact absurd rfl (hreg terms)
  | walk => cases hr
  | finished => cases hr

end

/-- How a call ends whose registration is rejected. -/
def refused : String := "file registration failed: HTTP 400 Bad Request"

/-- How a call ends whose registration is too large. -/
def oversized : String := "file registration failed: HTTP 413 Payload Too Large"

/-- The terms that the loop emits over these lookups, in at most `k` runs, when what it
uploads is accepted. -/
def planned (core : XetCore Hash) : ℕ → List (Chunk Hash × Option Agent.ChunkLoc) →
    List RegisterTerm
  | 0, _ => []
  | _ + 1, [] => []
  | k + 1, (c, some (xorb, idx)) :: rest =>
    let (run, expected, rest) := takeHits xorb (idx + 1) rest
    ⟨xorb, idx, expected, unpackedLength (c :: run)⟩ :: planned core k rest
  | k + 1, (c, none) :: rest =>
    let (group, rest) := novelGroup c rest
    match core.fromXorb group with
    | .error _ => []
    | .ok serialized =>
      ⟨core.hex serialized.hash, 0, UInt32.ofNat group.length, unpackedLength group⟩ ::
        planned core k rest

theorem planned_enough {k k' : ℕ} {rest : List (Chunk Hash × Option Agent.ChunkLoc)}
    (hk : rest.length ≤ k) (hk' : rest.length ≤ k') :
    planned core k rest = planned core k' rest := by
  induction k generalizing k' rest with
  | zero =>
    obtain rfl := List.length_eq_zero_iff.mp (Nat.le_zero.mp hk)
    cases k' <;> rfl
  | succ k ih =>
    cases rest with
    | nil => cases k' <;> rfl
    | cons p rest =>
      rw [List.length_cons] at hk hk'
      cases k' with
      | zero => omega
      | succ k' =>
        obtain ⟨c, _ | ⟨xorb, i⟩⟩ := p
        · have hlen := (novelGroup_rest c rest).length_le
          simp only [planned]
          cases core.fromXorb (novelGroup c rest).1 with
          | error => rfl
          | ok ser => exact congrArg _ (ih (by omega) (by omega))
        · have hlen := (takeHits_rest xorb (i + 1) rest).length_le
          exact congrArg (List.cons _) (ih (hlen.trans (by omega)) (hlen.trans (by omega)))

variable [DecidableEq Hash]

/-- Where a chunk is, as the dedup index answers it. -/
def locate (core : XetCore Hash) (idx : Index Hash) (c : Chunk Hash) : Option Agent.ChunkLoc :=
  (idx.chunkIndex.lookup c.hash).map (fun loc => (core.hex loc.xorb, loc.index))

/-- The terms that a call registers, with the server to itself. -/
def termsOf (core : XetCore Hash) (idx : Index Hash) : Stage Hash → List RegisterTerm
  | .query locs todo =>
    planned core (locs.length + todo.length) (locs ++ todo.map (fun c => (c, locate core idx c)))
  | .walk terms rest => terms ++ planned core rest.length rest
  | .upload terms group serialized rest => terms ++
    ⟨core.hex serialized.hash, 0, UInt32.ofNat group.length, unpackedLength group⟩ ::
      planned core rest.length rest
  | .register terms => terms
  | .finished _ => []

/-- The terms that a call registers for these bytes. -/
def termsFor (core : XetCore Hash) (idx : Index Hash) (b : Bytes) : List RegisterTerm :=
  termsOf core idx (.query [] (core.nextBlock b))

omit [DecidableEq Hash] in
/-- How a call ends that registers these terms, over these stranded xorbs. -/
inductive EndsWith (core : XetCore Hash) (job : Job) (terms : List RegisterTerm)
    (found : Hash → Prop) : Except String String → Prop
  | oversized (r : Request) (next : nextRequest core job (.register terms) = some r)
      (large : ¬ r.Fits core) : EndsWith core job terms found (.error oversized)
  | refused (r : Request) (next : nextRequest core job (.register terms) = some r)
      (fits : r.Fits core) (t : RegisterTerm) (x : Hash) (mem : t ∈ terms)
      (names : core.fromHex t.xorb = some x) (stranded : found x) :
      EndsWith core job terms found (.error refused)
  | stored (r : Request) (next : nextRequest core job (.register terms) = some r)
      (fits : r.Fits core) (clear : ∀ t ∈ terms, ∀ x, core.fromHex t.xorb = some x → ¬ found x) :
      EndsWith core job terms found (.ok (core.hex (core.fileHashOf job.bytes)))

/-- The text names a xorb that is indexed, or stranded. -/
def Named (core : XetCore Hash) (found : Hash → Prop) (idx : Index Hash) (xorb : String) : Prop :=
  ∃ x, core.fromHex xorb = some x ∧ (x ∈ idx.xorbs ∨ found x)

section
variable {found : Hash → Prop} {idx idx' : Index Hash} {xorb : String}

omit [DecidableEq Hash] in
theorem named_indexed (h : Indexed core idx xorb) : Named core found idx xorb :=
  h.imp fun _ hx => ⟨hx.1, .inl hx.2⟩

omit [DecidableEq Hash] in
theorem named_mono (h : Extends idx idx') (xorb : String) (hx : Named core found idx xorb) :
    Named core found idx' xorb :=
  hx.imp fun x hm => ⟨hm.1, hm.2.imp_left (h.xorbs x)⟩

theorem queryChunk_locate (c : Chunk Hash) :
    queryChunk (dedupAnswer core (idx.chunkIndex.lookup c.hash)) = .ok (locate core idx c) := by
  unfold locate
  cases idx.chunkIndex.lookup c.hash <;> rfl

theorem compute_terms (packs : Packs core) {job : Job} {stage stage' : Stage Hash}
    (hok : StageOk core job stage) (hc : compute core stage = some stage') :
    termsOf core idx stage' = termsOf core idx stage := by
  cases stage with
  | query locs todo =>
    cases todo with
    | cons c todo => cases hc
    | nil =>
      cases hc
      simp [termsOf]
  | walk terms rest =>
    cases hc
    cases rest with
    | nil => simp [termsOf, walkRun, planned]
    | cons p rest =>
      obtain ⟨c, _ | ⟨xorb, i⟩⟩ := p
      · obtain ⟨ser, hser, _⟩ := novelGroup_packs packs hok
        have hsame : planned core rest.length (novelGroup c rest).2 =
            planned core (novelGroup c rest).2.length (novelGroup c rest).2 :=
          planned_enough (novelGroup_rest c rest).length_le (Nat.le_refl _)
        simp [termsOf, walkRun, packNovel, hser, planned, hsame]
      · have hsame : planned core rest.length (takeHits xorb (i + 1) rest).2.2 =
            planned core (takeHits xorb (i + 1) rest).2.2.length (takeHits xorb (i + 1) rest).2.2 :=
          planned_enough (takeHits_rest xorb (i + 1) rest).length_le (Nat.le_refl _)
        simp [termsOf, walkRun, planned, hsame]
  | upload | register | finished => cases hc

end

variable {app app' : AppState Hash (LocalFs Hash)} {job : Job} {found : Hash → Prop}

section
variable (publicBase : String) (n : ℕ)

theorem query_served (hex : core.HexLaws) (clean : app.poisoned = false) (ns : String) (h : Hash) :
    ∃ metrics, runAlone core (localFs core publicBase) (n + 5) app
      (start core (.globalDedup ns (core.hex h))) =
        some ({ app with metrics },
          .globalDedup (dedupAnswer core (app.index.chunkIndex.lookup h))) := by
  simp [start, hex.from_hex, runAlone, advance, lock, clean]

/-- An upload of what the serializer wrote is accepted, and its xorb is indexed then, unless
the store had it before. -/
theorem upload_served (hex : core.HexLaws) (gate : core.GateLaws) (pipe : core.PipelineLaws)
    (hs : Settled core found app) (ns : String) {content : List (Chunk Hash)}
    {ser : SerializedXorbObject Hash} (hser : Serialized core content ser) :
    ∃ app' inserted, runAlone core (localFs core publicBase) (n + 5) app
      (start core (.putXorb ns (core.hex ser.hash) ser.serializedData)) =
        some (app', .putXorb (.ok inserted)) ∧ (ser.hash ∈ app'.index.xorbs ∨ found ser.hash) := by
  obtain ⟨b, hpiece⟩ := hser.piece
  obtain ⟨info, _, _, hv, _⟩ := pipe.serialized b content ser hpiece hser.nonempty hser.written
  have hgate : Server.gate core (core.hex ser.hash) ser.serializedData = .ok (ser.hash, info) := by
    simp only [Server.gate, hex.from_hex, hv]
  by_cases hm : ser.hash ∈ app.blob.files
  · refine ⟨app, false, ?_, ?_⟩
    swap
    · by_cases hx : ser.hash ∈ app.index.xorbs
      · exact .inl hx
      · exact .inr ((hs.stranded _).mp ⟨hm, hx⟩)
    simp [start, hgate, runAlone, advance, localFs, LocalFs.putStep, PutCall.start, hm, afterPut]
  · obtain ⟨idx, hidx⟩ := indexXorb_total app.index ser.hash (gate.well_formed _ _ ⟨_, hv⟩)
    have hin : ser.hash ∈ idx.xorbs := by
      rw [(indexXorb_spec hidx).1]
      exact Table.mem_orInsert.mpr (.inl rfl)
    simp [start, hgate, runAlone, advance, localFs, LocalFs.putStep, PutCall.start, PutCall.at, hm,
      afterPut, lock, hs.clean, hidx, hin]

theorem register_served (hex : core.HexLaws) (clean : app.poisoned = false) (req : RegisterFile)
    {fh : Hash} (hfh : req.fileHash = core.hex fh)
    (hterms : ∀ t ∈ req.terms, Indexed core app.index t.xorb) :
    ∃ app' existed, runAlone core (localFs core publicBase) (n + 5) app
      (start core (.registerFile req)) = some (app', .registerFile (.ok existed)) := by
  obtain ⟨terms, ht⟩ := registerTerms_total hterms
  simp [start, hfh, hex.from_hex, runAlone, advance, lock, clean, registerFile, ht]

theorem register_refused (hex : core.HexLaws) (clean : app.poisoned = false) (req : RegisterFile)
    {fh : Hash} (hfh : req.fileHash = core.hex fh) {t : RegisterTerm} (hmem : t ∈ req.terms)
    (hterm : ¬ Indexed core app.index t.xorb) :
    ∃ text, runAlone core (localFs core publicBase) (n + 5) app
      (start core (.registerFile req)) =
        some (app, .registerFile (.error ⟨.badRequest, text⟩)) := by
  cases hreg : registerFile core app.index fh req with
  | ok p =>
    obtain ⟨terms, ht, _⟩ := registerFile_spec hreg
    exact absurd (registerTerms_known ht t hmem) hterm
  | error f =>
    obtain ⟨status, text⟩ := f
    obtain rfl : status = .badRequest := (registerFile_rejected hreg).1
    exact ⟨text, by simp [start, hfh, hex.from_hex, runAlone, advance, lock, clean, hreg]⟩

end

variable {publicBase : String} {n : ℕ}

variable (publicBase n) in
/-- A request of a call before its registration is answered, and the call goes on to the
same terms. -/
theorem request_served (hex : core.HexLaws) (gate : core.GateLaws) (pipe : core.PipelineLaws)
    (hs : Settled core found app) {stage : Stage Hash} {r : Request}
    (hok : StageOk core job stage)
    (hp : Placed (Named core found app.index) (Indexed core app.index) stage)
    (hr : nextRequest core job stage = some r) (hreg : ∀ terms, stage ≠ .register terms) :
    ∃ app' a, runAlone core (localFs core publicBase) (n + 5) app (start core r) =
        some (app', a) ∧
      Placed (Named core found app'.index) (Indexed core app'.index) (resume core job stage a) ∧
      (∀ result, resume core job stage a ≠ .finished result) ∧
      termsOf core app'.index (resume core job stage a) = termsOf core app.index stage ∧
      stageLeft (resume core job stage a) < stageLeft stage := by
  have hext : ∀ {app' a}, runAlone core (localFs core publicBase) (n + 5) app (start core r) =
      some (app', a) → Extends app.index app'.index := fun hrun =>
    (hs.handled hex gate pipe (nextRequest_asked hok hr)
      (.inl (runAlone_completes (fun _ => rfl) hrun))).2.2.1
  cases stage with
  | query locs todo =>
    cases todo with
    | nil => cases hr
    | cons c todo =>
      have hleft : ∀ hit, stageLeft (resume core job (.query locs (c :: todo)) (.globalDedup hit)) <
          stageLeft (.query locs (c :: todo)) := by
        intro hit
        refine resume_left hr ?_
        cases hr
        trivial
      cases hr
      obtain ⟨metrics, hrun⟩ := query_served publicBase n hex hs.clean "default-merkledb" c.hash
      refine ⟨_, _, hrun, ?_⟩
      have hlt := hleft (dedupAnswer core (app.index.chunkIndex.lookup c.hash))
      have hresume : resume core job (.query locs (c :: todo)) (.globalDedup
          (dedupAnswer core (app.index.chunkIndex.lookup c.hash))) =
          .query (locs ++ [(c, locate core app.index c)]) todo := by
        simp only [resume, queryChunk_locate]
      rw [hresume] at hlt ⊢
      refine ⟨Resolved.snoc hp ?_, by simp, ?_, hlt⟩
      · intro l hl
        obtain ⟨loc, hloc, rfl⟩ := Option.map_eq_some_iff.mp hl
        exact ⟨loc.xorb, hex.from_hex _, (hs.sound.entries _ _ hloc).1⟩
      · simp [termsOf, Nat.add_comm, Nat.add_left_comm]
  | upload terms group ser rest =>
    obtain ⟨done, _, hd, hne, _, hser, _⟩ := hok
    cases hr
    have hserialized : Serialized core group ser := ⟨⟨_, infix_of_append hd⟩, hne, hser⟩
    obtain ⟨app', inserted, hrun, hin⟩ :=
      upload_served publicBase n hex gate pipe hs "default" hserialized
    have hmono := hp.mono (named_mono (hext hrun)) (indexed_mono (hext hrun))
    refine ⟨app', _, hrun, ⟨known_snoc hmono.1 ⟨_, hex.from_hex _, hin⟩, hmono.2.1⟩,
      by simp [resume, uploadXorb], ?_, by simp [resume, uploadXorb, stageLeft]⟩
    simp [resume, uploadXorb, termsOf]
  | register terms => exact absurd rfl (hreg terms)
  | walk terms rest => cases hr
  | finished result => cases hr

variable (publicBase n) in
theorem registration_ends (hex : core.HexLaws) (hs : Settled core found app)
    {terms : List RegisterTerm} {r : Request}
    (hr : nextRequest core job (.register terms) = some r) (fits : r.Fits core)
    (named : ∀ t ∈ terms, Named core found app.index t.xorb) : ∃ app' a result,
      runAlone core (localFs core publicBase) (n + 5) app (start core r) = some (app', a) ∧
      resume core job (.register terms) a = .finished result ∧
      EndsWith core job terms found result := by
  have hr' := hr
  cases hr
  by_cases hterms : ∀ t ∈ terms, Indexed core app.index t.xorb
  · obtain ⟨app', existed, hrun⟩ := register_served publicBase n hex hs.clean
      ⟨_, _, terms, some job.volume, some job.dest⟩ rfl hterms
    refine ⟨app', _, _, hrun, rfl, .stored _ hr' fits ?_⟩
    intro t ht x hx hfound
    obtain ⟨y, hy, hin⟩ := hterms t ht
    obtain rfl := Option.some.inj (hy.symm.trans hx)
    exact ((hs.stranded _).mpr hfound).2 hin
  · simp only [not_forall] at hterms
    obtain ⟨t, ht, hnot⟩ := hterms
    obtain ⟨text, hrun⟩ := register_refused publicBase n hex hs.clean
      ⟨_, _, terms, some job.volume, some job.dest⟩ rfl ht hnot
    obtain ⟨x, hx, hin⟩ := named t ht
    exact ⟨app, _, _, hrun, rfl,
      .refused _ hr' fits t x ht hx (hin.resolve_left (fun hm => hnot ⟨x, hx, hm⟩))⟩

variable (publicBase n) in
/-- A call that has a server at rest to itself ends as the terms that it registers say. -/
theorem going_ends (hex : core.HexLaws) (gate : core.GateLaws) (pipe : core.PipelineLaws)
    (packs : Packs core) {k : ℕ} {stage : Stage Hash} (hk : stageLeft stage ≤ k)
    (hs : Settled core found app) (hok : StageOk core job stage)
    (hp : Placed (Named core found app.index) (Indexed core app.index) stage)
    (busy : ∀ result, stage ≠ .finished result) : ∃ result app',
      ingestAlone core (localFs core publicBase) (n + 5) job k [] stage app =
        some (result, app') ∧ EndsWith core job (termsOf core app.index stage) found result := by
  induction k generalizing stage app with
  | zero => cases stage <;> simp [stageLeft] at hk
  | succ k ih =>
    have hcompute : ∀ stage', compute core stage = some stage' → ∃ result app',
        ingestAlone core (localFs core publicBase) (n + 5) job k [] stage' app =
          some (result, app') ∧ EndsWith core job (termsOf core app.index stage) found result := by
      intro stage' hc
      obtain ⟨hp', hbusy⟩ := compute_placed packs (fun _ => named_indexed) hok hp hc
      have hlt := compute_left hc
      rw [← compute_terms packs hok hc]
      exact ih (by omega) hs (compute_ok hex gate pipe hok hc) hp' hbusy
    have hrequest : (∀ terms, stage ≠ .register terms) → ∀ r,
        nextRequest core job stage = some r → ∃ result app',
        (if ¬ r.Fits core then
            ingestAlone core (localFs core publicBase) (n + 5) job k [] (tooLarge stage) app
          else (runAlone core (localFs core publicBase) (n + 5) app (start core r)).bind (fun p =>
            ingestAlone core (localFs core publicBase) (n + 5) job k []
              (resume core job stage p.2) p.1)) = some (result, app') ∧
        EndsWith core job (termsOf core app.index stage) found result := by
      intro hreg r hr
      obtain ⟨app1, a, hrun, hp', hbusy, hterms, hlt⟩ :=
        request_served publicBase n hex gate pipe hs hok hp hr hreg
      obtain ⟨hs', ha, _⟩ := hs.handled hex gate pipe (nextRequest_asked hok hr)
        (.inl (runAlone_completes (fun _ => rfl) hrun))
      rw [if_neg (not_not.mpr (placed_fits hp hr hreg)), hrun, ← hterms]
      exact ih (Nat.le_of_lt_succ (Nat.lt_of_lt_of_le hlt hk)) hs' (resume_ok hex pipe hok hr ha)
        hp' hbusy
    cases stage with
    | query locs todo =>
      cases todo with
      | nil => exact hcompute _ rfl
      | cons c todo => exact hrequest (by simp) _ rfl
    | walk terms rest => exact hcompute _ rfl
    | upload terms group ser rest => exact hrequest (by simp) _ rfl
    | register terms =>
      obtain ⟨k, rfl⟩ : ∃ j, k = j + 1 := ⟨k - 1, by simp only [stageLeft] at hk; omega⟩
      obtain ⟨r, hr⟩ : ∃ r, nextRequest core job (.register terms) = some r := ⟨_, rfl⟩
      by_cases hfits : r.Fits core
      · obtain ⟨app', a, result, hrun, hres, hend⟩ :=
          registration_ends publicBase n hex hs hr hfits hp
        refine ⟨result, app', ?_, hend⟩
        simp only [ingestAlone, compute, hr, Option.bind_some, hfits, not_true_eq_false, ↓reduceIte,
          List.head?_nil, Option.getD_none, hrun, hres]
      · refine ⟨.error oversized, app, ?_, .oversized r hr hfits⟩
        simp only [ingestAlone, compute, hr, Option.bind_some, hfits, not_false_eq_true, ↓reduceIte,
          tooLarge]
        rfl
    | finished result => exact absurd rfl (busy result)

theorem settled_ends (hex : core.HexLaws) (gate : core.GateLaws) (pipe : core.PipelineLaws)
    (packs : Packs core) (publicBase : String) (hs : Settled core found app) (job : Job) (n k : ℕ)
    (enough : 3 * (core.nextBlock job.bytes).length + 4 ≤ k) : ∃ result app',
      ingestAlone core (localFs core publicBase) (n + 5) job k []
        (.query [] (core.nextBlock job.bytes)) app = some (result, app') ∧
      EndsWith core job (termsFor core app.index job.bytes) found result := by
  have hk : stageLeft (.query [] (core.nextBlock job.bytes)) ≤ k := by
    simp only [stageLeft, List.length_nil]
    omega
  exact going_ends publicBase n hex gate pipe packs hk hs stageOk_start placed_start (by simp)

/-- What goes on at a server, one thing at a time: a call, with the handler that it leaves
dropped, or a collection, the deletions of which are known to work or are not. -/
inductive Act (Hash : Type) where
  | ingest (job : Job) (cut : Option (Handler Hash))
  | collect (works : Bool)

inductive Does (core : XetCore Hash) (publicBase : String) (app : AppState Hash (LocalFs Hash)) :
    Act Hash → Option (Except String String) → AppState Hash (LocalFs Hash) → Prop
  | ingested (job : Job) (cut : Option (Handler Hash)) (result : Except String String)
      (app' : AppState Hash (LocalFs Hash))
      (call : Ingests core (localFs core publicBase) job (.query [] (core.nextBlock job.bytes)) app
        cut result app') : Does core publicBase app (.ingest job cut) (some result) app'
  | collected (works : Bool) (a : Answer) (app' : AppState Hash (LocalFs Hash))
      (gc : Serves core (localFs core publicBase) (fun c => works = true → c.Works) app .gc a
        app') : Does core publicBase app (.collect works) none app'

omit [DecidableEq Hash] in
/-- No upload is dropped between its store and its index, and no deletion fails. -/
def Act.Tidy : Act Hash → Prop
  | .ingest _ cut => ∀ x, ¬ CutAt cut x
  | .collect works => works = true

/-- The xorbs that this strands: the one of an upload that is dropped between its store and
its index, and those whose deletion fails. -/
def Act.Strands (app app' : AppState Hash (LocalFs Hash)) (x : Hash) : Act Hash → Prop
  | .ingest _ cut => CutAt cut x
  | .collect _ => Undeleted app app' x

theorem ingested_recorded (hex : core.HexLaws) (hs : Holding core app') {fh : String}
    {cut : Option (Handler Hash)}
    (call : Ingests core (localFs core publicBase) job (.query [] (core.nextBlock job.bytes)) app
      cut (.ok fh) app') : fh = core.hex (core.fileHashOf job.bytes) ∧
      app'.index.catalog.lookup (job.volume, job.dest) = some (core.fileHashOf job.bytes) ∧
      core.fileHashOf job.bytes ∈ app'.index.files := by
  obtain ⟨hfh, hcat⟩ := ingests_catalog hex (by simp) call
  have hl : app'.index.catalog.lookup (job.volume, job.dest) =
      some (core.fileHashOf job.bytes) := by rw [hcat, AList.lookup_insert]
  exact ⟨hfh, hl, hs.catalog _ _ hl⟩

/-- Whatever goes on, the server is at rest in between, files stay recorded, and what is
stranded stays. -/
theorem does_settled (hex : core.HexLaws) (gate : core.GateLaws) (pipe : core.PipelineLaws)
    {act : Act Hash} {result : Option (Except String String)} (hs : Settled core found app)
    (h : Does core publicBase app act result app') :
    Settled core (fun x => found x ∨ act.Strands app app' x) app' ∧
      (∀ fh ∈ app.index.files, fh ∈ app'.index.files) ∧ Stays app app' := by
  cases h with
  | ingested job cut result _ call =>
    obtain ⟨hs', hext, hstays⟩ := hs.ingests hex gate pipe stageOk_start call
    exact ⟨hs', hext.files, hstays⟩
  | collected works a _ gc =>
    obtain ⟨hs', hf, _, hstays⟩ := hs.gc gc
    exact ⟨hs', fun fh hm => hf ▸ hm, hstays⟩

theorem does_tidy {act : Act Hash} {result : Option (Except String String)}
    (tidy : act.Tidy) (h : Does core publicBase app act result app') (x : Hash) :
    ¬ act.Strands app app' x := by
  cases h with
  | ingested job cut result _ call => exact tidy x
  | collected works a _ gc =>
    obtain rfl : works = true := tidy
    simp only [forall_const] at gc
    exact deleted_works gc x

theorem past_settled (hex : core.HexLaws) (gate : core.GateLaws) (pipe : core.PipelineLaws)
    {acts : List (Act Hash)} {results : List (Option (Except String String))}
    (hs : Settled core found app) (h : Run.Runs (Does core publicBase) app acts results app') :
    ∃ found', Settled core found' app' ∧ (∀ fh ∈ app.index.files, fh ∈ app'.index.files) ∧
      ((∀ act ∈ acts, act.Tidy) → found' = found) ∧
      ∀ old cut fh, (.ingest old cut, some (.ok fh)) ∈ acts.zip results →
        fh = core.hex (core.fileHashOf old.bytes) ∧
          core.fileHashOf old.bytes ∈ app'.index.files := by
  induction h generalizing found with
  | nil => exact ⟨found, hs, fun _ hm => hm, fun _ => rfl, by simp⟩
  | @cons app app1 app2 act result acts results head tail ih =>
    obtain ⟨hs1, hf1, _⟩ := does_settled hex gate pipe hs head
    obtain ⟨found', hs', hf', htidy, hold⟩ := ih hs1
    refine ⟨found', hs', fun fh hm => hf' fh (hf1 fh hm), fun hall => ?_, ?_⟩
    · rw [htidy (fun act ha => hall act (List.mem_cons_of_mem _ ha))]
      funext x
      exact propext (or_iff_left (does_tidy (hall act List.mem_cons_self) head x))
    · intro old cut fh hm
      rw [List.zip_cons_cons, List.mem_cons] at hm
      rcases hm with he | hm
      · cases he
        cases head with
        | ingested _ _ _ _ call =>
          obtain ⟨hfh, _, hrec⟩ := ingested_recorded hex hs1.toHolding call
          exact ⟨hfh, hf' _ hrec⟩
      · exact hold old cut fh hm

/-- After any calls, however they ended, and any collections, each with the server to
itself, where no upload was dropped between its store and its index and all deletions have
worked: a call whose requests are served and answered succeeds, when its registration is
within the limit of the router. Its path names its bytes, and what was returned before and
now is read back where no chunk repeats. -/
theorem ingest_recovers (hex : core.HexLaws) (gate : core.GateLaws) (pipe : core.PipelineLaws)
    (packs : Packs core) (publicBase : String) {acts : List (Act Hash)}
    {results : List (Option (Except String String))}
    (past : Run.Runs (Does core publicBase) { blob := {} } acts results app)
    (tidy : ∀ act ∈ acts, act.Tidy) (job : Job)
    (fits : ∀ r, nextRequest core job (.register (termsFor core app.index job.bytes)) = some r →
      r.Fits core) (n k : ℕ) (enough : 3 * (core.nextBlock job.bytes).length + 4 ≤ k) :
    ∃ app', ingestAlone core (localFs core publicBase) (n + 5) job k []
        (.query [] (core.nextBlock job.bytes)) app =
          some (.ok (core.hex (core.fileHashOf job.bytes)), app') ∧
      app'.index.catalog.lookup (job.volume, job.dest) = some (core.fileHashOf job.bytes) ∧
      ∀ old cut fh, (.ingest old cut, some (.ok fh)) ∈ acts.zip results ∨
          (old = job ∧ fh = core.hex (core.fileHashOf job.bytes)) →
        Distinct core old.bytes → reconstruct core publicBase app' fh = .ok old.bytes := by
  obtain ⟨_, hs, _, hnone, hold⟩ := past_settled hex gate pipe (settled_boot {}) past
  obtain rfl := hnone tidy
  obtain ⟨result, app', hrun, hend⟩ := settled_ends hex gate pipe packs publicBase hs job n k enough
  have hcall := ingestAlone_ingests hrun
  obtain ⟨hs', hext, _⟩ := hs.ingests hex gate pipe stageOk_start hcall
  cases hend with
  | oversized r next large => exact absurd (fits r next) large
  | refused r next _ t x mem names stranded => exact absurd stranded (AList.notMem_empty x)
  | stored =>
    obtain ⟨_, hcat, hrec⟩ := ingested_recorded hex hs'.toHolding hcall
    refine ⟨app', hrun, hcat, ?_⟩
    rintro old cut fh (hm | ⟨rfl, rfl⟩) hd
    · obtain ⟨hfh, hkept⟩ := hold old cut fh hm
      rw [hfh]
      exact hs'.toHolding.reconstruct hex gate pipe publicBase hd (hext.files _ hkept)
    · exact hs'.toHolding.reconstruct hex gate pipe publicBase hd hrec

theorem plain_body_length {group : List (Chunk Plain.PlainHash)}
    (h : ∀ c ∈ group, (Plain.piece c).length = 3) :
    (Plain.body group).length = 3 * group.length + 1 := by
  induction group with
  | nil => rfl
  | cons c group ih =>
    have hc := h c List.mem_cons_self
    have ht := ih (fun d hd => h d (List.mem_cons_of_mem c hd))
    simp only [Plain.body, List.map_cons, List.flatten_cons, List.length_append,
      List.length_cons] at ht ⊢
    omega

theorem plain_packs : Packs Plain.plain := by
  intro b group hg _ hfew _
  have hlen : (Plain.body group).length = 3 * group.length + 1 := plain_body_length (by
    intro c hc
    obtain ⟨x, _, rfl⟩ := List.mem_map.mp (hg.subset hc)
    rfl)
  have hmax : maxXorbChunks = 8192 := rfl
  have hfit : (Plain.body group).length < 2 ^ 32 := by omega
  refine ⟨_, if_pos hfit, ?_⟩
  have hlimit : maxBodyBytes = 134217728 := rfl
  simp only
  omega

/-- A call whose registration is lost, a collection and a call that succeeds, and
then one whose chunks the store has and has lost. -/
theorem ingest_recovers_lost : ∃ app app',
    IngestBytes Plain.plain (localFs Plain.plain "") ⟨"vol", "/f", [3, 4]⟩ app
      (.ok (Plain.hex (Plain.plain.fileHashOf [3, 4]))) app' ∧
    reconstruct Plain.plain "" app' (Plain.hex (Plain.plain.fileHashOf [5, 4])) = .ok [5, 4] ∧
    reconstruct Plain.plain "" app' (Plain.hex (Plain.plain.fileHashOf [3, 4])) = .ok [3, 4] := by
  have hrun : ((ingestAlone Plain.plain (localFs Plain.plain "") 9 ⟨"vol", "/f", [3]⟩ 9
      [true, true, false] (.query [] (Plain.plain.nextBlock [3])) { blob := {} }).bind (fun p =>
        (runAlone Plain.plain (localFs Plain.plain "") 9 p.2 (start Plain.plain .gc)).bind
          (fun q => (ingestAlone Plain.plain (localFs Plain.plain "") 9 ⟨"vol", "/g", [5, 4]⟩ 14 []
            (.query [] (Plain.plain.nextBlock [5, 4])) q.1).map (fun r =>
              (p.1, r.1, r.2.index.xorbs.keys, (nextRequest Plain.plain ⟨"vol", "/f", [3, 4]⟩
                (.register (termsFor Plain.plain r.2.index [3, 4]))).all
                  (fun r => r.Fits Plain.plain)))))) =
      some (.error "register file", .ok (Plain.hex (Plain.plain.fileHashOf [5, 4])),
        [[1, 5, 1, 4]], true) := by decide +kernel
  obtain ⟨⟨lost, app1⟩, h1, hrun⟩ := Option.bind_eq_some_iff.mp hrun
  obtain ⟨⟨app2, a⟩, h2, hrun⟩ := Option.bind_eq_some_iff.mp hrun
  obtain ⟨⟨kept, app⟩, h3, he⟩ := Option.map_eq_some_iff.mp hrun
  simp only [Prod.mk.injEq] at he
  obtain ⟨rfl, rfl, _, hfits⟩ := he
  have past : Run.Runs (Does Plain.plain "") { blob := {} }
      [.ingest ⟨"vol", "/f", [3]⟩ none, .collect true, .ingest ⟨"vol", "/g", [5, 4]⟩ none]
      [some (.error "register file"), none,
        some (.ok (Plain.hex (Plain.plain.fileHashOf [5, 4])))] app :=
    .cons (.ingested _ _ _ _ (ingestAlone_ingests h1))
      (.cons (.collected true a _ (runAlone_completes (fun _ _ => rfl) h2))
        (.cons (.ingested _ _ _ _ (ingestAlone_ingests h3)) (.nil app)))
  obtain ⟨app', hrun, _, hread⟩ := ingest_recovers Plain.plain_hex Plain.plain_gate
    Plain.plain_pipeline plain_packs "" past (by simp [Act.Tidy, CutAt]) ⟨"vol", "/f", [3, 4]⟩
    (fun r hr => by simpa [hr] using hfits) 9 14 (by decide)
  exact ⟨app, app', ⟨none, ingestAlone_ingests hrun⟩,
    hread ⟨"vol", "/g", [5, 4]⟩ none _ (.inl (by simp)) (by decide),
    hread _ none _ (.inr ⟨rfl, rfl⟩) (by decide)⟩

end Dejaveph.Proofs.IngestSucceeds

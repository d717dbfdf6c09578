import Dejaveph.Agent.Ingest
import Dejaveph.Proofs.DedupSound
import Dejaveph.PlainCore

namespace Dejaveph.Proofs.RegisteredTerms
open Lib Server Agent DedupSound

variable {Hash β : Type} {core : XetCore Hash}

/-- The chunk carries the hash of its data. -/
def Hashed (core : XetCore Hash) (c : Chunk Hash) : Prop := c.hash = core.computeDataHash c.data

theorem hashed_eq (pipe : core.PipelineLaws) {c d : Chunk Hash} (hc : Hashed core c)
    (hd : Hashed core d) (h : c.hash = d.hash) : c = d := by
  obtain ⟨hash, data⟩ := c
  obtain ⟨hash', data'⟩ := d
  have hdata : data = data' := pipe.data_hash_injective (hc.symm.trans (h.trans hd))
  simp only at h
  rw [h, hdata]

theorem hashed_lists (pipe : core.PipelineLaws) {g g' : List (Chunk Hash)}
    (hg : ∀ c ∈ g, Hashed core c) (hg' : ∀ c ∈ g', Hashed core c)
    (h : g.map Chunk.hash = g'.map Chunk.hash) : g = g' := by
  induction g generalizing g' with
  | nil => exact (List.map_eq_nil_iff.mp h.symm).symm
  | cons c g ih =>
    cases g' with
    | nil => cases h
    | cons d g' =>
      obtain ⟨hcd, ht⟩ := List.cons.inj h
      rw [hashed_eq pipe (hg c (by simp)) (hg' d (by simp)) hcd,
        ih (fun e he => hg e (by simp [he])) (fun e he => hg' e (by simp [he])) ht]

/-- The xorb was packed from this run of a file's chunks. -/
structure Packed (core : XetCore Hash) (x : Hash) (content : List (Chunk Hash)) : Prop where
  piece : ∃ b, content <:+: core.nextBlock b
  nonempty : content ≠ []
  footer : ∃ info, core.Commits x info ∧ info.chunkHashes = content.map Chunk.hash ∧
    info.unpackedChunkOffsets.map UInt32.toNat = Pieces.ends (content.map Chunk.data)

section
variable {x : Hash} {content : List (Chunk Hash)}

theorem Packed.hashed (pipe : core.PipelineLaws) (h : Packed core x content) :
    ∀ c ∈ content, Hashed core c := by
  obtain ⟨b, hb⟩ := h.piece
  exact fun c hc => pipe.chunk_hash b c (hb.subset hc)

theorem Packed.commits (gate : core.GateLaws) (h : Packed core x content)
    {info : XorbObjectInfoV1 Hash} (hc : core.Commits x info) :
    info.chunkHashes = content.map Chunk.hash ∧
      info.unpackedChunkOffsets.map UInt32.toNat = Pieces.ends (content.map Chunk.data) := by
  obtain ⟨info', hc', hh, hu⟩ := h.footer
  obtain ⟨he, hue⟩ := gate.one_list _ _ _ hc hc'
  exact ⟨he.trans hh, hue ▸ hu⟩

theorem Packed.count (gate : core.GateLaws) (h : Packed core x content)
    {info : XorbObjectInfoV1 Hash} (hc : core.Commits x info) :
    info.numChunks.toNat = content.length := by
  rw [← (gate.well_formed _ _ hc).hashes, (h.commits gate hc).1, List.length_map]

theorem Packed.length_lt (gate : core.GateLaws) (h : Packed core x content) :
    content.length < 2 ^ 32 := by
  obtain ⟨info, hc, _⟩ := h.footer
  rw [← h.count gate hc]
  exact info.numChunks.toNat_lt

/-- A xorb hash determines the chunks. -/
theorem Packed.unique (gate : core.GateLaws) (pipe : core.PipelineLaws) (h : Packed core x content)
    {content' : List (Chunk Hash)} (h' : Packed core x content') : content = content' := by
  obtain ⟨info, hc, hh, _⟩ := h.footer
  exact hashed_lists pipe (h.hashed pipe) (h'.hashed pipe) (hh.symm.trans (h'.commits gate hc).1)

end

theorem packed_serialized (pipe : core.PipelineLaws) {b : Bytes} {group : List (Chunk Hash)}
    {ser : SerializedXorbObject Hash} (hg : group <:+: core.nextBlock b) (hne : group ≠ [])
    (hser : core.fromXorb group = .ok ser) : Packed core ser.hash group := by
  obtain ⟨info, pieces, footer, hv, hl⟩ := pipe.serialized b group ser hg hne hser
  exact ⟨⟨b, hg⟩, hne, info, ⟨_, hv⟩, hl.hashes, hl.unpacked⟩

/-- The chunks `[s, e)` of xorb `x` are this group, of this uncompressed length. -/
structure Span (core : XetCore Hash) (x : Hash) (s e : UInt32) (unpacked : ℕ)
    (group : List (Chunk Hash)) : Prop where
  content : ∃ content, Packed core x content ∧ e.toNat ≤ content.length ∧
    Pieces.slice content s.toNat e.toNat = group
  nonempty : s < e
  unpacked : unpacked = unpackedLength group

/-- The term of a registration names these chunks. -/
def Names (core : XetCore Hash) (t : RegisterTerm) (group : List (Chunk Hash)) : Prop :=
  ∃ x, t.xorb = core.hex x ∧ Span core x t.start t.end_ t.unpackedLength group

/-- The terms name these chunks in order. -/
def Spells (core : XetCore Hash) (terms : List RegisterTerm) (chunks : List (Chunk Hash)) : Prop :=
  ∃ groups, List.Forall₂ (Names core) terms groups ∧ groups.flatten = chunks

theorem spells_nil : Spells core [] [] := ⟨[], .nil, rfl⟩

theorem Spells.snoc {terms : List RegisterTerm} {chunks group : List (Chunk Hash)}
    {t : RegisterTerm} (h : Spells core terms chunks) (ht : Names core t group) :
    Spells core (terms ++ [t]) (chunks ++ group) := by
  obtain ⟨groups, hall, rfl⟩ := h
  exact ⟨groups ++ [group], List.rel_append hall (.cons ht .nil), by simp⟩

/-- What a lookup found is where the chunk is. -/
def Hits (core : XetCore Hash) (p : Chunk Hash × Option Agent.ChunkLoc) : Prop :=
  ∀ xorb i, p.2 = some (xorb, i) → ∃ x content, xorb = core.hex x ∧ Packed core x content ∧
    content[i.toNat]? = some p.1

/-- A run of hits, from index `e` up to `next`, cut off a list of lookups. -/
structure HitRun (core : XetCore Hash) (content : List (Chunk Hash)) (e next : UInt32)
    (rest rest' : List (Chunk Hash × Option Agent.ChunkLoc)) (run : List (Chunk Hash)) : Prop where
  split : rest.map Prod.fst = run ++ rest'.map Prod.fst
  hits : ∀ p ∈ rest', Hits core p
  le : e ≤ next
  bound : next.toNat ≤ content.length
  slice : Pieces.slice content e.toNat next.toNat = run

theorem hitRun_stop {content : List (Chunk Hash)} {e : UInt32} (he : e.toNat ≤ content.length)
    {rest : List (Chunk Hash × Option Agent.ChunkLoc)} (hh : ∀ p ∈ rest, Hits core p) :
    HitRun core content e e rest rest [] where
  split := rfl
  hits := hh
  le := UInt32.le_refl _
  bound := he
  slice := Pieces.slice_self _ _

theorem next_toNat {content : List (Chunk Hash)} {i : UInt32} (hb : content.length < 2 ^ 32)
    {c : Chunk Hash} (hat : content[i.toNat]? = some c) :
    (i + 1).toNat = i.toNat + 1 ∧ i.toNat + 1 ≤ content.length := by
  have hlt := (List.getElem?_eq_some_iff.mp hat).1
  exact ⟨succ_toNat (Nat.lt_of_le_of_lt hlt hb), hlt⟩

section
variable {content : List (Chunk Hash)} {i next : UInt32} {c : Chunk Hash}
  {rest rest' : List (Chunk Hash × Option Agent.ChunkLoc)} {run : List (Chunk Hash)}

theorem HitRun.lt (hb : content.length < 2 ^ 32) (hat : content[i.toNat]? = some c)
    (h : HitRun core content (i + 1) next rest rest' run) : i < next := by
  have hle := UInt32.le_iff_toNat_le.mp h.le
  rw [(next_toNat hb hat).1] at hle
  exact UInt32.lt_iff_toNat_lt.mpr hle

theorem HitRun.cons (hb : content.length < 2 ^ 32) (hat : content[i.toNat]? = some c)
    (loc : Option Agent.ChunkLoc) (h : HitRun core content (i + 1) next rest rest' run) :
    HitRun core content i next ((c, loc) :: rest) rest' (c :: run) := by
  have hlt := h.lt hb hat
  refine ⟨by simp [h.split], h.hits, UInt32.le_of_lt hlt, h.bound, ?_⟩
  rw [Pieces.slice_cons hat (UInt32.lt_iff_toNat_lt.mp hlt), ← (next_toNat hb hat).1, h.slice]

end

/-- A run of hits names consecutive chunks of one xorb. -/
theorem takeHits_spec (hex : core.HexLaws) (gate : core.GateLaws) (pipe : core.PipelineLaws)
    {x : Hash} {content : List (Chunk Hash)} (hp : Packed core x content) {e : UInt32}
    (he : e.toNat ≤ content.length) {rest : List (Chunk Hash × Option Agent.ChunkLoc)}
    (hh : ∀ p ∈ rest, Hits core p) :
    HitRun core content e (takeHits (core.hex x) e rest).2.1 rest
      (takeHits (core.hex x) e rest).2.2 (takeHits (core.hex x) e rest).1 := by
  induction rest generalizing e with
  | nil => exact hitRun_stop he hh
  | cons p rest ih =>
    obtain ⟨c, loc⟩ := p
    cases loc with
    | none => exact hitRun_stop he hh
    | some loc =>
      obtain ⟨x2, i2⟩ := loc
      simp only [takeHits]
      split
      · rename_i hc
        obtain ⟨rfl, rfl⟩ := hc
        obtain ⟨y, content', hy, hp', hat⟩ := hh _ (List.mem_cons_self ..) _ _ rfl
        obtain rfl := hex.hex_injective hy
        obtain rfl := hp.unique gate pipe hp'
        obtain ⟨hsucc, hle⟩ := next_toNat (hp.length_lt gate) hat
        exact (ih (hsucc ▸ hle) (fun q hq => hh q (List.mem_cons_of_mem _ hq))).cons
          (hp.length_lt gate) hat _
      · exact hitRun_stop he hh

theorem novelGroup_spec {c : Chunk Hash} {rest : List (Chunk Hash × Option Agent.ChunkLoc)}
    (hh : ∀ p ∈ rest, Hits core p) :
    c :: rest.map Prod.fst = (novelGroup c rest).1 ++ (novelGroup c rest).2.map Prod.fst ∧
      (∀ p ∈ (novelGroup c rest).2, Hits core p) ∧ (novelGroup c rest).1 ≠ [] ∧
      (novelGroup c rest).1.length < 2 ^ 32 := by
  obtain ⟨taken, hrest, hne, hgroup, _, hfew, _⟩ := novelGroup_cut c rest
  refine ⟨?_, ?_, ?_, ?_⟩
  · rw [← hgroup, ← List.map_append, ← hrest, List.map_cons]
  · intro p hp
    have hmem : p ∈ (c, none) :: rest := by
      rw [hrest]
      exact List.mem_append_right _ hp
    rcases List.mem_cons.mp hmem with rfl | hmem
    · intro xorb i hn
      cases hn
    · exact hh p hmem
  · rw [← hgroup]
    exact fun h => hne (List.map_eq_nil_iff.mp h)
  · rw [← hgroup, List.length_map]
    exact Nat.lt_of_le_of_lt hfew (by decide)

/-- What a call has done and still has to do make up its file. -/
def StageOk (core : XetCore Hash) (job : Job) : Stage Hash → Prop
  | .query locs todo =>
    locs.map Prod.fst ++ todo = core.nextBlock job.bytes ∧ ∀ p ∈ locs, Hits core p
  | .walk terms rest => ∃ done, Spells core terms done ∧
    done ++ rest.map Prod.fst = core.nextBlock job.bytes ∧ ∀ p ∈ rest, Hits core p
  | .upload terms group ser rest => ∃ done, Spells core terms done ∧
    done ++ (group ++ rest.map Prod.fst) = core.nextBlock job.bytes ∧ group ≠ [] ∧
    group.length < 2 ^ 32 ∧ core.fromXorb group = .ok ser ∧ ∀ p ∈ rest, Hits core p
  | .register terms => Spells core terms (core.nextBlock job.bytes)
  | .finished _ => True

theorem infix_of_append {done group rest chunks : List (Chunk Hash)}
    (h : done ++ (group ++ rest) = chunks) : group <:+: chunks :=
  ⟨done, rest, by rw [← h, List.append_assoc]⟩

theorem walkRun_ok (hex : core.HexLaws) (gate : core.GateLaws) (pipe : core.PipelineLaws)
    {job : Job} {terms : List RegisterTerm} {rest : List (Chunk Hash × Option Agent.ChunkLoc)}
    (h : StageOk core job (.walk terms rest)) : StageOk core job (walkRun core terms rest) := by
  obtain ⟨done, hs, hd, hh⟩ := h
  cases rest with
  | nil =>
    rw [List.map_nil, List.append_nil] at hd
    subst hd
    exact hs
  | cons p rest =>
    have hrest : ∀ q ∈ rest, Hits core q := fun q hq => hh q (List.mem_cons_of_mem _ hq)
    obtain ⟨c, loc⟩ := p
    cases loc with
    | none =>
      obtain ⟨hm, hl, hne, hlt⟩ := novelGroup_spec hrest (c := c)
      simp only [walkRun, packNovel]
      split
      · trivial
      · rename_i ser hser
        exact ⟨done, hs, hm ▸ hd, hne, hlt, hser, hl⟩
    | some loc =>
      obtain ⟨xorb, idx⟩ := loc
      obtain ⟨x, content, rfl, hp, hat⟩ := hh _ (List.mem_cons_self ..) _ _ rfl
      have hb := hp.length_lt gate
      obtain ⟨hsucc, hle⟩ := next_toNat hb hat
      have htail := takeHits_spec hex gate pipe hp (hsucc ▸ hle) hrest
      have hrun := htail.cons hb hat (some (core.hex x, idx))
      refine ⟨_, hs.snoc ⟨x, rfl, ⟨content, hp, hrun.bound, hrun.slice⟩, htail.lt hb hat, rfl⟩, ?_,
        hrun.hits⟩
      rw [← hd, List.append_assoc, ← hrun.split]

theorem compute_ok (hex : core.HexLaws) (gate : core.GateLaws) (pipe : core.PipelineLaws)
    {job : Job} {stage stage' : Stage Hash} (h : StageOk core job stage)
    (hc : compute core stage = some stage') : StageOk core job stage' := by
  cases stage with
  | query locs todo =>
    cases todo with
    | cons c todo => cases hc
    | nil =>
      cases hc
      obtain ⟨hd, hh⟩ := h
      rw [List.append_nil] at hd
      exact ⟨[], spells_nil, hd, hh⟩
  | walk terms rest =>
    cases hc
    exact walkRun_ok hex gate pipe h
  | _ => cases hc

theorem hangUp_ok {job : Job} {stage : Stage Hash} (h : StageOk core job stage) :
    StageOk core job (hangUp stage) := by
  cases stage <;> first | exact h | trivial

theorem tooLarge_ok {job : Job} {stage : Stage Hash} (h : StageOk core job stage) :
    StageOk core job (tooLarge stage) := by
  cases stage <;> first | exact h | trivial

/-- The answer to a chunk query says where a chunk of this hash is. -/
def HitFor (core : XetCore Hash) (h : Hash) (hit : DedupHit) : Prop :=
  ∃ x content, hit.xorb = core.hex x ∧ Packed core x content ∧
    (content[hit.chunkIndex.toNat]?).map Chunk.hash = some h

/-- The answer fits the request it answers. -/
def AnswerOk (core : XetCore Hash) : Request → Answer → Prop
  | .globalDedup _ chunkHex, .globalDedup (.ok hit) =>
    ∃ h, core.fromHex chunkHex = some h ∧ HitFor core h hit
  | _, _ => True

theorem hitFor_hits (hex : core.HexLaws) (pipe : core.PipelineLaws) {b : Bytes} {c : Chunk Hash}
    (hc : c ∈ core.nextBlock b) {hit : DedupHit} {h : Hash}
    (hx : core.fromHex (core.hex c.hash) = some h) (hh : HitFor core h hit) :
    Hits core (c, some (hit.xorb, hit.chunkIndex)) := by
  rintro xorb i he
  cases he
  obtain ⟨x, content, hxorb, hp, hat⟩ := hh
  obtain ⟨d, hd, hdh⟩ := Option.map_eq_some_iff.mp hat
  rw [hex.from_hex] at hx
  obtain rfl := Option.some.inj hx
  have hdc : d = c := hashed_eq pipe (hp.hashed pipe d (List.mem_of_getElem? hd))
    (pipe.chunk_hash b c hc) hdh
  exact ⟨x, content, hxorb, hp, hdc ▸ hd⟩

theorem resume_query (hex : core.HexLaws) (pipe : core.PipelineLaws) {job : Job}
    {locs : List (Chunk Hash × Option Agent.ChunkLoc)} {c : Chunk Hash} {todo : List (Chunk Hash)}
    (h : StageOk core job (.query locs (c :: todo))) {hit : Except Failure DedupHit}
    (ha : AnswerOk core (.globalDedup "default-merkledb" (core.hex c.hash)) (.globalDedup hit)) :
    StageOk core job (resume core job (.query locs (c :: todo)) (.globalDedup hit)) := by
  obtain ⟨hd, hh⟩ := h
  have hmem : c ∈ core.nextBlock job.bytes := by
    rw [← hd]
    simp
  have hnext : ∀ loc, Hits core (c, loc) → StageOk core job (.query (locs ++ [(c, loc)]) todo) := by
    intro loc hloc
    refine ⟨by simpa using hd, ?_⟩
    intro p hp
    rcases List.mem_append.mp hp with hp | hp
    · exact hh p hp
    · obtain rfl := List.mem_singleton.mp hp
      exact hloc
  simp only [resume, queryChunk]
  cases hit with
  | ok hit =>
    obtain ⟨x, hx, hfor⟩ := ha
    exact hnext _ (hitFor_hits hex pipe hmem hx hfor)
  | error f =>
    by_cases hs : f.status = .notFound
    · simp only [hs, ↓reduceIte]
      exact hnext none nofun
    · simp only [hs, ↓reduceIte]
      trivial

theorem resume_upload (pipe : core.PipelineLaws) {job : Job} {terms : List RegisterTerm}
    {group : List (Chunk Hash)} {ser : SerializedXorbObject Hash}
    {rest : List (Chunk Hash × Option Agent.ChunkLoc)}
    (h : StageOk core job (.upload terms group ser rest)) :
    StageOk core job (.walk (terms ++ [⟨core.hex ser.hash, 0, UInt32.ofNat group.length,
      unpackedLength group⟩]) rest) := by
  obtain ⟨done, hs, hd, hne, hlt, hser, hh⟩ := h
  have hp := packed_serialized pipe (infix_of_append hd) hne hser
  have hlen : (UInt32.ofNat group.length).toNat = group.length := UInt32.toNat_ofNat_of_lt' hlt
  refine ⟨done ++ group, hs.snoc ⟨ser.hash, rfl, ⟨group, hp, hlen.le, ?_⟩, ?_, rfl⟩, ?_, hh⟩
  · rw [hlen]
    exact Pieces.slice_zero group
  · rw [UInt32.lt_iff_toNat_lt, hlen]
    exact List.length_pos_iff.mpr hne
  · rw [List.append_assoc]
    exact hd

theorem resume_ok (hex : core.HexLaws) (pipe : core.PipelineLaws) {job : Job} {stage : Stage Hash}
    {r : Request} {a : Answer} (h : StageOk core job stage)
    (hr : nextRequest core job stage = some r) (ha : AnswerOk core r a) :
    StageOk core job (resume core job stage a) := by
  cases stage with
  | query locs todo =>
    cases todo with
    | nil => cases hr
    | cons c todo =>
      cases hr
      cases a with
      | globalDedup hit => exact resume_query hex pipe h ha
      | _ => exact h
  | upload terms group ser rest =>
    cases a with
    | putXorb result =>
      cases result with
      | ok inserted => exact resume_upload pipe h
      | error f => trivial
    | _ => exact h
  | register terms =>
    cases a with
    | registerFile result => cases result <;> trivial
    | _ => exact h
  | walk terms rest => cases hr
  | finished result => cases hr

/-- The registration of a file: its hash, its size and terms that name its chunks. -/
def Registers (core : XetCore Hash) (fh : Hash) (req : RegisterFile) : Prop :=
  ∃ b, core.fileHashOf b = fh ∧ req.totalSize = unpackedLength (core.nextBlock b) ∧
    Spells core req.terms (core.nextBlock b)

/-- What a handler carries fits the request it serves. There is no collection. -/
def Served (core : XetCore Hash) (r : Request) : Handler Hash → Prop
  | .putStore x _ _ | .putIndex x _ _ => ∃ content, Packed core x content
  | .registerLock fh req => Registers core fh req
  | .dedupLock h => ∀ ns chunkHex, r = .globalDedup ns chunkHex → core.fromHex chunkHex = some h
  | .gcMark | .gcDelete .. | .gcEvict .. => False
  | .reply a | .answered a => AnswerOk core r a
  | _ => True

theorem answerOk_of_ne {r : Request} {a : Answer} (h : ∀ hit, a ≠ .globalDedup (.ok hit)) :
    AnswerOk core r a := by
  unfold AnswerOk
  split
  · exact absurd rfl (h _)
  · trivial

theorem quiet_served {r : Request} {g : Handler Hash} (hq : g.Quiet) : Served core r g := by
  cases g with
  | reply a =>
    apply answerOk_of_ne
    rintro hit rfl
    exact hq
  | putStore | putIndex | registerLock | dedupLock | gcMark | gcDelete | gcEvict | answered =>
    exact absurd hq id
  | _ => trivial

/-- A xorb of a file's chunks, as the serializer writes it. -/
structure Serialized (core : XetCore Hash) (content : List (Chunk Hash))
    (ser : SerializedXorbObject Hash) : Prop where
  piece : ∃ b, content <:+: core.nextBlock b
  nonempty : content ≠ []
  written : core.fromXorb content = .ok ser

theorem Serialized.packed (pipe : core.PipelineLaws) {content : List (Chunk Hash)}
    {ser : SerializedXorbObject Hash} (h : Serialized core content ser) :
    Packed core ser.hash content := by
  obtain ⟨b, hb⟩ := h.piece
  exact packed_serialized pipe hb h.nonempty h.written

/-- A request as a call sends it. -/
def Asked (core : XetCore Hash) : Request → Prop
  | .putXorb _ hashHex body =>
    ∃ content x, hashHex = core.hex x ∧ Serialized core content ⟨x, body⟩
  | .registerFile req => ∃ fh, req.fileHash = core.hex fh ∧ Registers core fh req
  | .globalDedup _ _ => True
  | _ => False

theorem nextRequest_asked {job : Job} {stage : Stage Hash} {r : Request}
    (h : StageOk core job stage) (hr : nextRequest core job stage = some r) : Asked core r := by
  cases stage with
  | query locs todo =>
    cases todo with
    | nil => cases hr
    | cons c todo =>
      cases hr
      trivial
  | upload terms group ser rest =>
    obtain ⟨done, _, hd, hne, _, hser, _⟩ := h
    cases hr
    exact ⟨group, ser.hash, rfl, ⟨_, infix_of_append hd⟩, hne, hser⟩
  | register terms =>
    cases hr
    exact ⟨core.fileHashOf job.bytes, rfl, job.bytes, rfl, rfl, h⟩
  | walk terms rest => cases hr
  | finished result => cases hr

theorem start_served (hex : core.HexLaws) (pipe : core.PipelineLaws) {r : Request}
    (h : Asked core r) : Served core r (start core r) := by
  have hs := start_started core r
  generalize start core r = g at hs
  cases hs with
  | putXorb ns hashHex body hash info accepted =>
    obtain ⟨content, x, rfl, hser⟩ := h
    have hx := (gate_commits accepted).1
    rw [hex.from_hex] at hx
    obtain rfl := Option.some.inj hx
    exact ⟨content, hser.packed pipe⟩
  | registerFile req fh read =>
    obtain ⟨fh', he, hreg⟩ := h
    rw [he, hex.from_hex] at read
    exact Option.some.inj read ▸ hreg
  | globalDedup ns chunkHex ch read =>
    intro ns' chunkHex' he
    cases he
    exact read
  | reconstruct | gc => exact absurd h id
  | quiet _ _ still => exact quiet_served still

variable [DecidableEq Hash] {store : BlobStore Hash β}

theorem dedupAnswer_ok (gate : core.GateLaws) {idx : Index Hash} (hs : Sound core idx)
    (hp : ∀ x ∈ idx.xorbs, ∃ content, Packed core x content) {r : Request} {h : Hash}
    (hr : ∀ ns chunkHex, r = .globalDedup ns chunkHex → core.fromHex chunkHex = some h) :
    AnswerOk core r (.globalDedup (dedupAnswer core (idx.chunkIndex.lookup h))) := by
  cases r with
  | globalDedup ns chunkHex =>
    cases hl : idx.chunkIndex.lookup h with
    | none => trivial
    | some loc =>
      obtain ⟨hm, info, hc, hloc⟩ := hs.entries h loc hl
      obtain ⟨content, hcontent⟩ := hp _ hm
      refine ⟨h, hr ns chunkHex rfl, loc.xorb, content, rfl, hcontent, ?_⟩
      have hh := hloc.hash
      rw [(hcontent.commits gate hc).1, List.getElem?_map] at hh
      exact hh
  | _ => trivial

/-- Whatever a step does, what a handler carries fits its request. -/
theorem effect_served (gate : core.GateLaws) {c : Choice Hash} {app app' : AppState Hash β}
    {r : Request} {g g' : Handler Hash} (heff : Effect core store c app g app' g')
    (hd : Sound core app.index) (hp : ∀ x ∈ app.index.xorbs, ∃ content, Packed core x content)
    (hs : Served core r g) : Served core r g' := by
  cases heff with
  | stored x info call =>
    unfold afterPut
    split
    · exact hs
    · exact hs
    · exact answerOk_of_ne nofun
    · exact answerOk_of_ne nofun
  | indexed => exact answerOk_of_ne nofun
  | registered => exact answerOk_of_ne nofun
  | asked h metrics => exact dedupAnswer_ok gate hd hp hs
  | sent a => exact hs
  | marked | deleted | evicted => exact absurd hs id
  | poisoned => trivial
  | quiet _ _ metrics live still => exact quiet_served still

/-- The record of a file: its size, and terms of indexed xorbs that name its chunks. -/
def Recorded (core : XetCore Hash) (idx : Index Hash) (fh : Hash) (file : FileRecord Hash) : Prop :=
  ∃ b, core.fileHashOf b = fh ∧ file.totalSize = unpackedLength (core.nextBlock b) ∧
    ∃ groups, List.Forall₂ (fun t group => t.xorb ∈ idx.xorbs ∧
      Span core t.xorb t.start t.end_ t.unpackedLength group) file.terms groups ∧
      groups.flatten = core.nextBlock b

omit [DecidableEq Hash] in
theorem Recorded.mono {idx idx' : Index Hash} {fh : Hash} {file : FileRecord Hash}
    (h : Recorded core idx fh file) (hx : ∀ x ∈ idx.xorbs, x ∈ idx'.xorbs) :
    Recorded core idx' fh file := by
  obtain ⟨b, hb, hsize, groups, hall, hflat⟩ := h
  exact ⟨b, hb, hsize, groups, hall.imp (fun _ _ h => ⟨hx _ h.1, h.2⟩), hflat⟩

theorem registerTerms_names (hex : core.HexLaws) {idx : Index Hash} {ts : List RegisterTerm}
    {terms : List (Term Hash)} {groups : List (List (Chunk Hash))}
    (h : registerTerms core idx ts = .ok terms) (hn : List.Forall₂ (Names core) ts groups) :
    List.Forall₂ (fun t group => t.xorb ∈ idx.xorbs ∧
      Span core t.xorb t.start t.end_ t.unpackedLength group) terms groups := by
  have hall := registerTerms_spec h
  clear h
  induction hall generalizing groups with
  | nil =>
    cases hn
    exact .nil
  | cons hd _ ih =>
    obtain ⟨hx, hm, hs, he, hu⟩ := hd
    cases hn with
    | cons hname htail =>
      obtain ⟨x, hr, hspan⟩ := hname
      rw [hr, hex.from_hex] at hx
      obtain rfl := Option.some.inj hx
      refine .cons ⟨hm, ?_⟩ (ih htail)
      rw [hs, he, hu]
      exact hspan

/-- The server holds what the calls have asked for. -/
structure ServerOk (core : XetCore Hash) (s : State Hash β) : Prop where
  dedup : DedupSound.Invariant core s
  packed : ∀ x ∈ s.app.index.xorbs, ∃ content, Packed core x content
  served : ∀ n t, s.tasks n = some t → Served core t.request t.handler
  files : ∀ fh file, s.app.index.files.lookup fh = some file → Recorded core s.app.index fh file

/-- A step of a handler keeps the index to what the calls have asked for. -/
theorem effect_index (hex : core.HexLaws) {c : Choice Hash} {app app' : AppState Hash β}
    {r : Request} {g g' : Handler Hash} (heff : Effect core store c app g app' g')
    (hs : Served core r g) (hp : ∀ x ∈ app.index.xorbs, ∃ content, Packed core x content)
    (hf : ∀ fh file, app.index.files.lookup fh = some file → Recorded core app.index fh file) :
    (∀ x ∈ app'.index.xorbs, ∃ content, Packed core x content) ∧
      ∀ fh file, app'.index.files.lookup fh = some file → Recorded core app'.index fh file := by
  cases heff with
  | indexed hash info len index metrics clean done =>
    obtain ⟨hx, hfiles, _, _⟩ := indexXorb_spec done
    simp only [hx, hfiles]
    refine ⟨?_, fun fh file h => (hf fh file h).mono ?_⟩
    · intro x hm
      rcases Table.mem_orInsert.mp hm with rfl | hm
      · exact hs
      · exact hp x hm
    · intro x hm
      rw [hx]
      exact Table.mem_orInsert.mpr (.inr hm)
  | registered fh req result index clean done =>
    obtain ⟨terms, ht, hfiles, hx, _⟩ := registerFile_spec done
    obtain ⟨b, hb, hsize, groups, hall, hflat⟩ := hs
    have hsame : ∀ x ∈ app.index.xorbs, x ∈ index.xorbs := by simp [hx]
    simp only [hx, hfiles]
    refine ⟨hp, ?_⟩
    intro fh' file h
    rw [Table.lookup_insert_if] at h
    split at h
    · rename_i he
      subst he
      cases h
      exact Recorded.mono ⟨b, hb, hsize, groups, registerTerms_names hex ht hall, hflat⟩ hsame
    · exact (hf fh' file h).mono hsame
  | evicted => exact absurd hs id
  | _ => exact ⟨hp, hf⟩

theorem step_serverOk (hex : core.HexLaws) (gate : core.GateLaws) (pipe : core.PipelineLaws)
    {s s' : State Hash β} {l : Label Hash} (hi : ServerOk core s)
    (hl : ∀ n r, l = .request n r → Asked core r) (h : step core store s l = some s') :
    ServerOk core s' := by
  obtain ⟨i, r, rfl, _, rfl⟩ | ⟨i, c, t, app, g', rfl, ht, heff, rfl⟩ := step_cases core store h
  · exact ⟨step_invariant gate hi.dedup h, hi.packed,
      Run.update_forall hi.served (start_served hex pipe (hl i r rfl)), hi.files⟩
  · have hs := hi.served i t ht
    obtain ⟨hp, hf⟩ := effect_index hex heff hs hi.packed hi.files
    exact ⟨step_invariant gate hi.dedup h, hp,
      Run.update_forall hi.served (effect_served gate heff hi.dedup.sound hi.packed hs), hf⟩

theorem boot_serverOk (blob : β) : ServerOk core (Server.boot blob : State Hash β) where
  dedup := boot_invariant blob
  packed := by
    intro x hx
    exact absurd hx (AList.notMem_empty x)
  served := by
    intro n t ht
    cases ht
  files := by
    intro fh file h
    cases h

/-- What ties the server and the calls together. -/
structure Invariant (core : XetCore Hash) (w : World Hash β) : Prop where
  server : ServerOk core w.server
  calls : ∀ i c, w.clients i = some c → StageOk core c.job c.stage
  waits : ∀ i c, w.clients i = some c → ∀ n, c.waiting = some n →
    ∃ t, w.server.tasks n = some t ∧ nextRequest core c.job c.stage = some t.request

omit [DecidableEq Hash] in
theorem compute_idle {job : Job} {stage stage' : Stage Hash} {r : Request}
    (hc : compute core stage = some stage') : nextRequest core job stage ≠ some r := by
  intro hr
  cases stage with
  | query locs todo =>
    cases todo with
    | nil => cases hr
    | cons c todo => cases hc
  | walk terms rest => cases hr
  | _ => cases hc

theorem waits_server {s s' : State Hash β} {l : Label Hash} (h : step core store s l = some s')
    {c : Client Hash} (hw : ∀ n, c.waiting = some n →
      ∃ t, s.tasks n = some t ∧ nextRequest core c.job c.stage = some t.request) :
    ∀ n, c.waiting = some n →
      ∃ t, s'.tasks n = some t ∧ nextRequest core c.job c.stage = some t.request := by
  intro n hn
  obtain ⟨t, ht, hr⟩ := hw n hn
  obtain ⟨t', ht', he⟩ := step_request core store h ht
  exact ⟨t', ht', by rw [he, hr]⟩

theorem step_world (hex : core.HexLaws) (gate : core.GateLaws) (pipe : core.PipelineLaws)
    {w w' : World Hash β} {e : Event Hash} (hi : Invariant core w)
    (h : World.step core store w e = some w') : Invariant core w' := by
  cases World.step_moved h with
  | begun i job =>
    refine ⟨hi.server, Run.update_forall hi.calls ⟨rfl, by simp⟩, Run.update_forall hi.waits ?_⟩
    intro n hn
    cases hn
  | computed i c stage call next =>
    refine ⟨hi.server, Run.update_forall hi.calls (compute_ok hex gate pipe (hi.calls i c call) next),
      Run.update_forall hi.waits ?_⟩
    intro n hn
    obtain ⟨t, _, hr⟩ := hi.waits i c call n hn
    exact absurd hr (compute_idle next)
  | refused i c r call idle next large =>
    refine ⟨hi.server, Run.update_forall hi.calls (tooLarge_ok (hi.calls i c call)),
      Run.update_forall hi.waits ?_⟩
    intro n hn
    rw [idle] at hn
    cases hn
  | sent i n c r server call idle next fits arrives =>
    have hok := hi.calls i c call
    refine ⟨step_serverOk hex gate pipe hi.server ?_ arrives, Run.update_forall hi.calls hok,
      Run.update_forall (fun j d hd => waits_server arrives (hi.waits j d hd)) ?_⟩
    · rintro n' r' he
      cases he
      exact nextRequest_asked hok next
    · intro m hm
      cases hm
      obtain ⟨i', r', he, _, rfl⟩ | ⟨_, _, _, _, _, he, _⟩ := step_cases core store arrives
      · cases he
        exact ⟨_, Function.update_self .., next⟩
      · cases he
  | received i n c r a call waits task =>
    obtain ⟨t, ht, hr⟩ := hi.waits i c call n waits
    have ha := hi.server.served n _ task
    rw [task] at ht
    cases ht
    refine ⟨hi.server, Run.update_forall hi.calls (resume_ok hex pipe (hi.calls i c call) hr ha),
      Run.update_forall hi.waits ?_⟩
    intro m hm
    cases hm
  | lost i c call =>
    refine ⟨hi.server, Run.update_forall hi.calls (hangUp_ok (hi.calls i c call)),
      Run.update_forall hi.waits ?_⟩
    intro m hm
    cases hm
  | served n c server steps =>
    exact ⟨step_serverOk hex gate pipe hi.server (fun n' r' he => by cases he) steps, hi.calls,
      fun i d hd => waits_server steps (hi.waits i d hd)⟩

theorem boot_world (blob : β) : Invariant core (World.boot blob : World Hash β) where
  server := boot_serverOk blob
  calls := by
    intro i c hc
    cases hc
  waits := by
    intro i c hc
    cases hc

theorem run_world (hex : core.HexLaws) (gate : core.GateLaws) (pipe : core.PipelineLaws)
    {blob : β} {events : List (Event Hash)} {w : World Hash β}
    (run : Run.exec (World.step core store) (World.boot blob) events = some w) :
    Invariant core w :=
  Run.exec_preserves (fun _ _ _ hi h => step_world hex gate pipe hi h) (boot_world blob) run

/-- A term of an indexed xorb denotes these chunks: by every footer that the gate
accepts for it, the term lies within the xorb, and the xorb's chunks at the
term's positions have the hashes and the lengths of these. -/
structure Denotes (core : XetCore Hash) (idx : Index Hash) (t : Term Hash)
    (group : List (Chunk Hash)) : Prop where
  indexed : ∃ info, core.Commits t.xorb info ∧
    idx.xorbs.lookup t.xorb = some (XorbMeta.fromInfo info)
  nonempty : t.start < t.end_
  within : ∀ info, core.Commits t.xorb info → t.end_ ≤ info.numChunks
  hashes : ∀ info, core.Commits t.xorb info →
    Pieces.slice info.chunkHashes t.start.toNat t.end_.toNat = group.map Chunk.hash
  lengths : ∀ info, core.Commits t.xorb info → ∀ i c, group[i]? = some c →
    info.unpackedLen (t.start.toNat + i) = some c.data.length
  unpacked : t.unpackedLength = (group.map (fun c => c.data.length)).sum

omit [DecidableEq Hash] in
theorem Packed.unpackedLen (gate : core.GateLaws) {x : Hash} {content : List (Chunk Hash)}
    (h : Packed core x content) {info : XorbObjectInfoV1 Hash} (hc : core.Commits x info) {i : ℕ}
    {c : Chunk Hash} (hi : content[i]? = some c) : info.unpackedLen i = some c.data.length := by
  have hu := (h.commits gate hc).2
  have hp : (content.map Chunk.data)[i]? = some c.data := by simp [hi]
  obtain ⟨he, hb⟩ := Pieces.ends_difference hp
  have hb' : ((0 :: info.unpackedChunkOffsets).map UInt32.toNat)[i]? =
      some (Pieces.offset (content.map Chunk.data) i) := by
    rw [List.map_cons, hu]
    exact hb
  rw [← hu, List.getElem?_map] at he
  rw [List.getElem?_map] at hb'
  obtain ⟨e, hee, het⟩ := Option.map_eq_some_iff.mp he
  obtain ⟨b, hbb, hbt⟩ := Option.map_eq_some_iff.mp hb'
  simp [XorbObjectInfoV1.unpackedLen, hee, hbb, het, hbt]

theorem span_denotes (gate : core.GateLaws) {idx : Index Hash} (hd : Sound core idx) {t : Term Hash}
    {group : List (Chunk Hash)} (hm : t.xorb ∈ idx.xorbs)
    (h : Span core t.xorb t.start t.end_ t.unpackedLength group) : Denotes core idx t group := by
  obtain ⟨⟨content, hp, hle, rfl⟩, hlt, hu⟩ := h
  obtain ⟨xorbMeta, hx⟩ := Table.mem_iff.mp hm
  obtain ⟨info, hc, rfl⟩ := hd.metas _ _ hx
  refine ⟨⟨info, hc, hx⟩, hlt, ?_, ?_, ?_, hu⟩
  · intro info' hc'
    rw [UInt32.le_iff_toNat_le, hp.count gate hc']
    exact hle
  · intro info' hc'
    rw [(hp.commits gate hc').1, Pieces.slice_map]
  · intro info' hc' i c hi
    exact hp.unpackedLen gate hc' (Pieces.slice_get hi)

omit [DecidableEq Hash] in
theorem fileHashOf_injective (pipe : core.PipelineLaws) : Function.Injective core.fileHashOf := by
  intro b b' h
  have hpairs := pipe.file_hash_injective h
  have hhash : (core.nextBlock b).map Chunk.hash = (core.nextBlock b').map Chunk.hash := by
    have := congrArg (List.map Prod.fst) hpairs
    simpa [Function.comp_def] using this
  have hsame := hashed_lists pipe (pipe.chunk_hash b) (pipe.chunk_hash b') hhash
  rw [← pipe.concat b, hsame, pipe.concat b']

omit [DecidableEq Hash] in
theorem unpackedLength_flatten {terms : List (Term Hash)} {groups : List (List (Chunk Hash))}
    {p : Term Hash → List (Chunk Hash) → Prop}
    (hp : ∀ t g, p t g → t.unpackedLength = unpackedLength g)
    (h : List.Forall₂ p terms groups) :
    (terms.map Term.unpackedLength).sum = unpackedLength groups.flatten := by
  induction h with
  | nil => rfl
  | cons hd _ ih =>
    rw [List.map_cons, List.sum_cons, ih, hp _ _ hd]
    simp [unpackedLength]

/-- In every state that any interleaving of calls reaches, the record under a
file hash belongs to the one byte string with that hash: its terms denote the
chunks of that string, in order, and their lengths add up to its size. -/
theorem registered_terms_denote (hex : core.HexLaws) (gate : core.GateLaws)
    (pipe : core.PipelineLaws) (blob : β) (events : List (Event Hash)) (w : World Hash β)
    (run : Run.exec (World.step core store) (World.boot blob) events = some w) (fh : Hash)
    (file : FileRecord Hash) (stored : w.server.app.index.files.lookup fh = some file) :
    ∃ b, core.fileHashOf b = fh ∧ (∀ b', core.fileHashOf b' = fh → b' = b) ∧
      (∃ groups, List.Forall₂ (Denotes core w.server.app.index) file.terms groups ∧
        groups.flatten = core.nextBlock b) ∧
      (file.terms.map Term.unpackedLength).sum = file.totalSize := by
  have hi := (run_world hex gate pipe run).server
  obtain ⟨b, hb, hsize, groups, hall, hflat⟩ := hi.files fh file stored
  refine ⟨b, hb, ?_, ⟨groups, ?_, hflat⟩, ?_⟩
  · intro b' hb'
    exact fileHashOf_injective pipe (hb'.trans hb.symm)
  · exact hall.imp (fun t g h => span_denotes gate hi.dedup.sound h.1 h.2)
  · rw [unpackedLength_flatten (fun t g h => h.2.unpacked) hall, hflat, hsize]

/-- Call `i` sends request `n`, which one lock section answers. -/
def ask (i n : ℕ) : List (Event Plain.PlainHash) :=
  [.send i n, .serve n {}, .serve n {}, .receive i]

/-- Call `i` uploads a xorb, which is stored and indexed. -/
def put (i n : ℕ) : List (Event Plain.PlainHash) :=
  .send i n :: List.replicate 6 (.serve n {}) ++ [.receive i]

/-- A file of two chunks is ingested, then one that repeats the second chunk. -/
def ingestTwo : List (Event Plain.PlainHash) :=
  .begin 0 ⟨"v", "p", [1, 2]⟩ :: ask 0 0 ++ ask 0 1 ++ [.compute 0, .compute 0] ++ put 0 2 ++
    .compute 0 :: ask 0 3 ++
  .begin 1 ⟨"v", "q", [1, 2, 2]⟩ :: ask 1 4 ++ ask 1 5 ++ ask 1 6 ++
    List.replicate 4 (.compute 1) ++ ask 1 7

/-- The terms that the second file ends up with. -/
def twoTerms : List (Term Plain.PlainHash) :=
  [⟨[1, 1, 1, 2], 0, 2, 2⟩, ⟨[1, 1, 1, 2], 1, 2, 1⟩]

theorem registered_terms_denote_two : ∃ idx : Index Plain.PlainHash,
    idx.files.lookup (Plain.plain.fileHashOf [1, 2, 2]) = some ⟨3, twoTerms⟩ ∧
    ∃ b groups, Plain.plain.fileHashOf b = Plain.plain.fileHashOf [1, 2, 2] ∧
      List.Forall₂ (Denotes Plain.plain idx) twoTerms groups ∧
      groups.flatten = Plain.plain.nextBlock b := by
  have hrun : (Run.exec (World.step Plain.plain (localFs Plain.plain "")) (World.boot {})
      ingestTwo).map (fun w => w.server.app.index.files.lookup (Plain.plain.fileHashOf [1, 2, 2])) =
        some (some ⟨3, twoTerms⟩) := by decide +kernel
  obtain ⟨w, hw, hl⟩ := Option.map_eq_some_iff.mp hrun
  have h := registered_terms_denote Plain.plain_hex Plain.plain_gate Plain.plain_pipeline _
    ingestTwo w hw (Plain.plain.fileHashOf [1, 2, 2]) ⟨3, twoTerms⟩ hl
  obtain ⟨b, hb, _, ⟨groups, hall, hflat⟩, _⟩ := h
  exact ⟨w.server.app.index, hl, b, groups, hb, hall, hflat⟩

end Dejaveph.Proofs.RegisteredTerms

import Dejaveph.Mount.Site
import Dejaveph.Proofs.IngestSucceeds

namespace Dejaveph.Proofs.QuietServer
open Lib Server Agent Mount RegisteredTerms DistinctChunks AtRest
open IngestSucceeds (Packs EndsWith termsFor stageOk_start settled_ends ingested_recorded)

section
variable {Hash : Type} {core : XetCore Hash} {job : Job} {idx idx' idx'' : Index Hash}
  [DecidableEq Hash]

/-- Every entry stays, but the one of the call's path has the hash of its bytes. -/
def Overwrites (core : XetCore Hash) (job : Job) (idx idx' : Index Hash) : Prop :=
  ∀ key, idx'.catalog.lookup key =
    if key = (job.volume, job.dest) then some (core.fileHashOf job.bytes)
    else idx.catalog.lookup key

/-- What a call may do to files and catalog: nothing, or record its own bytes. -/
structure Writes (core : XetCore Hash) (job : Job) (idx idx' : Index Hash) : Prop where
  files : ∀ fh ∈ idx'.files, fh ∈ idx.files ∨ fh = core.fileHashOf job.bytes
  catalog : (∀ key, idx'.catalog.lookup key = idx.catalog.lookup key) ∨
    Overwrites core job idx idx'

omit [DecidableEq Hash] in
theorem Writes.refl (idx : Index Hash) : Writes core job idx idx :=
  ⟨fun _ h => .inl h, .inl (fun _ => rfl)⟩

omit [DecidableEq Hash] in
theorem Writes.trans (h : Writes core job idx idx') (h' : Writes core job idx' idx'') :
    Writes core job idx idx'' := by
  refine ⟨fun fh hm => (h'.files fh hm).elim (h.files fh) .inr, ?_⟩
  rcases h.catalog with hc | hc <;> rcases h'.catalog with hc' | hc'
  · exact .inl (fun key => (hc' key).trans (hc key))
  · exact .inr (fun key => by rw [hc', hc])
  · exact .inr (fun key => by rw [hc', hc])
  · refine .inr (fun key => ?_)
    rw [hc', hc]
    split <;> rfl

theorem registerFile_writes {req : RegisterFile} {n : ℕ} (hv : req.volume = some job.volume)
    (hp : req.path = some job.dest)
    (h : registerFile core idx (core.fileHashOf job.bytes) req = .ok (n, idx')) :
    Writes core job idx idx' := by
  obtain ⟨_, _, hfiles, _⟩ := registerFile_spec h
  refine ⟨fun fh hm => ?_, .inr (fun key => ?_)⟩
  · rw [hfiles, AList.mem_insert] at hm
    exact hm.symm
  · unfold registerFile at h
    split at h
    · cases h
    · cases h
      simp only [recordFile, hv, hp]
      exact Table.lookup_insert_if ..

variable {β : Type} {store : BlobStore Hash β} {app app' : AppState Hash β}

/-- What one request of a call does to files and catalog. -/
theorem handled_writes (hx : core.HexLaws) {stage : Stage Hash} {r : Server.Request} {a : Answer}
    (hr : nextRequest core job stage = some r) (h : Handled core store app r a app') :
    Writes core job app.index app'.index := by
  obtain ⟨P, h⟩ : ∃ P, Serves core store P app r a app' := by
    rcases h with h | ⟨h, _⟩ <;> exact ⟨_, h⟩
  cases serves_outcome h with
  | put ns hashHex body hash info _ _ accepted done =>
    obtain ⟨_, hi⟩ | ⟨_, hi⟩ := completes_putStore done
    · rw [hi]
      exact .refl _
    · obtain ⟨_, hf, hc, _⟩ := indexXorb_spec hi
      exact ⟨fun fh hm => .inl (hf ▸ hm), .inl (fun key => by rw [hc])⟩
  | registered req fh result idx done =>
    cases stage with
    | query locs todo => cases todo <;> cases hr
    | register terms =>
      cases hr
      simp only [Serves, start, hx.from_hex] at h
      obtain ⟨_, _, he, _⟩ | ⟨n, idx', hreg, _, hidx⟩ := completes_register h
      · cases he
      · rw [hidx]
        exact registerFile_writes rfl rfl hreg
    | _ => cases hr
  | collected => exact absurd rfl (FailedIngest.nextRequest_ne_gc hr)
  | unchanged _ _ _ other index =>
    rw [index]
    exact .refl _

end

variable {Hash : Type} [DecidableEq Hash] {core : XetCore Hash} {publicBase : String}
  {app app' : AppState Hash (LocalFs Hash)} {job : Job} {fh : String} {b : Bytes}

theorem ingests_writes (hx : core.HexLaws) {stage : Stage Hash} {cut : Option (Handler Hash)}
    {result : Except String String}
    (h : Ingests core (localFs core publicBase) job stage app cut result app') :
    Writes core job app.index app'.index := by
  induction h with
  | finished => exact .refl _
  | computed next rest ih => exact ih
  | answered next fits handled rest ih => exact (handled_writes hx next handled).trans ih
  | refused next large rest ih => exact ih
  | lost next handled rest ih =>
    rcases handled with rfl | ⟨_, a, handled⟩
    · exact ih
    · exact (handled_writes hx next handled).trans ih
  | dropped next fits dropped rest ih =>
    obtain ⟨_, hi, _⟩ | ⟨_, _, _, _, hs⟩ :=
      FailedIngest.dropped_left (FailedIngest.nextRequest_ne_gc next) dropped
    · exact hi ▸ ih
    · exact hs.index ▸ ih

/-- A server at rest with nothing stranded, whose files are byte strings no chunk of which
repeats. -/
structure Quiet (core : XetCore Hash) (app : AppState Hash (LocalFs Hash)) : Prop
    extends Settled core (fun _ => False) app where
  known : ∀ fh ∈ app.index.files, ∃ b, Distinct core b ∧ fh = core.fileHashOf b

/-- The server knows the hash as that of these bytes. -/
structure Names (core : XetCore Hash) (app : AppState Hash (LocalFs Hash)) (fh : String)
    (b : Bytes) : Prop where
  distinct : Distinct core b
  hash : fh = core.hex (core.fileHashOf b)
  recorded : core.fileHashOf b ∈ app.index.files

omit [DecidableEq Hash] in
theorem Names.mono (h : Names core app fh b)
    (hext : ∀ fh ∈ app.index.files, fh ∈ app'.index.files) : Names core app' fh b :=
  ⟨h.distinct, h.hash, hext _ h.recorded⟩

theorem settled_congr {found found' : Hash → Prop} (h : Settled core found app)
    (hf : ∀ x, found x ↔ found' x) : Settled core found' app :=
  ⟨h.toHolding, fun x => (h.stranded x).trans (hf x)⟩

variable (publicBase) in
theorem Quiet.reads (hex : core.HexLaws) (gate : core.GateLaws) (pipe : core.PipelineLaws)
    (h : Quiet core app) (hn : Names core app fh b) :
    (servedAgent core publicBase).reconstruct fh app = .ok b := by
  simp only [servedAgent, fetchAlone_reconstruct, Option.getD_some]
  rw [hn.hash]
  exact h.toHolding.reconstruct hex gate pipe publicBase hn.distinct hn.recorded

/-- A whole call, no upload of which is dropped between its store and its index. -/
def TidyCall (core : XetCore Hash) (publicBase : String) (job : Job)
    (app : AppState Hash (LocalFs Hash)) (result : Except String String)
    (app' : AppState Hash (LocalFs Hash)) : Prop :=
  ∃ cut, (∀ x, ¬ CutAt cut x) ∧ Ingests core (localFs core publicBase) job
    (.query [] (core.nextBlock job.bytes)) app cut result app'

/-- However such a call ends, the server is quiet after it. -/
theorem Quiet.ingests (hex : core.HexLaws) (gate : core.GateLaws) (pipe : core.PipelineLaws)
    (h : Quiet core app) (hd : Distinct core job.bytes) {result : Except String String}
    (call : TidyCall core publicBase job app result app') :
    Quiet core app' ∧ (∀ fh ∈ app.index.files, fh ∈ app'.index.files) ∧
      Writes core job app.index app'.index := by
  obtain ⟨cut, hcut, call⟩ := call
  obtain ⟨hs, hext, _⟩ := h.toSettled.ingests hex gate pipe stageOk_start call
  have hw := ingests_writes hex call
  refine ⟨⟨settled_congr hs (fun x => by simp [hcut x]), fun fh hm => ?_⟩, hext.files, hw⟩
  rcases hw.files fh hm with hm | rfl
  · exact h.known fh hm
  · exact ⟨job.bytes, hd, rfl⟩

theorem Quiet.gc (h : Quiet core app) {a : Answer}
    (hs : Serves core (localFs core publicBase) Choice.Works app .gc a app') :
    Quiet core app' ∧ app'.index.files = app.index.files ∧
      app'.index.catalog = app.index.catalog := by
  obtain ⟨hs', hfiles, hcat, _⟩ := h.toSettled.gc hs
  have hnone : ∀ x, False ∨ Undeleted app app' x ↔ False := fun x =>
    iff_false_intro (fun hx => hx.elim id (deleted_works hs x))
  exact ⟨⟨settled_congr hs' hnone, fun fh hm => h.known fh (hfiles ▸ hm)⟩, hfiles, hcat⟩

theorem succeeds_overwrites (hex : core.HexLaws)
    (call : TidyCall core publicBase job app (.ok fh) app') :
    Overwrites core job app.index app'.index := by
  obtain ⟨_, _, call⟩ := call
  obtain ⟨_, hcat⟩ := ingests_catalog hex (by simp) call
  intro key
  rw [hcat]
  exact Table.lookup_insert_if ..

/-- No chunk of the bytes repeats, and their registration is within the limit of the
router. -/
def Keeps (core : XetCore Hash) (idx : Index Hash) (job : Job) : Prop :=
  Distinct core job.bytes ∧ ∀ r ∈ nextRequest core job (.register (termsFor core idx job.bytes)),
    r.Fits core

instance (idx : Index Hash) : DecidablePred (Keeps core idx) := fun _ =>
  inferInstanceAs (Decidable (_ ∧ _))

variable (publicBase) in
/-- The agent of a quiet server takes such bytes. -/
theorem Quiet.served (hex : core.HexLaws) (gate : core.GateLaws) (pipe : core.PipelineLaws)
    (packs : Packs core) (h : Quiet core app) {volume dest : String}
    (hk : Keeps core app.index ⟨volume, dest, b⟩) :
    ∃ app', (servedAgent core publicBase).ingestBytes volume dest b app =
        (.ok (core.hex (core.fileHashOf b)), app') ∧ Quiet core app' ∧
      (∀ fh ∈ app.index.files, fh ∈ app'.index.files) ∧
      Overwrites core ⟨volume, dest, b⟩ app.index app'.index ∧
      core.fileHashOf b ∈ app'.index.files := by
  obtain ⟨result, app', hrun, hend⟩ := settled_ends hex gate pipe packs publicBase h.toSettled
    ⟨volume, dest, b⟩ 0 (3 * (core.nextBlock b).length + 4) (Nat.le_refl _)
  cases hend with
  | oversized r next large => exact absurd (hk.2 r next) large
  | refused r next fits t x mem names stranded => exact stranded.elim
  | stored =>
    have hcall : TidyCall core publicBase ⟨volume, dest, b⟩ app
        (.ok (core.hex (core.fileHashOf b))) app' :=
      ⟨none, by simp [CutAt], ingestAlone_ingests hrun⟩
    obtain ⟨hq, hext, _⟩ := h.ingests hex gate pipe hk.1 hcall
    obtain ⟨_, _, hrec⟩ := ingested_recorded hex hq.toHolding (ingestAlone_ingests hrun)
    refine ⟨app', ?_, hq, hext, succeeds_overwrites hex hcall, hrec⟩
    simp only [servedAgent]
    rw [hrun]
    rfl

end Dejaveph.Proofs.QuietServer

import Dejaveph.Proofs.IngestSucceeds

namespace Dejaveph.Proofs.RacingUploads
open Lib Server Agent Unpoisoned DedupSound RegisteredTerms IngestSucceeds

variable {Hash : Type} {core : XetCore Hash}

/-- The text names a xorb that is stored, or indexed. -/
def Known (core : XetCore Hash) (app : AppState Hash (LocalFs Hash)) (xorb : String) : Prop :=
  ∃ x, core.fromHex xorb = some x ∧ (x ∈ app.blob.files ∨ x ∈ app.index.xorbs)

/-- The request is an upload of this xorb. -/
def Uploads (core : XetCore Hash) (r : Request) (x : Hash) : Prop :=
  ∃ ns hashHex body, r = .putXorb ns hashHex body ∧ core.fromHex hashHex = some x

/-- What a request of a call is answered with. -/
inductive Answers (core : XetCore Hash) (app : AppState Hash (LocalFs Hash)) :
    Request → Answer → Prop
  | put (r : Request) (x : Hash) (inserted : Bool) (uploads : Uploads core r x)
      (stored : x ∈ app.blob.files) : Answers core app r (.putXorb (.ok inserted))
  | hit (ns chunkHex : String) (hit : DedupHit) (known : Known core app hit.xorb) :
      Answers core app (.globalDedup ns chunkHex) (.globalDedup (.ok hit))
  | miss (ns chunkHex text : String) :
      Answers core app (.globalDedup ns chunkHex) (.globalDedup (.error ⟨.notFound, text⟩))
  | registered (req : RegisterFile) (n : ℕ) :
      Answers core app (.registerFile req) (.registerFile (.ok n))
  | refused (req : RegisterFile) (text : String) :
      Answers core app (.registerFile req) (.registerFile (.error ⟨.badRequest, text⟩))

/-- Where the handler of a request of a call stands. A `put` past its temporary file finds
that file, or the xorb in place. -/
def Fits (core : XetCore Hash) (app : AppState Hash (LocalFs Hash)) (r : Request) :
    Handler Hash → Prop
  | .putStore x _ call => Uploads core r x ∧ call.key = x ∧
    (call.stage = .rename → x ∈ app.blob.tmp ∨ x ∈ app.blob.files) ∧
    ((∃ e, call.stage = .recheck e) ∨ call.stage = .removeTmp → x ∈ app.blob.files)
  | .putIndex x _ _ => Uploads core r x ∧ x ∈ app.blob.files
  | .dedupLock _ => ∃ ns chunkHex, r = .globalDedup ns chunkHex
  | .registerLock _ req => r = .registerFile req ∧ ∀ t ∈ req.terms, Known core app t.xorb
  | .reply a | .answered a => Answers core app r a
  | _ => False

/-- The handler is to tell, or has told, that a registration is rejected. -/
def Rejects : Handler Hash → Prop
  | .reply (.registerFile (.error _)) | .answered (.registerFile (.error _)) => True
  | _ => False

/-- Nothing that is stored or indexed goes, and a temporary file goes only when its xorb is
in place. -/
structure Grows (app app' : AppState Hash (LocalFs Hash)) : Prop where
  files : ∀ x ∈ app.blob.files, x ∈ app'.blob.files
  tmp : ∀ x ∈ app.blob.tmp, x ∈ app'.blob.tmp ∨ x ∈ app'.blob.files
  xorbs : ∀ x ∈ app.index.xorbs, x ∈ app'.index.xorbs

section
variable {app app' : AppState Hash (LocalFs Hash)} {r : Request} {g g' : Handler Hash}

theorem Grows.same (hb : app'.blob = app.blob) (hx : app'.index.xorbs = app.index.xorbs) :
    Grows app app' :=
  ⟨fun _ h => hb ▸ h, fun _ h => .inl (hb ▸ h), fun _ h => hx ▸ h⟩

theorem Known.mono (hg : Grows app app') (xorb : String) (h : Known core app xorb) :
    Known core app' xorb := by
  obtain ⟨x, hx, hm⟩ := h
  exact ⟨x, hx, hm.imp (hg.files x) (hg.xorbs x)⟩

theorem Answers.mono (hg : Grows app app') {a : Answer} (h : Answers core app r a) :
    Answers core app' r a := by
  cases h with
  | put _ x inserted uploads stored => exact .put _ x inserted uploads (hg.files x stored)
  | hit ns chunkHex hit known => exact .hit ns chunkHex hit (known.mono hg)
  | miss ns chunkHex text => exact .miss ns chunkHex text
  | registered req n => exact .registered req n
  | refused req text => exact .refused req text

theorem Fits.mono (hg : Grows app app') (h : Fits core app r g) : Fits core app' r g := by
  cases g with
  | putStore x info call =>
    obtain ⟨hu, hk, htmp, hfile⟩ := h
    refine ⟨hu, hk, fun hs => ?_, fun hs => hg.files x (hfile hs)⟩
    rcases htmp hs with hm | hm
    · exact hg.tmp x hm
    · exact .inr (hg.files x hm)
  | putIndex x info len => exact ⟨h.1, hg.files x h.2⟩
  | registerLock fh req => exact ⟨h.1, fun t ht => (h.2 t ht).mono hg⟩
  | reply a | answered a => exact Answers.mono hg h
  | _ => exact h

end

section
variable {app : AppState Hash (LocalFs Hash)} {job : Job} {stage : Stage Hash} {r : Request}

theorem start_fits (hex : core.HexLaws) (pipe : core.PipelineLaws) (hok : StageOk core job stage)
    (hp : Placed (Known core app) (Known core app) stage)
    (hr : nextRequest core job stage = some r) :
    Fits core app r (start core r) ∧ ¬ Rejects (start core r) := by
  cases stage with
  | query locs todo =>
    cases todo with
    | nil => cases hr
    | cons c todo =>
      cases hr
      simp only [start, hex.from_hex]
      exact ⟨⟨_, _, rfl⟩, id⟩
  | upload terms group ser rest =>
    cases hr
    obtain ⟨_, _, hcut, hne, _, hser, _⟩ := hok
    obtain ⟨info, _, _, hv, _⟩ :=
      pipe.serialized job.bytes group ser (infix_of_append hcut) hne hser
    have hgate : gate core (core.hex ser.hash) ser.serializedData = .ok (ser.hash, info) := by
      simp only [gate, hex.from_hex, hv]
    simp only [start, hgate]
    exact ⟨⟨⟨_, _, _, rfl, hex.from_hex _⟩, rfl, by simp [PutCall.start],
      by simp [PutCall.start]⟩, id⟩
  | register terms =>
    cases hr
    simp only [start, hex.from_hex]
    exact ⟨⟨rfl, hp⟩, id⟩
  | walk | finished => cases hr

/-- A call that has not ended with an error, unless its registration is rejected or too
large. -/
def Unfailed (core : XetCore Hash) (job : Job) (stage : Stage Hash) : Prop :=
  ∀ e, stage = .finished (.error e) → e = refused ∨ KnownContent.Ends core job (.error e)

end

variable [DecidableEq Hash]

section
variable {app app' : AppState Hash (LocalFs Hash)} {r : Request} {g g' : Handler Hash}

theorem putStep_fits {x : Hash} {info : XorbObjectInfoV1 Hash} {call : PutCall Hash} (len : ℕ)
    (h : Fits core app r (.putStore x info call)) :
    Grows app { app with blob := (LocalFs.putStep call .ok app.blob).2 } ∧
      Fits core { app with blob := (LocalFs.putStep call .ok app.blob).2 } r
        (afterPut x info len (LocalFs.putStep call .ok app.blob).1) ∧
      ∀ y ∈ (LocalFs.putStep call .ok app.blob).2.files, y ∈ app.blob.files ∨
        afterPut x info len (LocalFs.putStep call .ok app.blob).1 = .putIndex y info len := by
  obtain ⟨hu, rfl, htmp, hfile⟩ := h
  obtain ⟨key, bytes, stage⟩ := call
  simp only at htmp hfile
  cases stage with
  | tryExists =>
    by_cases hm : key ∈ app.blob.files
    · simp only [LocalFs.putStep, hm, ↓reduceIte]
      exact ⟨.same rfl rfl, .put r key false hu hm, fun y hy => .inl hy⟩
    · simp only [LocalFs.putStep, hm, ↓reduceIte]
      exact ⟨.same rfl rfl, ⟨hu, rfl, by simp, by simp⟩, fun y hy => .inl hy⟩
  | createDir => exact ⟨.same rfl rfl, ⟨hu, rfl, by simp, by simp⟩, fun y hy => .inl hy⟩
  | write =>
    refine ⟨⟨fun _ h => h, fun y hy => .inl ?_, fun _ h => h⟩, ⟨hu, rfl, fun _ => .inl ?_, by simp⟩,
      fun y hy => .inl hy⟩
    · exact (AList.mem_insert _).mpr (.inr hy)
    · exact (AList.mem_insert _).mpr (.inl rfl)
  | rename =>
    cases hb : app.blob.tmp.lookup key with
    | none =>
      have hm := (htmp rfl).resolve_left (AList.lookup_eq_none.mp hb)
      simp only [LocalFs.putStep, hb]
      exact ⟨.same rfl rfl, ⟨hu, rfl, by simp, fun _ => hm⟩, fun y hy => .inl hy⟩
    | some b =>
      simp only [LocalFs.putStep, hb]
      have hin : ∀ y, y ∈ app.blob.files.insert key b ↔ y = key ∨ y ∈ app.blob.files :=
        fun y => AList.mem_insert _
      refine ⟨⟨fun y hy => (hin y).mpr (.inr hy), fun y hy => ?_, fun _ h => h⟩,
        ⟨hu, (hin key).mpr (.inl rfl)⟩, fun y hy => ?_⟩
      · by_cases hk : y = key
        · exact .inr ((hin y).mpr (.inl hk))
        · exact .inl (AList.mem_erase.mpr ⟨hk, hy⟩)
      · rcases (hin y).mp hy with rfl | hy
        · exact .inr rfl
        · exact .inl hy
  | recheck e =>
    have hm := hfile (.inl ⟨e, rfl⟩)
    simp only [LocalFs.putStep, hm, ↓reduceIte]
    exact ⟨.same rfl rfl, ⟨hu, rfl, by simp, fun _ => hm⟩, fun y hy => .inl hy⟩
  | removeTmp =>
    have hm := hfile (.inr rfl)
    refine ⟨⟨fun _ h => h, fun y hy => ?_, fun _ h => h⟩, .put r key false hu hm,
      fun y hy => .inl hy⟩
    by_cases hk : y = key
    · exact .inr (hk ▸ hm)
    · exact .inl (AList.mem_erase.mpr ⟨hk, hy⟩)

variable {publicBase : String} {c : Choice Hash}

theorem advance_fits (hex : core.HexLaws) (works : c.io = .ok) (clean : app.poisoned = false)
    (clean' : app'.poisoned = false) (sound : Sound core app.index) (h : Fits core app r g)
    (ha : advance core (localFs core publicBase) c app g = some (app', g')) :
    Grows app app' ∧ Fits core app' r g' ∧
      (∀ y ∈ app'.blob.files, y ∈ app.blob.files ∨ ∃ info len, g' = .putIndex y info len) ∧
      ∀ x info len, g = .putIndex x info len → x ∈ app'.index.xorbs := by
  cases g with
  | putStore x info call =>
    cases ha
    obtain ⟨hgrows, hfits, hstored⟩ := putStep_fits call.bytes.length h
    rw [works]
    exact ⟨hgrows, hfits, fun y hy => (hstored y hy).imp_right (fun he => ⟨_, _, he⟩),
      fun _ _ _ he => by cases he⟩
  | putIndex x info len =>
    obtain ⟨hu, hm⟩ := h
    simp only [advance, lock, clean, Bool.false_eq_true, ↓reduceIte, Option.some.injEq] at ha
    split at ha
    · cases ha
      cases clean'
    · rename_i idx hidx
      cases ha
      have hin : ∀ y, y ∈ idx.xorbs ↔ y = x ∨ y ∈ app.index.xorbs := by
        intro y
        rw [(indexXorb_spec hidx).1]
        exact Table.mem_orInsert
      refine ⟨⟨fun _ h => h, fun _ h => .inl h, fun y hy => (hin y).mpr (.inr hy)⟩,
        .put r x true hu hm, fun y hy => .inl hy, ?_⟩
      rintro _ info' len' he
      cases he
      exact (hin x).mpr (.inl rfl)
  | dedupLock ch =>
    obtain ⟨ns, chunkHex, rfl⟩ := h
    simp only [advance, lock, clean, Bool.false_eq_true, ↓reduceIte, Option.some.injEq,
      Prod.mk.injEq] at ha
    obtain ⟨rfl, rfl⟩ := ha
    refine ⟨.same rfl rfl, ?_, fun y hy => .inl hy, fun _ _ _ he => by cases he⟩
    cases hl : app.index.chunkIndex.lookup ch with
    | none => exact .miss ns chunkHex ""
    | some loc =>
      exact .hit ns chunkHex _ ⟨loc.xorb, hex.from_hex _, .inr (sound.entries ch loc hl).1⟩
  | registerLock fh req =>
    obtain ⟨rfl, hterms⟩ := h
    simp only [advance, lock, clean, Bool.false_eq_true, ↓reduceIte, Option.some.injEq] at ha
    split at ha
    · rename_i f hf
      cases ha
      obtain ⟨status, text⟩ := f
      obtain rfl : status = .badRequest := (registerFile_rejected hf).1
      exact ⟨.same rfl rfl, .refused req text, fun y hy => .inl hy, fun _ _ _ he => by cases he⟩
    · rename_i result idx hreg
      cases ha
      obtain ⟨_, _, _, hx, _⟩ := registerFile_spec hreg
      exact ⟨.same rfl hx, .registered req result, fun y hy => .inl hy, fun _ _ _ he => by cases he⟩
  | reply a =>
    cases ha
    exact ⟨.same rfl rfl, h, fun y hy => .inl hy, fun _ _ _ he => by cases he⟩
  | answered a => cases ha
  | _ => exact absurd h id

end

omit [DecidableEq Hash] in
/-- An upload has stored this xorb and has not indexed it yet. -/
def Pending (s : State Hash (LocalFs Hash)) (x : Hash) : Prop :=
  ∃ n t info len, s.tasks n = some t ∧ t.handler = .putIndex x info len

/-- Every handler stands where its request brings it, and what is stored is indexed or
about to be. -/
structure Racing (core : XetCore Hash) (s : State Hash (LocalFs Hash)) : Prop where
  fits : ∀ n t, s.tasks n = some t → Fits core s.app t.request t.handler
  stored : ∀ x ∈ s.app.blob.files, x ∈ s.app.index.xorbs ∨ Pending s x

section
variable {publicBase : String}

/-- What calls on a reliable server keep to. -/
structure Smooth (core : XetCore Hash) (w : World Hash (LocalFs Hash)) : Prop where
  world : RegisteredTerms.Invariant core w
  clean : Clean core w.server
  racing : Racing core w.server
  calls : ∀ i c, w.clients i = some c →
    Placed (Known core w.server.app) (Known core w.server.app) c.stage ∧
    Unfailed core c.job c.stage

/-- A registration that is rejected names a xorb that another upload has stored and not
yet indexed. -/
theorem rejected_pending {w : World Hash (LocalFs Hash)} (hi : Smooth core w) {n : ℕ}
    {r : Request} {fh : Hash} {req : RegisterFile} {f : Failure}
    (task : w.server.tasks n = some ⟨r, .registerLock fh req⟩)
    (rejected : registerFile core w.server.app.index fh req = .error f) :
    ∃ t ∈ req.terms, ∃ x, core.fromHex t.xorb = some x ∧ x ∉ w.server.app.index.xorbs ∧
      Pending w.server x := by
  obtain ⟨_, t, ht, hnot⟩ := registerFile_rejected rejected
  obtain ⟨_, hterms⟩ := hi.racing.fits n _ task
  obtain ⟨x, hx, hm⟩ := hterms t ht
  have hm := hm.resolve_right (hnot x hx)
  exact ⟨t, ht, x, hx, hnot x hx, (hi.racing.stored x hm).resolve_left (hnot x hx)⟩

omit [DecidableEq Hash] in
/-- No upload is between its store and its index but the one that call `i` waits for. -/
def Clear (i : ℕ) (w : World Hash (LocalFs Hash)) : Prop :=
  ∀ n t x info len, w.server.tasks n = some t → t.handler = .putIndex x info len →
    ∃ d, w.clients i = some d ∧ d.waiting = some n

omit [DecidableEq Hash] in
/-- Call `i` has not been refused, and the answer to its request is no rejection. -/
def Unrefused (i : ℕ) (job : Job) (w : World Hash (LocalFs Hash)) : Prop :=
  ∃ d, w.clients i = some d ∧ d.job = job ∧ d.stage ≠ .finished (.error refused) ∧
    ∀ n t, d.waiting = some n → w.server.tasks n = some t → ¬ Rejects t.handler

/-- Call `i` is in nobody's way. -/
structure Undisturbed (core : XetCore Hash) (i : ℕ) (job : Job) (w : World Hash (LocalFs Hash)) :
    Prop where
  smooth : Smooth core w
  few : ∃ n, Below n w.server
  clear : Clear i w
  call : Unrefused i job w

section
variable {i : ℕ} {job : Job} {w w' : World Hash (LocalFs Hash)} {e : Event Hash}

omit [DecidableEq Hash] in
/-- While a call waits for nothing, no upload is between its store and its index. -/
theorem Clear.idle {d : Client Hash} (hc : Clear i w) (hd : w.clients i = some d)
    (hw : d.waiting = none) {n : ℕ} {t : Exchange Hash} (ht : w.server.tasks n = some t)
    {x : Hash} {info : XorbObjectInfoV1 Hash} {len : ℕ} : t.handler ≠ .putIndex x info len := by
  intro hh
  obtain ⟨d', hd', hwait⟩ := hc n t x info len ht hh
  obtain rfl := Option.some.inj (hd.symm.trans hd')
  rw [hw] at hwait
  cases hwait

/-- A rejection would be another upload's doing. -/
theorem Undisturbed.takes (hu : Undisturbed core i job w) {d : Client Hash}
    (hd : w.clients i = some d) {n : ℕ} (hw : d.waiting = some n) {r : Request} {fh : Hash}
    {req : RegisterFile} (ht : w.server.tasks n = some ⟨r, .registerLock fh req⟩) :
    ∃ p, registerFile core w.server.app.index fh req = .ok p := by
  cases hreg : registerFile core w.server.app.index fh req with
  | ok p => exact ⟨p, rfl⟩
  | error f =>
    obtain ⟨_, _, x, _, _, m, t, info, len, hm, hh⟩ := rejected_pending hu.smooth ht hreg
    obtain ⟨d', hd', hwait⟩ := hu.clear m t x info len hm hh
    obtain rfl := Option.some.inj (hd.symm.trans hd')
    obtain rfl := Option.some.inj (hw.symm.trans hwait)
    obtain rfl := Option.some.inj (ht.symm.trans hm)
    cases hh

end

end

end Dejaveph.Proofs.RacingUploads

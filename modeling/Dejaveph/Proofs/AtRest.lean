import Dejaveph.Agent.Alone
import Dejaveph.Proofs.DistinctChunks
import Dejaveph.Proofs.FailedIngest
import Dejaveph.Proofs.Layout

namespace Dejaveph.Proofs.AtRest
open Lib Server Agent DedupSound RegisteredTerms ServedRanges StoredXorbs RoundTrip DistinctChunks
  Layout

variable {Hash : Type} {core : XetCore Hash} {publicBase : String}

/-- No file and no xorb is forgotten. -/
structure Extends (idx idx' : Index Hash) : Prop where
  files : ∀ fh ∈ idx.files, fh ∈ idx'.files
  xorbs : ∀ x ∈ idx.xorbs, x ∈ idx'.xorbs

theorem Extends.refl (idx : Index Hash) : Extends idx idx := ⟨fun _ h => h, fun _ h => h⟩

theorem Extends.trans {idx idx' idx'' : Index Hash} (h : Extends idx idx')
    (h' : Extends idx' idx'') : Extends idx idx'' :=
  ⟨fun fh hm => h'.files fh (h.files fh hm), fun x hm => h'.xorbs x (h.xorbs x hm)⟩

variable [DecidableEq Hash]

/-- What the server holds is whole: each indexed xorb is stored as the serializer
wrote it, each file is recorded with its own chunks, and each path names a file. -/
structure Holding (core : XetCore Hash) (app : AppState Hash (LocalFs Hash)) : Prop where
  clean : app.poisoned = false
  sound : Sound core app.index
  kept : ∀ x xorbMeta, app.index.xorbs.lookup x = some xorbMeta →
    ∃ info, xorbMeta = XorbMeta.fromInfo info ∧ Kept core app.blob.object x info
  files : ∀ fh file, app.index.files.lookup fh = some file → Recorded core app.index fh file
  catalog : ∀ key fh, app.index.catalog.lookup key = some fh → fh ∈ app.index.files

/-- The xorb is stored and not indexed. -/
def Stranded (app : AppState Hash (LocalFs Hash)) (x : Hash) : Prop :=
  x ∈ app.blob.files ∧ x ∉ app.index.xorbs

/-- The server is at rest, with these xorbs stranded. -/
structure Settled (core : XetCore Hash) (found : Hash → Prop)
    (app : AppState Hash (LocalFs Hash)) : Prop extends Holding core app where
  stranded : ∀ x, Stranded app x ↔ found x

theorem Holding.packed (pipe : core.PipelineLaws) {app : AppState Hash (LocalFs Hash)}
    (h : Holding core app) : ∀ x ∈ app.index.xorbs, ∃ content, Packed core x content := by
  intro x hx
  obtain ⟨xorbMeta, hm⟩ := Table.mem_iff.mp hx
  obtain ⟨info, _, content, body, _, hser, _⟩ := h.kept x xorbMeta hm
  exact ⟨content, hser.packed pipe⟩

omit [DecidableEq Hash] in
theorem recorded_indexed {idx : Index Hash} {fh : Hash} {file : FileRecord Hash}
    (h : Recorded core idx fh file) : ∀ t ∈ file.terms, t.xorb ∈ idx.xorbs := by
  obtain ⟨b, _, _, groups, hall, _⟩ := h
  intro t ht
  obtain ⟨i, rfl⟩ := List.mem_iff_get.mp ht
  rw [List.forall₂_iff_get] at hall
  exact (hall.2 i.1 i.2 (hall.1 ▸ i.2)).1

theorem Holding.stocked {app : AppState Hash (LocalFs Hash)} (h : Holding core app) :
    FailedIngest.Stocked core app where
  sound := h.sound
  stored x hx := by
    obtain ⟨xorbMeta, hm⟩ := Table.mem_iff.mp hx
    obtain ⟨info, _, content, body, hb, _⟩ := h.kept x xorbMeta hm
    exact Table.mem_of_lookup hb
  named fh file hf := recorded_indexed (h.files fh file hf)

/-- A handler of a client's request between two of its steps, with the server to
itself. -/
structure Serving (core : XetCore Hash) (found : Hash → Prop) (r : Request)
    (app : AppState Hash (LocalFs Hash)) (g : Handler Hash) : Prop extends Holding core app where
  served : Served core r g
  upload : Upload core app.blob.object g
  staged : ∀ x info call, g = .putStore x info call → call.stage = .rename →
    ∀ body, app.blob.tmp.lookup call.key = some body → body = call.bytes
  indexed : ∀ x ∈ app.blob.files,
    x ∈ app.index.xorbs ∨ found x ∨ ∃ info len, g = .putIndex x info len

theorem putStep_staged {call call' : PutCall Hash} {io : Io} {fs : LocalFs Hash}
    (h : (LocalFs.putStep call io fs).1 = .pending call') (hs : call'.stage = .rename) :
    (LocalFs.putStep call io fs).2.tmp.lookup call'.key = some call'.bytes := by
  revert h
  unfold LocalFs.putStep PutCall.at
  repeat' split
  all_goals
    intro h
    cases h
  all_goals first | exact AList.lookup_insert _ | exact absurd hs (by simp)

section
variable {found : Hash → Prop} {app app' : AppState Hash (LocalFs Hash)} {r : Request}
  {g g' : Handler Hash} {c : Choice Hash}

theorem effect_extends (heff : Effect core (localFs core publicBase) c app g app' g')
    (hs : Served core r g) : Extends app.index app'.index := by
  cases heff with
  | indexed x info len index metrics clean done =>
    obtain ⟨hx, hf, _, _⟩ := indexXorb_spec done
    exact ⟨fun fh hm => hf ▸ hm, fun y hm => hx ▸ Table.mem_orInsert.mpr (.inr hm)⟩
  | registered fh req result index clean done =>
    obtain ⟨_, _, hf, hx, _⟩ := registerFile_spec done
    refine ⟨fun k hm => ?_, fun y hm => hx ▸ hm⟩
    rw [hf]
    exact (AList.mem_insert _).mpr (.inr hm)
  | evicted => exact absurd hs id
  | _ => exact .refl _

theorem effect_catalog (heff : Effect core (localFs core publicBase) c app g app' g')
    (h : ∀ key fh, app.index.catalog.lookup key = some fh → fh ∈ app.index.files) :
    ∀ key fh, app'.index.catalog.lookup key = some fh → fh ∈ app'.index.files := by
  cases heff with
  | indexed x info len index metrics clean done =>
    obtain ⟨_, hf, hc, _⟩ := indexXorb_spec done
    simp only [hf, hc]
    exact h
  | registered fh req result index clean done =>
    unfold registerFile at done
    split at done
    · cases done
    · rename_i terms _
      cases done
      have hfiles : ∀ k, k = fh ∨ k ∈ app.index.files →
          k ∈ app.index.files.insert fh ⟨req.totalSize, terms⟩ :=
        fun k hk => (AList.mem_insert app.index.files).mpr hk
      intro key k hk
      unfold recordFile at hk ⊢
      split at hk
      · rw [Table.lookup_insert_if] at hk
        split at hk
        · cases hk
          exact hfiles fh (.inl rfl)
        · exact hfiles k (.inr (h key k hk))
      · exact hfiles k (.inr (h key k hk))
  | _ => exact h

/-- The server with one handler. -/
def sole (app : AppState Hash (LocalFs Hash)) (r : Request) (g : Handler Hash) :
    State Hash (LocalFs Hash) :=
  ⟨app, fun i => if i = 0 then some ⟨r, g⟩ else none⟩

omit [DecidableEq Hash] in
theorem sole_forall {p : Exchange Hash → Prop} (h : p ⟨r, g⟩) :
    ∀ i t, (sole app r g).tasks i = some t → p t := by
  intro i t ht
  simp only [sole] at ht
  split at ht
  · cases ht
    exact h
  · cases ht

theorem sole_step (h : advance core (localFs core publicBase) c app g = some (app', g')) :
    Server.step core (localFs core publicBase) (sole app r g) (.step 0 c) =
      some (sole app' r g') := by
  have htasks : Function.update (sole app r g).tasks 0 (some ⟨r, g'⟩) = (sole app' r g').tasks := by
    funext i
    by_cases hi : i = 0 <;> simp [sole, hi]
  have htask : (sole app r g).tasks 0 = some ⟨r, g⟩ := rfl
  simp only [Server.step, htask]
  rw [show (sole app r g).app = app from rfl, h, Option.map_some]
  exact congrArg (fun tasks => some (State.mk app' tasks)) htasks

theorem upload_accepted {fs : LocalFs Hash} (h : Upload core fs.object g) : Accepted core g := by
  cases g with
  | putStore x info call => exact ⟨call.bytes, h.2.2⟩
  | putIndex x info len =>
    obtain ⟨_, body, _, _, hv⟩ := h
    exact ⟨body, hv⟩
  | _ => trivial

theorem Serving.serverOk (pipe : core.PipelineLaws) (h : Serving core found r app g) :
    ServerOk core (sole app r g) where
  dedup := ⟨h.sound, sole_forall (upload_accepted h.upload)⟩
  packed := h.packed pipe
  served := sole_forall h.served
  files := h.files

theorem advance_putIndex {x : Hash} {info : XorbObjectInfoV1 Hash} {len : ℕ}
    (clean : app.poisoned = false) (clean' : app'.poisoned = false)
    (h : advance core (localFs core publicBase) c app (.putIndex x info len) = some (app', g')) :
    indexXorb app.index x info = some app'.index ∧ app'.blob = app.blob := by
  simp only [advance, lock, clean, Bool.false_eq_true, ↓reduceIte, Option.some.injEq] at h
  split at h
  · cases h
    cases clean'
  · rename_i idx hi
    cases h
    exact ⟨hi, rfl⟩

/-- Whatever a step leaves in the store is indexed or about to be, or was found there. -/
theorem Serving.indexed_step (h : Serving core found r app g) (clean : app'.poisoned = false)
    (ha : advance core (localFs core publicBase) c app g = some (app', g')) :
    ∀ x ∈ app'.blob.files,
      x ∈ app'.index.xorbs ∨ found x ∨ ∃ info len, g' = .putIndex x info len := by
  by_cases hput : ∃ y info len, g = .putIndex y info len
  · obtain ⟨y, info, len, rfl⟩ := hput
    obtain ⟨hidx, hblob⟩ := advance_putIndex h.clean clean ha
    intro x hx
    rw [hblob] at hx
    rw [(indexXorb_spec hidx).1, Table.mem_orInsert]
    obtain hm | hm | ⟨_, _, he⟩ := h.indexed x hx
    · exact .inl (.inr hm)
    · exact .inr (.inl hm)
    · cases he
      exact .inl (.inl rfl)
  have hold : ∀ x ∈ app.blob.files, x ∈ app.index.xorbs ∨ found x := by
    intro x hx
    obtain hm | hm | ⟨info, len, he⟩ := h.indexed x hx
    · exact .inl hm
    · exact .inr hm
    · exact absurd ⟨x, info, len, he⟩ hput
  have heff := advance_effect core _ ha
  intro x hx
  cases heff with
  | stored y info call =>
    obtain ⟨hfiles, _⟩ | ⟨b, _, _, _, hdone, hfiles⟩ := LocalFs.putStep_cases call c.io app.blob
    · exact (hold x (hfiles ▸ hx)).imp_right .inl
    · have hx : x ∈ app.blob.files.insert call.key b := hfiles ▸ hx
      rcases (AList.mem_insert _).mp hx with rfl | hx
      · refine .inr (.inr ⟨info, call.bytes.length, ?_⟩)
        obtain ⟨hk, _⟩ := h.upload
        change afterPut y info _ (LocalFs.putStep call c.io app.blob).1 = _
        rw [hdone, hk]
        rfl
      · exact (hold x hx).imp_right .inl
  | indexed y info len => exact absurd ⟨y, info, len, rfl⟩ hput
  | registered fh req result index _ done =>
    obtain ⟨_, _, _, hxorbs, _⟩ := registerFile_spec done
    rw [hxorbs]
    exact (hold x hx).imp_right .inl
  | evicted | deleted => exact absurd h.served id
  | _ => exact (hold x hx).imp_right .inl

theorem Serving.step (hex : core.HexLaws) (gate : core.GateLaws) (pipe : core.PipelineLaws)
    (h : Serving core found r app g) (clean : app'.poisoned = false)
    (ha : advance core (localFs core publicBase) c app g = some (app', g')) :
    Serving core found r app' g' ∧ Extends app.index app'.index := by
  have hstep := sole_step (r := r) ha
  have heff := advance_effect core _ ha
  have hok := step_serverOk hex gate pipe (h.serverOk pipe) (fun n q he => by cases he) hstep
  have hshelved : Shelved core LocalFs.object (sole app r g) := ⟨sole_forall h.upload, h.kept⟩
  have hshelf := step_shelved hex gate pipe (h.serverOk pipe) hshelved (fun n q he => by cases he)
    (by
      rintro n c' he q x info call ht hk
      cases he
      cases ht
      exact localFs_whole fun hs _ body hb => h.staged x info call rfl hs body (hk ▸ hb)) hstep
  refine ⟨⟨⟨clean, hok.dedup.sound, hshelf.indexed, hok.files, effect_catalog heff h.catalog⟩,
    hok.served 0 _ rfl, hshelf.uploads 0 _ rfl, ?_, h.indexed_step clean ha⟩,
    effect_extends heff h.served⟩
  intro x info call hg hs body hb
  cases heff with
  | stored y info' call' =>
    obtain ⟨hout, rfl⟩ := afterPut_putStore hg
    have hnew := putStep_staged hout hs
    exact Option.some.inj (hb.symm.trans hnew)
  | marked | evicted => exact absurd hg gcNext_putStore
  | quiet _ _ metrics live still =>
    subst hg
    exact absurd still id
  | _ => cases hg

variable {a : Answer} {P : Choice Hash → Prop}

/-- A handler that has come to its response leaves the server whole, whatever file
operations fail on its way. -/
theorem Serving.completes (hex : core.HexLaws) (gate : core.GateLaws) (pipe : core.PipelineLaws)
    (h : Serving core found r app g)
    (hc : Completes core (localFs core publicBase) P app g a app') :
    Serving core found r app' (.reply a) ∧ Extends app.index app'.index := by
  induction hc with
  | reply app a => exact ⟨h, .refl _⟩
  | step c allowed move rest ih =>
    have clean := (completes_poisoned rest).symm
    rw [completes_poisoned (.step c allowed move rest), h.clean] at clean
    obtain ⟨hs, hext⟩ := h.step hex gate pipe clean move
    obtain ⟨hs', hrest⟩ := ih hs
    exact ⟨hs', hext.trans hrest⟩

theorem Serving.reaches (hex : core.HexLaws) (gate : core.GateLaws) (pipe : core.PipelineLaws)
    (h : Serving core found r app g)
    (hc : Reaches core (localFs core publicBase) P app g app' g') (mid : g'.midway = true) :
    Serving core found r app' g' ∧ Extends app.index app'.index := by
  induction hc with
  | here app g => exact ⟨h, .refl _⟩
  | step c allowed move rest ih =>
    have clean := (reaches_poisoned rest mid).symm
    rw [reaches_poisoned (.step c allowed move rest) mid, h.clean] at clean
    obtain ⟨hs, hext⟩ := h.step hex gate pipe clean move
    obtain ⟨hs', hrest⟩ := ih hs mid
    exact ⟨hs', hext.trans hrest⟩

theorem Settled.start (hex : core.HexLaws) (pipe : core.PipelineLaws) (h : Settled core found app)
    (hr : Asked core r) : Serving core found r app (start core r) where
  toHolding := h.toHolding
  served := start_served hex pipe hr
  upload := start_upload hex hr
  staged := by
    intro x info call hg hs
    have hstart := start_started core r
    rw [hg] at hstart
    cases hstart with
    | putXorb => cases hs
    | quiet _ _ still => exact absurd still id
  indexed x hx := by
    by_cases hm : x ∈ app.index.xorbs
    · exact .inl hm
    · exact .inr (.inl ((h.stranded x).mp ⟨hx, hm⟩))

/-- The blob of a stranded xorb stays as it is, and is not indexed. -/
def Stays (app app' : AppState Hash (LocalFs Hash)) : Prop :=
  ∀ x, Stranded app x →
    app'.blob.files.lookup x = app.blob.files.lookup x ∧ x ∉ app'.index.xorbs

theorem stays_same {app app' : AppState Hash (LocalFs Hash)} (hi : app'.index = app.index)
    (hb : app'.blob.files = app.blob.files) : Stays app app' := by
  rintro x ⟨_, hn⟩
  rw [hi, hb]
  exact ⟨rfl, hn⟩

theorem Stays.stranded (h : Stays app app') {x : Hash} (hx : Stranded app x) :
    Stranded app' x := by
  obtain ⟨hl, hn⟩ := h x hx
  exact ⟨Table.mem_iff.mpr (hl ▸ Table.mem_iff.mp hx.1), hn⟩

theorem Stays.trans {app'' : AppState Hash (LocalFs Hash)} (h : Stays app app')
    (h' : Stays app' app'') : Stays app app'' := by
  intro x hx
  obtain ⟨hl, hn⟩ := h' x (h.stranded hx)
  exact ⟨hl.trans (h x hx).1, hn⟩

theorem handled_stays (hr : r ≠ .gc) (hh : Handled core (localFs core publicBase) app r a app') :
    Stays app app' := by
  obtain ⟨P, hs, hput⟩ : ∃ P, Serves core (localFs core publicBase) P app r a app' ∧
      ∀ hash info body, Completes core (localFs core publicBase) P app
        (.putStore hash info (PutCall.start hash body)) a app' →
        app'.index = app.index ∧ app'.blob.files = app.blob.files ∨
        hash ∉ app.blob.files ∧ app'.blob.files = app.blob.files.insert hash body ∧
          indexXorb app.index hash info = some app'.index := by
    rcases hh with hh | ⟨hh, hf⟩
    · refine ⟨_, hh, fun hash info body hc => ?_⟩
      obtain ⟨_, rfl, _⟩ | ⟨_, hnew⟩ := completes_put hc
      · exact .inl ⟨rfl, rfl⟩
      · exact .inr hnew
    · exact ⟨_, hh, fun hash info body hc => .inl (FailedIngest.completes_failedPut hc hf)⟩
  cases serves_outcome hs with
  | put ns hashHex body hash info _ _ _ done =>
    obtain ⟨hi, hb⟩ | ⟨hnew, hb, hi⟩ := hput hash info body done
    · exact stays_same hi hb
    · rintro x ⟨hx, hn⟩
      have hne : x ≠ hash := fun he => hnew (he ▸ hx)
      rw [hb, AList.lookup_insert_ne hne, (indexXorb_spec hi).1, Table.mem_orInsert]
      exact ⟨rfl, fun hm => hm.elim hne hn⟩
  | registered req fh result idx done =>
    obtain ⟨_, _, _, hxorbs, _⟩ := registerFile_spec done
    rintro x ⟨_, hn⟩
    exact ⟨rfl, hxorbs ▸ hn⟩
  | collected => exact absurd rfl hr
  | unchanged _ _ _ _ hi hb => exact stays_same hi (congrArg LocalFs.files hb)

theorem Settled.handled (hex : core.HexLaws) (gate : core.GateLaws) (pipe : core.PipelineLaws)
    (h : Settled core found app) (hr : Asked core r)
    (hh : Handled core (localFs core publicBase) app r a app') :
    Settled core found app' ∧ AnswerOk core r a ∧ Extends app.index app'.index ∧
      Stays app app' := by
  obtain ⟨hs, hext⟩ : Serving core found r app' (.reply a) ∧ Extends app.index app'.index := by
    have hs := h.start hex pipe hr
    rcases hh with hh | ⟨hh, _⟩
    · exact hs.completes hex gate pipe hh
    · exact hs.completes hex gate pipe hh
  have hgc : r ≠ .gc := by
    rintro rfl
    exact hr
  have hstays := handled_stays hgc hh
  refine ⟨⟨hs.toHolding, fun x => ⟨?_, fun hx => hstays.stranded ((h.stranded x).mpr hx)⟩⟩,
    hs.served, hext, hstays⟩
  rintro ⟨hx, hn⟩
  obtain hm | hm | ⟨_, _, he⟩ := hs.indexed x hx
  · exact absurd hm hn
  · exact hm
  · cases he

/-- The handler was dropped after it had put this xorb in place and before it indexed it. -/
def CutAt (cut : Option (Handler Hash)) (x : Hash) : Prop :=
  ∃ info len, cut = some (.putIndex x info len)

/-- A client's request whose handler is dropped leaves the server at rest, and strands the
xorb that it has put in place and not indexed. -/
theorem Settled.dropped (hex : core.HexLaws) (gate : core.GateLaws) (pipe : core.PipelineLaws)
    (h : Settled core found app) (hr : Asked core r)
    (hd : Dropped core (localFs core publicBase) app r g app') :
    Settled core (fun x => found x ∨ CutAt (some g) x) app' ∧ Extends app.index app'.index ∧
      Stays app app' := by
  obtain ⟨hs, hext⟩ : Serving core found r app' g ∧ Extends app.index app'.index := by
    have hs := h.start hex pipe hr
    rcases hd.reached with hh | ⟨_, hh⟩
    · exact hs.reaches hex gate pipe hh hd.midway
    · exact hs.reaches hex gate pipe hh hd.midway
  have hgc : r ≠ .gc := by
    rintro rfl
    exact hr
  have hback : Stays app app' ∧ ∀ x, CutAt (some g) x → Stranded app' x := by
    obtain ⟨hnot, hi, _, hb⟩ | ⟨y, info, len, rfl, hi, _, hfresh, b, hb⟩ :=
      FailedIngest.dropped_left hgc hd
    · exact ⟨stays_same hi hb, fun x ⟨info, len, he⟩ => absurd (Option.some.inj he) (hnot x info len)⟩
    · constructor
      · rintro x ⟨hx, hn⟩
        have hne : x ≠ y := fun he => hfresh (he ▸ hx)
        rw [hi, hb, AList.lookup_insert_ne hne]
        exact ⟨rfl, hn⟩
      · rintro x ⟨_, _, he⟩
        cases he
        refine ⟨hb ▸ (AList.mem_insert _).mpr (.inl rfl), fun hm => hfresh ?_⟩
        exact h.toHolding.stocked.stored y (hi ▸ hm)
  obtain ⟨hstays, hcut⟩ := hback
  refine ⟨⟨hs.toHolding, fun x => ⟨?_, ?_⟩⟩, hext, hstays⟩
  · rintro ⟨hx, hn⟩
    obtain hm | hm | ⟨info, len, rfl⟩ := hs.indexed x hx
    · exact absurd hm hn
    · exact .inl hm
    · exact .inr ⟨info, len, rfl⟩
  · rintro (hx | hx)
    · exact hstays.stranded ((h.stranded x).mpr hx)
    · exact hcut x hx

/-- A call that has the server to itself leaves it at rest, whether it succeeds or
fails, and wherever its responses are lost. -/
theorem Settled.ingests (hex : core.HexLaws) (gate : core.GateLaws) (pipe : core.PipelineLaws)
    {job : Job} {stage : Stage Hash} {cut : Option (Handler Hash)}
    {result : Except String String} (h : Settled core found app) (hok : StageOk core job stage)
    (hi : Ingests core (localFs core publicBase) job stage app cut result app') :
    Settled core (fun x => found x ∨ CutAt cut x) app' ∧ Extends app.index app'.index ∧
      Stays app app' := by
  induction hi with
  | finished =>
    exact ⟨⟨h.toHolding, fun x => (h.stranded x).trans (by simp [CutAt])⟩, .refl _,
      stays_same rfl rfl⟩
  | computed next rest ih => exact ih h (compute_ok hex gate pipe hok next)
  | answered next fits handled rest ih =>
    obtain ⟨hs, ha, hext, hstays⟩ := h.handled hex gate pipe (nextRequest_asked hok next) handled
    obtain ⟨hs', hext', hstays'⟩ := ih hs (resume_ok hex pipe hok next ha)
    exact ⟨hs', hext.trans hext', hstays.trans hstays'⟩
  | refused next large rest ih => exact ih h (tooLarge_ok hok)
  | lost next handled rest ih =>
    obtain rfl | ⟨_, a, handled⟩ := handled
    · exact ih h (hangUp_ok hok)
    · obtain ⟨hs, _, hext, hstays⟩ := h.handled hex gate pipe (nextRequest_asked hok next) handled
      obtain ⟨hs', hext', hstays'⟩ := ih hs (hangUp_ok hok)
      exact ⟨hs', hext.trans hext', hstays.trans hstays'⟩
  | dropped next fits dropped rest ih =>
    obtain ⟨e, he⟩ := hangUp_finished next
    rw [he] at rest
    obtain ⟨_, _, rfl⟩ := ingests_finished rest
    exact h.dropped hex gate pipe (nextRequest_asked hok next) dropped

end

section
variable {found : Hash → Prop} {app app' : AppState Hash (LocalFs Hash)} {a : Answer}

theorem settled_boot (disk : LocalFs Hash) :
    Settled core (· ∈ disk.files) ({ blob := disk } : AppState Hash (LocalFs Hash)) where
  clean := rfl
  sound := (boot_invariant disk).sound
  kept := nofun
  files := nofun
  catalog := nofun
  stranded := fun _ => and_iff_left (AList.notMem_empty _)

theorem swept_recorded {idx : Index Hash} {order : List Hash}
    (all : order.Perm idx.xorbs.keys) {fh : Hash} {file : FileRecord Hash}
    (hf : idx.files.lookup fh = some file) (h : Recorded core idx fh file) :
    Recorded core (sweep idx (garbage idx order)) fh file := by
  obtain ⟨b, hb, hsize, groups, hall, hflat⟩ := h
  refine ⟨b, hb, hsize, groups, ?_, hflat⟩
  rw [List.forall₂_iff_get] at hall ⊢
  refine ⟨hall.1, fun i h1 h2 => ?_⟩
  obtain ⟨hm, hspan⟩ := hall.2 i h1 h2
  refine ⟨?_, hspan⟩
  rw [mem_collected all]
  exact ⟨hm, mem_referenced.mpr ⟨fh, file, hf, _, List.get_mem _ _, rfl⟩⟩

/-- The xorb was swept, and its deletion has failed. -/
def Undeleted (app app' : AppState Hash (LocalFs Hash)) (x : Hash) : Prop :=
  x ∈ app.index.xorbs ∧ x ∉ app'.index.xorbs ∧ x ∈ app'.blob.files

/-- A collection alone leaves the server at rest, and forgets no file. It strands the
xorbs whose deletion fails. -/
theorem Settled.gc {P : Choice Hash → Prop} (h : Settled core found app)
    (hs : Serves core (localFs core publicBase) P app .gc a app') :
    Settled core (fun x => found x ∨ Undeleted app app' x) app' ∧
      app'.index.files = app.index.files ∧ app'.index.catalog = app.index.catalog ∧
      Stays app app' := by
  obtain ⟨order, all, _, ios, hlen, _, he⟩ := completes_gc hs
  have hi : app'.index = sweep app.index (garbage app.index order) := by rw [he]
  have hb : ∀ k ∉ garbage app.index order,
      app'.blob.files.lookup k = app.blob.files.lookup k := by
    intro k hk
    rw [he]
    exact deleteAll_keeps hlen hk
  have hfiles : app'.index.files = app.index.files := by rw [hi, sweep_files]
  have hcatalog : app'.index.catalog = app.index.catalog := by rw [hi, sweep_catalog]
  have hgone : ∀ x ∈ app'.index.xorbs, x ∉ garbage app.index order := by
    intro x hx hg
    rw [hi, mem_collected all] at hx
    exact ((mem_garbage all).mp hg).2 hx.2
  have hstays : Stays app app' := by
    rintro x ⟨_, hn⟩
    rw [hb x (fun hg => hn ((mem_garbage all).mp hg).1), hi, mem_collected all]
    exact ⟨rfl, fun hm => hn hm.1⟩
  refine ⟨⟨⟨?_, ?_, ?_, ?_, ?_⟩, fun x => ⟨?_, ?_⟩⟩, hfiles, hcatalog, hstays⟩
  · rw [completes_poisoned hs, h.clean]
  · rw [hi]
    exact FailedIngest.Sound.sweep h.sound _
  · intro x xorbMeta hx
    have hnot := hgone x (Table.mem_of_lookup hx)
    rw [hi, sweep_xorbs, if_neg hnot] at hx
    obtain ⟨info, he, hk⟩ := h.kept x xorbMeta hx
    exact ⟨info, he, hk.congr (hb x hnot)⟩
  · intro fh file hf
    rw [hfiles] at hf
    rw [hi]
    exact swept_recorded all hf (h.files fh file hf)
  · intro key fh hk
    rw [hcatalog] at hk
    rw [hfiles]
    exact h.catalog key fh hk
  · rintro ⟨hx, hn⟩
    by_cases hm : x ∈ app.index.xorbs
    · exact .inr ⟨hm, hn, hx⟩
    · refine .inl ((h.stranded x).mp ⟨?_, hm⟩)
      rw [Table.mem_iff, hb x (fun hg => hm ((mem_garbage all).mp hg).1), ← Table.mem_iff] at hx
      exact hx
  · rintro (hx | ⟨_, hn, hx⟩)
    · exact hstays.stranded ((h.stranded x).mpr hx)
    · exact ⟨hx, hn⟩

theorem deleted_works
    (hs : Serves core (localFs core publicBase) Choice.Works app .gc a app') (x : Hash) :
    ¬ Undeleted app app' x := by
  rintro ⟨hm, hn, hx⟩
  obtain ⟨order, all, hi, hb⟩ := serves_gc hs
  rw [hi, mem_collected all] at hn
  rw [Table.mem_iff, hb, if_pos ((mem_garbage all).mpr ⟨hm, fun hr => hn ⟨hm, hr⟩⟩)] at hx
  obtain ⟨_, hl⟩ := hx
  cases hl

theorem Holding.reconstruct (hex : core.HexLaws) (gate : core.GateLaws) (pipe : core.PipelineLaws)
    (publicBase : String) (h : Holding core app) {b : Bytes} (hd : Distinct core b)
    (hm : core.fileHashOf b ∈ app.index.files) :
    reconstruct core publicBase app (core.hex (core.fileHashOf b)) = .ok b := by
  obtain ⟨file, hfile⟩ := Table.mem_iff.mp hm
  have hrec := h.files _ file hfile
  have hal := aligned_distinct gate pipe (h.packed pipe) hrec hd
  have hshelved : Shelved core LocalFs.object (⟨app, fun _ => none⟩ : State Hash (LocalFs Hash)) :=
    ⟨nofun, h.kept⟩
  obtain ⟨content, pieces, hlay⟩ := recorded_layout gate pipe hshelved hrec
  rw [reconstruct_reads publicBase hex h.clean hfile hlay.within hlay.inside hlay.reads,
    hlay.whole gate pipe hal]

end

end Dejaveph.Proofs.AtRest

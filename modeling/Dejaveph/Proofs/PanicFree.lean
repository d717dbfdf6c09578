import Dejaveph.Proofs.Unpoisoned

namespace Dejaveph.Proofs.PanicFree
open Lib Server DedupSound

variable {Hash β : Type} {core : XetCore Hash}

section
variable [DecidableEq Hash]

/-- Up to the first unknown xorb, every term names chunks of its xorb. -/
def inRange (idx : Index Hash) : List (Term Hash) → Bool
  | [] => true
  | t :: ts =>
    match idx.xorbs.lookup t.xorb with
    | none => true
    | some xorbMeta => 0 < t.end_ && t.end_ ≤ xorbMeta.numChunks &&
        t.start ≤ xorbMeta.numChunks && inRange idx ts

section
variable {info : XorbObjectInfoV1 Hash} (hw : info.WellFormed)
include hw

omit [DecidableEq Hash] in
theorem boundary_isSome {i : UInt32} (hi : i ≠ 0) :
    (info.chunkBoundaryOffsets[i.toNat - 1]?).isSome = true ↔ i ≤ info.numChunks := by
  have hpos : 0 < i.toNat := Nat.pos_of_ne_zero (fun h => hi (UInt32.toNat_inj.mp h))
  rw [isSome_getElem?, hw.boundaries, UInt32.le_iff_toNat_le]
  omega

omit [DecidableEq Hash] in
theorem boundary_ne_zero {i : ℕ} {e : UInt32} (he : info.chunkBoundaryOffsets[i]? = some e) :
    e ≠ 0 := by
  have hlt := (List.pairwise_cons.mp hw.boundaries_increase).1 e (List.mem_of_getElem? he)
  rintro rfl
  exact absurd hlt (by decide)

omit [DecidableEq Hash] in
theorem byteStart_isSome (t : Term Hash) :
    (byteStart (XorbMeta.fromInfo info) t).isSome = true ↔ t.start ≤ info.numChunks := by
  by_cases hs : t.start = 0
  · simp [byteStart, hs, UInt32.le_iff_toNat_le]
  · simp only [byteStart, hs, ↓reduceIte, Option.isSome_map]
    exact boundary_isSome hw hs

omit [DecidableEq Hash] in
theorem byteEnd_isSome (t : Term Hash) :
    (byteEnd (XorbMeta.fromInfo info) t).isSome = true ↔ 0 < t.end_ ∧ t.end_ ≤ info.numChunks := by
  by_cases he : t.end_ = 0
  · simp [byteEnd, he]
  · have hpos : 0 < t.end_ :=
      UInt32.lt_iff_toNat_lt.mpr (Nat.pos_of_ne_zero (fun h => he (UInt32.toNat_inj.mp h)))
    rw [← boundary_isSome hw he]
    simp only [byteEnd, XorbMeta.fromInfo, he, ↓reduceIte, hpos, true_and]
    cases hb : info.chunkBoundaryOffsets[t.end_.toNat - 1]? with
    | none => rfl
    | some e => simp [boundary_ne_zero hw hb]

omit [DecidableEq Hash] in
/-- With the offsets of an accepted footer, the byte range of a term is computed
without a panic exactly when the term names chunks of the xorb. -/
theorem byteRange_isSome (t : Term Hash) :
    (byteRange (XorbMeta.fromInfo info) t).isSome = true ↔
      0 < t.end_ ∧ t.end_ ≤ info.numChunks ∧ t.start ≤ info.numChunks := by
  rw [← and_assoc, ← byteEnd_isSome hw, ← byteStart_isSome hw, byteRange]
  cases byteStart (XorbMeta.fromInfo info) t <;> cases byteEnd (XorbMeta.fromInfo info) t <;> simp

end

theorem collectTerms_isSome {idx : Index Hash} (gate : core.GateLaws)
    (hmetas : ∀ x xorbMeta, idx.xorbs.lookup x = some xorbMeta →
      ∃ info, core.Commits x info ∧ xorbMeta = XorbMeta.fromInfo info) (ts : List (Term Hash)) :
    (collectTerms idx ts).isSome = inRange idx ts := by
  induction ts with
  | nil => rfl
  | cons t ts ih =>
    simp only [collectTerms, inRange]
    cases hm : idx.xorbs.lookup t.xorb with
    | none => rfl
    | some xorbMeta =>
      obtain ⟨info, hc, rfl⟩ := hmetas _ _ hm
      have hb := byteRange_isSome (gate.well_formed _ _ hc) t
      cases hr : byteRange (XorbMeta.fromInfo info) t with
      | none =>
        rw [hr] at hb
        simp only [hr]
        change none.isSome = (decide (0 < t.end_) && decide (t.end_ ≤ info.numChunks) &&
          decide (t.start ≤ info.numChunks) && inRange idx ts)
        have hno : ¬ (0 < t.end_ ∧ t.end_ ≤ info.numChunks ∧ t.start ≤ info.numChunks) :=
          fun h => by simpa using hb.mpr h
        by_cases h₁ : 0 < t.end_ <;> by_cases h₂ : t.end_ ≤ info.numChunks <;>
          by_cases h₃ : t.start ≤ info.numChunks <;> simp_all
      | some r =>
        rw [hr] at hb
        obtain ⟨h₁, h₂, h₃⟩ := hb.mp rfl
        simp only [hr, Option.isSome_map, ih]
        simp [XorbMeta.fromInfo, h₁, h₂, h₃]

/-- The lengths that a handler adds to fit into 64 bits. -/
def Fits : Handler Hash → Prop
  | .putStore _ _ call => call.bytes.length < 2 ^ 64
  | .dataRead _ _ _ stop _ => stop + 1 < 2 ^ 64
  | .scrubRead _ _ _ len _ => len < 2 ^ 64
  | _ => True

/-- Every stored file has a 64-bit length. -/
structure Sized (fs : LocalFs Hash) : Prop where
  files : ∀ x body, fs.files.lookup x = some body → body.length < 2 ^ 64
  tmp : ∀ x body, fs.tmp.lookup x = some body → body.length < 2 ^ 64

/-- What a body, or the remainder of a failed write, is in memory. -/
def SizedLabel : Label Hash → Prop
  | .request _ (.putXorb _ _ body) => body.length < 2 ^ 64
  | .step _ ⟨.fail _ (some left), _⟩ => left.length < 2 ^ 64
  | _ => True

theorem sized_insert {m : Table Hash Bytes} {k : Hash} {b : Bytes}
    (hm : ∀ x body, m.lookup x = some body → body.length < 2 ^ 64) (hb : b.length < 2 ^ 64) :
    ∀ x body, AList.lookup x (m.insert k b) = some body → body.length < 2 ^ 64 := by
  intro x body hx
  rw [Table.lookup_insert_if] at hx
  split at hx
  · cases hx
    exact hb
  · exact hm x body hx

theorem sized_erase {m : Table Hash Bytes} {k : Hash}
    (hm : ∀ x body, m.lookup x = some body → body.length < 2 ^ 64) :
    ∀ x body, AList.lookup x (m.erase k) = some body → body.length < 2 ^ 64 := by
  intro x body hx
  rw [Table.lookup_erase_if] at hx
  split at hx
  · cases hx
  · exact hm x body hx

theorem putStep_sized {call : PutCall Hash} {io : Io} {fs : LocalFs Hash} (hs : Sized fs)
    (hc : call.bytes.length < 2 ^ 64)
    (hio : ∀ e left, io = .fail e (some left) → left.length < 2 ^ 64) :
    Sized (LocalFs.putStep call io fs).2 := by
  unfold LocalFs.putStep
  repeat' split
  all_goals first
    | exact hs
    | exact ⟨hs.files, sized_insert hs.tmp hc⟩
    | exact ⟨hs.files, sized_insert hs.tmp (hio _ _ rfl)⟩
    | exact ⟨hs.files, sized_erase hs.tmp⟩
    | exact ⟨sized_insert hs.files (hs.tmp _ _ ‹_›), sized_erase hs.tmp⟩

theorem delete_sized {x : Hash} {io : Io} {fs : LocalFs Hash} (hs : Sized fs) :
    Sized (LocalFs.delete x io fs).2 := by
  cases io with
  | ok => exact ⟨sized_erase hs.files, hs.tmp⟩
  | fail e left => exact hs

theorem getRange_isSome {x : Hash} {start stop : ℕ} {io : Io} {fs : LocalFs Hash}
    (h : stop + 1 < 2 ^ 64) : (LocalFs.getRange x start stop io fs).isSome = true := by
  unfold LocalFs.getRange
  split
  · rfl
  · rfl
  · rw [Option.isSome_map, readRange, if_neg (Nat.not_le.mpr h)]
    rfl

theorem head_sized {x : Hash} {io : Io} {fs : LocalFs Hash} (hs : Sized fs) {len : ℕ}
    (h : LocalFs.head x io fs = .ok (some len)) : len < 2 ^ 64 := by
  cases io with
  | fail e left => cases h
  | ok =>
    simp only [LocalFs.head, Except.ok.injEq, Option.map_eq_some_iff] at h
    obtain ⟨body, hb, rfl⟩ := h
    exact hs.files x body hb

omit [DecidableEq Hash] in
theorem start_fits {i : ℕ} {r : Request} (hr : SizedLabel (.request i r : Label Hash)) :
    Fits (start core r) := by
  cases r with
  | putXorb ns hashHex body =>
    simp only [start]
    split
    · trivial
    · exact hr
  | listEntries volume => trivial
  | gc => trivial
  | scrub => trivial
  | _ =>
    simp only [start]
    split <;> trivial

omit [DecidableEq Hash] in
theorem scrubNext_fits (checked quarantined : ℕ) (todo : List Hash) :
    Fits (scrubNext checked quarantined todo) := by
  cases todo <;> trivial

omit [DecidableEq Hash] in
theorem gcNext_fits (swept : ℕ) (todo : List Hash) : Fits (gcNext swept todo) := by
  cases todo <;> trivial

variable {publicBase : String} {c : Choice Hash} {app app' : AppState Hash (LocalFs Hash)}
  {g g' : Handler Hash}

theorem advance_fits (hs : Sized app.blob) (hg : Fits g)
    (h : advance core (localFs core publicBase) c app g = some (app', g')) : Fits g' := by
  cases g with
  | putStore hash info call =>
    simp only [advance, Option.some.injEq, Prod.mk.injEq] at h
    obtain ⟨_, rfl⟩ := h
    unfold afterPut
    split
    · rename_i call' hp
      change (LocalFs.putStep call c.io app.blob).1 = _ at hp
      change call'.bytes.length < 2 ^ 64
      rw [(LocalFs.putStep_pending hp).2]
      exact hg
    all_goals trivial
  | dataHead hash hashHex range =>
    simp only [advance] at h
    split at h
    · rename_i len hl
      have hlen : len < 2 ^ 64 := head_sized hs hl
      split at h
      · rename_i start stop hp
        cases h
        have hstop := parseRange_end hp
        change stop + 1 < 2 ^ 64
        omega
      · cases h
        trivial
    · cases h
      trivial
  | scrubHead checked quarantined x todo =>
    simp only [advance] at h
    split at h
    · rename_i len hl
      cases h
      exact head_sized hs hl
    · cases h
      exact scrubNext_fits _ _ _
  | scrubLock =>
    simp only [advance, lock] at h
    split at h
    · simp only [Option.some.injEq] at h
      split at h
      · cases h
        trivial
      · cases h
        exact scrubNext_fits _ _ _
    · cases h
  | scrubRead checked quarantined x len todo =>
    simp only [advance] at h
    repeat' split at h
    · cases h
      trivial
    all_goals
      cases h
      exact scrubNext_fits _ _ _
  | gcMark =>
    simp only [advance, lock] at h
    split at h
    · simp only [Option.some.injEq] at h
      split at h
      · cases h
        trivial
      · cases h
        exact gcNext_fits _ _
    · cases h
  | gcEvict swept x todo =>
    simp only [advance, lock, Option.some.injEq] at h
    split at h
    · cases h
      trivial
    · cases h
      exact gcNext_fits _ _
  | answered a => cases h
  | panicked => cases h
  | _ =>
    simp only [advance, lock, panicLocked, Option.some.injEq] at h
    repeat' split at h
    all_goals
      cases h
      trivial

omit [DecidableEq Hash] in
@[simp] theorem scrubNext_ne_panicked (checked quarantined : ℕ) (todo : List Hash) :
    scrubNext checked quarantined todo ≠ .panicked := by
  cases todo <;> simp [scrubNext]

omit [DecidableEq Hash] in
@[simp] theorem gcNext_ne_panicked (swept : ℕ) (todo : List Hash) :
    gcNext swept todo ≠ .panicked := by
  cases todo <;> simp [gcNext]

/-- The only step that can panic is the walk over a file with a term out of
range. -/
theorem advance_healthy (gate : core.GateLaws) (hsound : Sound core app.index)
    (hacc : Accepted core g) (hg : Fits g) (hp : app.poisoned = false)
    (hrange : ∀ fh file, g = .reconLock fh → app.index.files.lookup fh = some file →
      inRange app.index file.terms = true)
    (h : advance core (localFs core publicBase) c app g = some (app', g')) :
    app'.poisoned = false ∧ g' ≠ .panicked := by
  cases g with
  | putStore hash info call =>
    simp only [advance, Option.some.injEq, Prod.mk.injEq] at h
    obtain ⟨rfl, rfl⟩ := h
    refine ⟨hp, ?_⟩
    unfold afterPut
    split <;> simp
  | putIndex hash info len =>
    obtain ⟨idx', hidx⟩ := indexXorb_total app.index hash (gate.well_formed _ _ hacc)
    simp only [advance, lock, hp, Bool.false_eq_true, ↓reduceIte, hidx, Option.some.injEq] at h
    cases h
    exact ⟨rfl, by simp⟩
  | reconLock fh =>
    have hcollect : (collect app.index fh).isSome = true := by
      unfold collect
      split
      · rfl
      · rename_i file hf
        rw [collectTerms_isSome gate hsound.metas]
        exact hrange fh file rfl hf
    obtain ⟨res, hres⟩ := Option.isSome_iff_exists.mp hcollect
    simp only [advance, lock, hp, Bool.false_eq_true, ↓reduceIte, hres, Option.some.injEq] at h
    split at h
    · rename_i hn
      cases hn
    all_goals
      cases h
      exact ⟨hp, by simp⟩
  | dataRead hash hashHex start stop len =>
    obtain ⟨res, hres⟩ : ∃ res, LocalFs.getRange hash start stop c.io app.blob = some res :=
      Option.isSome_iff_exists.mp (getRange_isSome hg)
    simp only [advance, localFs, hres] at h
    split at h
    · rename_i hn
      cases hn
    all_goals
      cases h
      exact ⟨hp, by simp⟩
  | scrubRead checked quarantined x len todo =>
    have hlen : len - 1 + 1 < 2 ^ 64 := by
      change len < 2 ^ 64 at hg
      omega
    obtain ⟨res, hres⟩ : ∃ res, LocalFs.getRange x 0 (len - 1) c.io app.blob = some res :=
      Option.isSome_iff_exists.mp (getRange_isSome hlen)
    simp only [advance, localFs, hres] at h
    repeat' split at h
    · rename_i hn
      cases hn
    all_goals
      cases h
      exact ⟨hp, by simp⟩
  | scrubHead checked quarantined x todo =>
    simp only [advance] at h
    split at h
    all_goals
      cases h
      exact ⟨hp, by simp⟩
  | gcMark =>
    simp only [advance, lock, hp, Bool.false_eq_true, ↓reduceIte] at h
    split at h
    · cases h
      exact ⟨hp, by simp⟩
    · cases h
  | gcEvict swept x todo =>
    simp only [advance, lock, hp, Bool.false_eq_true, ↓reduceIte, Option.some.injEq] at h
    cases h
    exact ⟨rfl, by simp⟩
  | scrubLock =>
    simp only [advance, lock, hp, Bool.false_eq_true, ↓reduceIte] at h
    split at h
    · cases h
      exact ⟨hp, by simp⟩
    · cases h
  | answered a => cases h
  | panicked => cases h
  | _ =>
    simp only [advance, lock, hp, Bool.false_eq_true, ↓reduceIte, Option.some.injEq] at h
    repeat' split at h
    all_goals
      cases h
      exact ⟨by first | exact hp | rfl, by simp⟩

theorem advance_panics (gate : core.GateLaws) (hsound : Sound core app.index) {fh : Hash}
    {file : FileRecord Hash} (hf : app.index.files.lookup fh = some file)
    (hrange : ¬ inRange app.index file.terms = true)
    (h : advance core (localFs core publicBase) c app (.reconLock fh) = some (app', g')) :
    g' = .panicked := by
  have hcollect : collect app.index fh = none := by
    rw [← Option.not_isSome_iff_eq_none]
    simpa only [collect, hf, collectTerms_isSome gate hsound.metas] using hrange
  simp only [advance, lock, panicLocked, hcollect, Option.some.injEq] at h
  split at h <;> exact (congrArg Prod.snd h).symm

/-- The condition on a step: the file that a reconstruction walks over has no
term out of range. -/
def Servable (s : State Hash (LocalFs Hash)) : Label Hash → Prop
  | .request .. => True
  | .step i _ => ∀ fh file, s.handler i = some (.reconLock fh) →
      s.app.index.files.lookup fh = some file → inRange s.app.index file.terms = true

omit [DecidableEq Hash] in
/-- No handler has panicked, and the index mutex is sound. -/
structure Healthy (s : State Hash β) : Prop where
  unpoisoned : s.app.poisoned = false
  unpanicked : ∀ i t, s.tasks i = some t → t.handler ≠ .panicked

structure Invariant (core : XetCore Hash) (s : State Hash (LocalFs Hash)) : Prop where
  sound : DedupSound.Invariant core s
  sized : Sized s.app.blob
  fits : ∀ i t, s.tasks i = some t → Fits t.handler
  healthy : Healthy s

theorem effect_sized (heff : Effect core (localFs core publicBase) c app g app' g')
    (hs : Sized app.blob) (hg : Fits g)
    (hio : ∀ e left, c.io = .fail e (some left) → left.length < 2 ^ 64) : Sized app'.blob := by
  cases heff with
  | stored hash info call => exact putStep_sized hs hg hio
  | deleted swept x todo => exact delete_sized hs
  | _ => exact hs

omit [DecidableEq Hash] in
theorem start_unpanicked (r : Request) : start core r ≠ .panicked := by
  cases r with
  | listEntries volume => simp [start]
  | gc => simp [start]
  | scrub => simp [start]
  | _ =>
    simp only [start]
    split <;> simp

theorem step_invariant (gate : core.GateLaws) {s s' : State Hash (LocalFs Hash)} {l : Label Hash}
    (hi : Invariant core s) (hsize : SizedLabel l) (hl : Servable s l)
    (h : step core (localFs core publicBase) s l = some s') : Invariant core s' := by
  have hsound := DedupSound.step_invariant gate hi.sound h
  obtain ⟨i, r, rfl, _, rfl⟩ | ⟨i, c, t, app, g', rfl, ht, ha, rfl⟩ :=
    step_advance core (localFs core publicBase) h
  · exact ⟨hsound, hi.sized, Run.update_forall hi.fits (start_fits hsize),
      hi.healthy.unpoisoned, Run.update_forall hi.healthy.unpanicked (start_unpanicked r)⟩
  · have hfits := hi.fits i t ht
    have hio : ∀ e left, c.io = .fail e (some left) → left.length < 2 ^ 64 := by
      intro e left he
      obtain ⟨io, order⟩ := c
      cases he
      exact hsize
    obtain ⟨hp, hg'⟩ := advance_healthy gate hi.sound.sound (hi.sound.accepted i t ht) hfits
      hi.healthy.unpoisoned
      (fun fh file hg hf => hl fh file (handler_eq_some.mpr ⟨t, ht, hg⟩) hf) ha
    exact ⟨hsound, effect_sized (advance_effect core _ ha) hi.sized hfits hio,
      Run.update_forall hi.fits (advance_fits hi.sized hfits ha), hp,
      Run.update_forall hi.healthy.unpanicked hg'⟩

theorem boot_invariant {fs : LocalFs Hash} (hs : Sized fs) : Invariant core (boot fs) :=
  ⟨DedupSound.boot_invariant fs, hs, fun _ _ ht => (by cases ht), rfl, fun _ _ ht => (by cases ht)⟩

theorem step_panicked {store : BlobStore Hash β} {s s' : State Hash β}
    {l : Label Hash} {i : ℕ} (hp : s.handler i = some .panicked)
    (h : step core store s l = some s') : s'.handler i = some .panicked := by
  obtain ⟨t, ht, hg⟩ := handler_eq_some.mp hp
  obtain ⟨j, r, rfl, hn, rfl⟩ | ⟨j, c, u, app, g', rfl, hu, ha, rfl⟩ := step_advance core store h
  · have hne : i ≠ j := by
      rintro rfl
      rw [hn] at ht
      cases ht
    exact handler_eq_some.mpr ⟨t, (Function.update_of_ne hne _ _).trans ht, hg⟩
  · have hne : i ≠ j := by
      rintro rfl
      obtain rfl := Option.some.inj (ht.symm.trans hu)
      rw [hg] at ha
      cases ha
    exact handler_eq_some.mpr ⟨t, (Function.update_of_ne hne _ _).trans ht, hg⟩

/-- How many file operations of a `put` are left, at most. -/
def stagesLeft : PutStage → ℕ
  | .tryExists => 6
  | .createDir => 5
  | .write => 4
  | .rename => 3
  | .recheck _ => 2
  | .removeTmp => 1

/-- How many steps of a handler are left, at most, over `n` indexed xorbs. -/
def rank (n : ℕ) : Handler Hash → ℕ
  | .putStore _ _ call => 2 + stagesLeft call.stage
  | .putIndex .. | .registerLock .. | .reconPresign _ | .dedupLock _ | .entriesLock _
  | .dataRead .. => 2
  | .reconLock _ | .dataHead .. => 3
  | .gcMark | .scrubLock => 2 * n + 2
  | .gcDelete _ _ todo | .scrubHead _ _ _ todo => 2 * todo.length + 3
  | .gcEvict _ _ todo | .scrubRead _ _ _ _ todo => 2 * todo.length + 2
  | .reply _ => 1
  | .answered _ | .panicked => 0

omit [DecidableEq Hash] in
theorem gcNext_rank (n swept : ℕ) (todo : List Hash) :
    rank n (gcNext swept todo) = 2 * todo.length + 1 := by
  cases todo <;> simp [gcNext, rank]
  omega

omit [DecidableEq Hash] in
theorem scrubNext_rank (n checked quarantined : ℕ) (todo : List Hash) :
    rank n (scrubNext checked quarantined todo) = 2 * todo.length + 1 := by
  cases todo <;> simp [scrubNext, rank]
  omega

theorem putStep_left {call call' : PutCall Hash} {io : Io} {fs : LocalFs Hash}
    (h : (LocalFs.putStep call io fs).1 = .pending call') :
    stagesLeft call'.stage < stagesLeft call.stage := by
  revert h
  unfold LocalFs.putStep PutCall.at
  repeat' split
  all_goals
    intro h
    cases h
  all_goals simp_all [stagesLeft]

theorem advance_rank (n : ℕ)
    (h : advance core (localFs core publicBase) c app g = some (app', g')) :
    rank n g' < rank app.index.xorbs.keys.length g := by
  cases g with
  | putStore hash info call =>
    simp only [advance, Option.some.injEq, Prod.mk.injEq] at h
    obtain ⟨_, rfl⟩ := h
    unfold afterPut
    split
    · rename_i call' hp
      change (LocalFs.putStep call c.io app.blob).1 = _ at hp
      simpa [rank] using putStep_left hp
    all_goals
      have hpos : 0 < stagesLeft call.stage := by cases call.stage <;> simp [stagesLeft]
      simp only [rank]
      omega
  | gcMark =>
    simp only [advance, lock] at h
    split at h
    · rename_i hperm
      simp only [Option.some.injEq] at h
      split at h
      · cases h
        simp [rank]
      · cases h
        have hlen := List.length_filter_le (fun x => decide (x ∉ referenced app.index)) c.order
        rw [hperm.length_eq] at hlen
        rw [gcNext_rank, rank]
        omega
    · cases h
  | gcEvict swept x todo =>
    simp only [advance, lock, Option.some.injEq] at h
    split at h
    · cases h
      simp [rank]
    · cases h
      rw [gcNext_rank, rank]
      omega
  | scrubLock =>
    simp only [advance, lock] at h
    split at h
    · rename_i hperm
      simp only [Option.some.injEq] at h
      split at h
      · cases h
        simp [rank]
      · cases h
        rw [scrubNext_rank, hperm.length_eq, rank]
        omega
    · cases h
  | scrubHead checked quarantined x todo =>
    simp only [advance] at h
    split at h
    · cases h
      simp [rank]
    · cases h
      rw [scrubNext_rank, rank]
      omega
  | scrubRead checked quarantined x len todo =>
    simp only [advance] at h
    repeat' split at h
    · cases h
      simp [rank]
    all_goals
      cases h
      rw [scrubNext_rank, rank]
      omega
  | dataHead hash hashHex range =>
    simp only [advance] at h
    repeat' split at h
    all_goals
      cases h
      simp [rank]
  | answered a => cases h
  | panicked => cases h
  | _ =>
    simp only [advance, lock, panicLocked, Option.some.injEq] at h
    repeat' split at h
    all_goals
      cases h
      simp [rank]

theorem advance_enabled {store : BlobStore Hash β} {app : AppState Hash β} {g : Handler Hash}
    (hg : g.running = true) :
    ∃ p, advance core store { order := app.index.xorbs.keys } app g = some p := by
  cases g with
  | answered a => cases hg
  | panicked => cases hg
  | dataHead hash hashHex range =>
    simp only [advance]
    repeat' split
    all_goals exact ⟨_, rfl⟩
  | dataRead hash hashHex start stop len =>
    simp only [advance]
    split <;> exact ⟨_, rfl⟩
  | scrubHead checked quarantined x todo =>
    simp only [advance]
    split <;> exact ⟨_, rfl⟩
  | scrubRead checked quarantined x len todo =>
    simp only [advance]
    repeat' split
    all_goals exact ⟨_, rfl⟩
  | gcMark => exact ⟨_, by simp [advance]; rfl⟩
  | scrubLock => exact ⟨_, by simp [advance]; rfl⟩
  | _ => exact ⟨_, rfl⟩

/-- A step that is not servable panics. -/
theorem unservable_panics (gate : core.GateLaws) {s s' : State Hash (LocalFs Hash)}
    {l : Label Hash} (hi : Invariant core s) (hl : ¬ Servable s l)
    (h : step core (localFs core publicBase) s l = some s') :
    ∃ i, s'.handler i = some .panicked := by
  obtain ⟨i, r, rfl, _, rfl⟩ | ⟨i, c, t, app, g', rfl, ht, ha, rfl⟩ :=
    step_advance core (localFs core publicBase) h
  · exact absurd trivial hl
  · simp only [Servable, not_forall] at hl
    obtain ⟨fh, file, hg, hf, hrange⟩ := hl
    obtain ⟨u, hu, hh⟩ := handler_eq_some.mp hg
    obtain rfl := Option.some.inj (ht.symm.trans hu)
    rw [hh] at ha
    refine ⟨i, ?_⟩
    simp [State.handler, advance_panics gate hi.sound.sound hf hrange ha]

theorem servable_of_collects {s : State Hash (LocalFs Hash)} {i : ℕ} {g : Handler Hash}
    (hg : s.handler i = some g) (hc : ¬ Unpoisoned.Collects g) (c : Choice Hash) :
    Servable s (.step i c) := by
  intro fh file hr
  rw [hg] at hr
  cases hr
  exact absurd trivial hc

/-- What is left of request `i`. -/
def handlerRank (i : ℕ) (s : State Hash (LocalFs Hash)) : ℕ :=
  ((s.handler i).map (rank s.app.index.xorbs.keys.length)).getD 0

/-- A request at work takes a step of its own that leaves less to do. -/
theorem work_advances (gate : core.GateLaws) {s : State Hash (LocalFs Hash)} {i : ℕ}
    {g : Handler Hash} (hi : Invariant core s) (hg : s.handler i = some g)
    (hl : ∀ c, Servable s (.step i c)) (hr : g.running = true) :
    ∃ c u, step core (localFs core publicBase) s (.step i c) = some u ∧ Invariant core u ∧
      (∃ g', u.handler i = some g' ∧ ∀ c, Servable u (.step i c)) ∧
      handlerRank i u < handlerRank i s := by
  obtain ⟨t, ht, rfl⟩ := handler_eq_some.mp hg
  obtain ⟨⟨app, g'⟩, ha⟩ : ∃ p, advance core (localFs core publicBase)
      { order := s.app.index.xorbs.keys } s.app t.handler = some p := advance_enabled hr
  let u : State Hash (LocalFs Hash) := ⟨app, Function.update s.tasks i (some ⟨t.request, g'⟩)⟩
  have hstep : step core (localFs core publicBase) s
      (.step i { order := s.app.index.xorbs.keys }) = some u := by
    simp [step, ht, ha, u]
  have hu : Invariant core u := by
    refine step_invariant gate hi ?_ (hl _) hstep
    trivial
  have hgu : u.handler i = some g' := by simp [u, State.handler]
  have hlu := servable_of_collects hgu (Unpoisoned.effect_collects (advance_effect core _ ha))
  refine ⟨_, u, hstep, hu, ⟨g', hgu, hlu⟩, ?_⟩
  rw [handlerRank, handlerRank, hg, hgu]
  exact advance_rank _ ha

/-- In a healthy server every request that does not walk over a file with a
term out of range is answered by its own next steps. -/
theorem can_answer (gate : core.GateLaws) {s : State Hash (LocalFs Hash)} {i : ℕ}
    {g : Handler Hash} (hi : Invariant core s) (hg : s.handler i = some g)
    (hl : ∀ c, Servable s (.step i c)) :
    ∃ (cs : List (Choice Hash)) (s' : State Hash (LocalFs Hash)) (a : Answer),
      Run.exec (step core (localFs core publicBase)) s (cs.map (.step i)) = some s' ∧
      s'.handler i = some (.answered a) := by
  have hstep : ∀ u, (Invariant core u ∧ ∃ g, u.handler i = some g ∧
        ∀ c, Servable u (.step i c)) → ¬ (∃ a, u.handler i = some (.answered a)) →
      ∃ l v, (∃ c, l = .step i c) ∧ step core (localFs core publicBase) u l = some v ∧
        (Invariant core v ∧ ∃ g, v.handler i = some g ∧ ∀ c, Servable v (.step i c)) ∧
        handlerRank i v < handlerRank i u := by
    rintro u ⟨hu, g, hgu, hlu⟩ hdone
    have hr : g.running = true := by
      cases g with
      | answered a => exact absurd ⟨a, hgu⟩ hdone
      | panicked =>
        obtain ⟨t, ht, hh⟩ := handler_eq_some.mp hgu
        exact absurd hh (hu.healthy.unpanicked i t ht)
      | _ => rfl
    obtain ⟨c, v, hv, hinv, hwork, hlt⟩ := work_advances gate hu hgu hlu hr
    exact ⟨_, v, ⟨c, rfl⟩, hv, ⟨hinv, hwork⟩, hlt⟩
  obtain ⟨ls, s', hguard, hrun, _, a, ha⟩ :=
    Run.exec_reaches (handlerRank i) hstep ⟨hi, g, hg, hl⟩
  obtain ⟨cs, rfl⟩ := Run.guarded_labels hguard hrun
  exact ⟨cs, s', a, hrun, ha⟩

/-- A run panics nowhere, and keeps the index mutex sound, exactly when every
reconstruction finds the terms of its file in range; and then every request can
be answered, a reconstruction under the same condition. -/
theorem panic_free_iff_servable (gate : core.GateLaws) (fs : LocalFs Hash) (hfs : Sized fs)
    (labels : List (Label Hash)) (hsize : ∀ l ∈ labels, SizedLabel l)
    (s : State Hash (LocalFs Hash))
    (run : Run.exec (step core (localFs core publicBase)) (boot fs) labels = some s) :
    (Healthy s ↔
      Run.Guarded (step core (localFs core publicBase)) Servable (boot fs) labels) ∧
    (Run.Guarded (step core (localFs core publicBase)) Servable (boot fs) labels →
      ∀ i g, s.handler i = some g → (∀ c, Servable s (.step i c)) →
        ∃ (cs : List (Choice Hash)) (s' : State Hash (LocalFs Hash)) (a : Answer),
          Run.exec (step core (localFs core publicBase)) s (cs.map (.step i)) = some s' ∧
          s'.handler i = some (.answered a)) := by
  have hinv (as : List (Label Hash)) (u : State Hash (LocalFs Hash))
      (ha : ∀ l ∈ as, SizedLabel l)
      (hg : Run.Guarded (step core (localFs core publicBase)) Servable (boot fs) as)
      (hu : Run.exec (step core (localFs core publicBase)) (boot fs) as = some u) :
      Invariant core u :=
    Run.exec_invariant (C := fun s l => SizedLabel l ∧ Servable s l)
      (fun _ _ _ hi hl h => step_invariant gate hi hl.1 hl.2 h) (boot_invariant hfs)
      (Run.guarded_and (Run.guarded_of_forall (fun l hl _ => ha l hl) _) hg) hu
  refine ⟨⟨?_, fun hg => (hinv labels s hsize hg run).healthy⟩, ?_⟩
  · intro hs
    by_contra hg
    obtain ⟨before, l, after, u, v, rfl, hu, hgu, hl, hv, hrest⟩ := Run.exists_unguarded hg run
    have hi := hinv before u (fun l hm => hsize l (by simp [hm])) hgu hu
    obtain ⟨i, hp⟩ := unservable_panics gate hi hl hv
    have hps : s.handler i = some .panicked :=
      Run.exec_preserves (I := fun s => s.handler i = some .panicked)
        (fun _ _ _ hp h => step_panicked hp h) hp hrest
    obtain ⟨t, ht, hh⟩ := handler_eq_some.mp hps
    exact hs.unpanicked i t ht hh
  · intro hg i g hh hl
    exact can_answer gate (hinv labels s hsize hg run) hh hl

/-- The test of a concrete run for `Servable`. -/
def servable (s : State Hash (LocalFs Hash)) : Label Hash → Bool
  | .request .. => true
  | .step i _ =>
    match s.handler i with
    | some (.reconLock fh) =>
      (s.app.index.files.lookup fh).all (fun file => inRange s.app.index file.terms)
    | _ => true

theorem servable_sound {s : State Hash (LocalFs Hash)} {l : Label Hash}
    (h : servable s l = true) : Servable s l := by
  cases l with
  | request i r => trivial
  | step i c =>
    intro fh file hg hf
    simpa [servable, hg, hf] using h

end

/-- An upload, a file of its chunk, and a reconstruction of the file. -/
def reconstructed : List (Label Plain.PlainHash) :=
  [.request 0 (.putXorb "default" (Plain.hex [1, 1]) [0, 1, 1, 2]),
    .step 0 {}, .step 0 {}, .step 0 {}, .step 0 {}, .step 0 {}, .step 0 {},
    .request 1 (.registerFile ⟨Plain.hex [7], 1, [⟨Plain.hex [1, 1], 0, 1, 1⟩], none, none⟩),
    .step 1 {}, .step 1 {}, .request 2 (.reconstruct (Plain.hex [7])), .step 2 {}]

theorem panic_free_reconstructed :
    ∃ s, Run.exec (step Plain.plain (localFs Plain.plain "")) (boot {}) reconstructed = some s ∧
      Healthy s ∧ ∃ s' a, s'.handler 2 = some (.answered a) ∧ ∃ cs,
        Run.exec (step Plain.plain (localFs Plain.plain "")) s cs = some s' := by
  have hrun : (Run.exec (step Plain.plain (localFs Plain.plain "")) (boot {}) reconstructed).map
      (fun s => (s.handler 2).any (fun g => match g with
        | .reconPresign _ => true
        | _ => false)) = some true := by decide
  obtain ⟨s, hs, he⟩ := Option.map_eq_some_iff.mp hrun
  obtain ⟨g, hg, hpresign⟩ := (Option.any_eq_true _ _).mp he
  have hguard : Run.Guarded (step Plain.plain (localFs Plain.plain "")) Servable (boot {})
      reconstructed :=
    guarded_of_check 3 servable (fun _ _ _ => servable_sound) (by decide)
  obtain ⟨hiff, hans⟩ := panic_free_iff_servable Plain.plain_gate {}
    ⟨fun _ _ h => (by cases h), fun _ _ h => (by cases h)⟩ reconstructed
    (by simp [reconstructed, SizedLabel]) s hs
  obtain ⟨cs, s', a, hcs, ha⟩ := hans hguard 2 g hg (by
    intro c fh file hr
    rw [hg] at hr
    cases hr
    cases hpresign)
  exact ⟨s, hs, hiff.mpr hguard, s', a, ha, _, hcs⟩

/-- The same with an empty term, and a listing of a volume afterwards. -/
def emptyTerm : List (Label Plain.PlainHash) :=
  [.request 0 (.putXorb "default" (Plain.hex [1, 1]) [0, 1, 1, 2]),
    .step 0 {}, .step 0 {}, .step 0 {}, .step 0 {}, .step 0 {}, .step 0 {},
    .request 1 (.registerFile ⟨Plain.hex [7], 0, [⟨Plain.hex [1, 1], 0, 0, 0⟩], none, none⟩),
    .step 1 {}, .step 1 {}, .request 2 (.reconstruct (Plain.hex [7])), .step 2 {},
    .request 3 (.listEntries "vol"), .step 3 {}]

/-- The registration is accepted; the reconstruction panics under the lock, and
the listing panics because of it. -/
theorem empty_term_panics :
    ∃ s, Run.exec (step Plain.plain (localFs Plain.plain "")) (boot {}) emptyTerm = some s ∧
      s.handler 2 = some .panicked ∧ s.app.poisoned = true ∧ s.handler 3 = some .panicked ∧
      ¬ Healthy s := by
  have hrun : (Run.exec (step Plain.plain (localFs Plain.plain "")) (boot {}) emptyTerm).map
      (fun s => (s.app.poisoned, [2, 3].all (fun i => (s.handler i).any (fun g => match g with
        | .panicked => true
        | _ => false)))) = some (true, true) := by decide
  obtain ⟨s, hs, he⟩ := Option.map_eq_some_iff.mp hrun
  simp only [Prod.mk.injEq] at he
  have hpanic (i : ℕ) (hi : i ∈ [2, 3]) : s.handler i = some .panicked := by
    obtain ⟨g, hg, hp⟩ := (Option.any_eq_true _ _).mp (List.all_eq_true.mp he.2 i hi)
    cases g <;> first | exact hg | cases hp
  refine ⟨s, hs, hpanic 2 (by simp), he.1, hpanic 3 (by simp), ?_⟩
  intro hh
  rw [hh.unpoisoned] at he
  cases he.1

end Dejaveph.Proofs.PanicFree

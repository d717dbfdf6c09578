import Dejaveph.Proofs.Unpoisoned

namespace Dejaveph.Proofs.StoredOffsets
open Lib Server DedupSound Unpoisoned

variable {Hash : Type} {core : XetCore Hash}

/-- The chunk end offsets of the bytes of a xorb. -/
def endOffsets (core : XetCore Hash) (x : Hash) (body : Bytes) : Option (List UInt32) :=
  match core.validateXorbObject body x with
  | .ok (some info) => some info.chunkBoundaryOffsets
  | _ => none

theorem endOffsets_eq_some {x : Hash} {body : Bytes} {offsets : List UInt32} :
    endOffsets core x body = some offsets ↔ ∃ info,
      core.validateXorbObject body x = .ok (some info) ∧ info.chunkBoundaryOffsets = offsets := by
  unfold endOffsets
  split
  · rename_i info h
    simp [h]
  · rename_i h
    constructor
    · intro hn
      cases hn
    · rintro ⟨info, hv, _⟩
      exact absurd hv (h info)

variable [DecidableEq Hash]

/-- The bytes stored under `x` have these chunk end offsets. -/
def Stored (core : XetCore Hash) (fs : LocalFs Hash) (x : Hash) (offsets : List UInt32) : Prop :=
  ∃ body, fs.files.lookup x = some body ∧ endOffsets core x body = some offsets

/-- A rename moves a file serialized like the body of its own upload, over
nothing that is serialized otherwise; and an eviction leaves no upload of the
xorb to be indexed whose blob is gone. -/
def Agreeing (core : XetCore Hash) (s : State Hash (LocalFs Hash)) : Label Hash → Prop
  | .request i r => NoReconstruct (.request i r : Label Hash)
  | .step i c =>
    (∀ x info call, s.handler i = some (.putStore x info call) → call.stage = .rename → c.io = .ok →
      (∀ body, s.app.blob.tmp.lookup x = some body →
        endOffsets core x body = some info.chunkBoundaryOffsets) ∧
      ∀ body, s.app.blob.files.lookup x = some body →
        endOffsets core x body = some info.chunkBoundaryOffsets) ∧
    ∀ swept x todo, s.handler i = some (.gcEvict swept x todo) →
      ∀ j info len, s.handler j = some (.putIndex x info len) →
        Stored core s.app.blob x info.chunkBoundaryOffsets

/-- What an indexed or stored xorb has is serialized as recorded, unless it is
being evicted. -/
structure Invariant (core : XetCore Hash) (s : State Hash (LocalFs Hash)) : Prop where
  clean : Clean core s
  keyed : Keyed s
  indexing : ∀ i x info len, s.handler i = some (.putIndex x info len) →
    Stored core s.app.blob x info.chunkBoundaryOffsets ∨ Evicting s x
  indexed : ∀ x xorbMeta, s.app.index.xorbs.lookup x = some xorbMeta →
    Stored core s.app.blob x xorbMeta.boundaryOffsets ∨ Evicting s x

theorem Stored.congr {fs fs' : LocalFs Hash} {x : Hash} {offsets : List UInt32}
    (he : fs'.files.lookup x = fs.files.lookup x) (h : Stored core fs x offsets) :
    Stored core fs' x offsets := by
  obtain ⟨body, hb, ho⟩ := h
  exact ⟨body, by rw [he, hb], ho⟩

section Step
variable {s s' : State Hash (LocalFs Hash)} {i : ℕ} {g' : Handler Hash}

theorem invariant_frame (hi : Invariant core s)
    (hh : ∀ j, s'.handler j = if j = i then some g' else s.handler j)
    (hclean : Clean core s') (hkeyed : Keyed s')
    (hne : ∀ swept x todo, s.handler i ≠ some (.gcEvict swept x todo))
    (hput : ∀ x info len, g' ≠ .putIndex x info len)
    (hfiles : s'.app.blob.files = s.app.blob.files)
    (hxorbs : s'.app.index.xorbs = s.app.index.xorbs) : Invariant core s' := by
  have hev {x : Hash} (h : Evicting s x) : Evicting s' x :=
    evicting_step hh (fun swept todo => hne swept x todo) h
  have hst {x : Hash} {offsets : List UInt32} (h : Stored core s.app.blob x offsets) :
      Stored core s'.app.blob x offsets := h.congr (by rw [hfiles])
  refine ⟨hclean, hkeyed, ?_, ?_⟩
  · intro j x info len hj
    rw [hh] at hj
    split at hj
    · exact absurd (Option.some.inj hj) (hput x info len)
    · exact (hi.indexing j x info len hj).imp hst hev
  · intro x xorbMeta hx
    rw [hxorbs] at hx
    exact (hi.indexed x xorbMeta hx).imp hst hev

/-- The rename of an upload puts a body in place whose offsets it will index. -/
theorem invariant_renamed {x : Hash} {info : XorbObjectInfoV1 Hash} {call : PutCall Hash}
    {len : ℕ} {body : Bytes} (hi : Invariant core s)
    (hg : s.handler i = some (.putStore x info call))
    (hh : ∀ j, s'.handler j = if j = i then some (.putIndex x info len) else s.handler j)
    (hclean : Clean core s') (hkeyed : Keyed s')
    (hfiles : s'.app.blob.files = s.app.blob.files.insert x body)
    (hxorbs : s'.app.index.xorbs = s.app.index.xorbs)
    (hbody : endOffsets core x body = some info.chunkBoundaryOffsets)
    (hold : ∀ old, s.app.blob.files.lookup x = some old →
      endOffsets core x old = some info.chunkBoundaryOffsets) : Invariant core s' := by
  have hev {y : Hash} (h : Evicting s y) : Evicting s' y :=
    evicting_step hh (by simp [hg]) h
  have hst {y : Hash} {offsets : List UInt32} (h : Stored core s.app.blob y offsets) :
      Stored core s'.app.blob y offsets := by
    by_cases hy : y = x
    · subst hy
      obtain ⟨old, ho, he⟩ := h
      have heq := (hold old ho).symm.trans he
      exact ⟨body, by rw [hfiles, AList.lookup_insert], hbody.trans heq⟩
    · exact h.congr (by rw [hfiles, AList.lookup_insert_ne hy])
  refine ⟨hclean, hkeyed, ?_, ?_⟩
  · intro j y info' len' hj
    rw [hh] at hj
    split at hj
    · cases hj
      exact .inl ⟨body, by rw [hfiles, AList.lookup_insert], hbody⟩
    · exact (hi.indexing j y info' len' hj).imp hst hev
  · intro y xorbMeta hy
    rw [hxorbs] at hy
    exact (hi.indexed y xorbMeta hy).imp hst hev

/-- The first footer stays, and the bytes still match it. -/
theorem invariant_indexed {x : Hash} {info : XorbObjectInfoV1 Hash} {len : ℕ} {a : Answer}
    (hi : Invariant core s) (hg : s.handler i = some (.putIndex x info len))
    (hh : ∀ j, s'.handler j = if j = i then some (.reply a) else s.handler j)
    (hclean : Clean core s') (hkeyed : Keyed s') (hfiles : s'.app.blob = s.app.blob)
    (hxorbs : s'.app.index.xorbs =
      Table.orInsert s.app.index.xorbs x (XorbMeta.fromInfo info)) : Invariant core s' := by
  have hev {y : Hash} (h : Evicting s y) : Evicting s' y :=
    evicting_step hh (by simp [hg]) h
  refine ⟨hclean, hkeyed, ?_, ?_⟩
  · intro j y info' len' hj
    rw [hh] at hj
    split at hj
    · cases hj
    · rw [hfiles]
      exact (hi.indexing j y info' len' hj).imp_right hev
  · intro y xorbMeta hy
    rw [hfiles]
    rw [hxorbs, Table.lookup_orInsert] at hy
    split at hy
    · rename_i he
      subst he
      cases hold : s.app.index.xorbs.lookup y with
      | some old =>
        simp only [hold, Option.getD_some, Option.some.injEq] at hy
        subst hy
        exact (hi.indexed y old hold).imp_right hev
      | none =>
        simp only [hold, Option.getD_none, Option.some.injEq] at hy
        subst hy
        exact (hi.indexing i y info len hg).imp_right hev
    · exact (hi.indexed y xorbMeta hy).imp_right hev

theorem invariant_deleted {x : Hash} {swept : ℕ} {todo : List Hash} (hi : Invariant core s)
    (hg : s.handler i = some (.gcDelete swept x todo))
    (hh : ∀ j, s'.handler j = if j = i then some (.gcEvict swept x todo) else s.handler j)
    (hclean : Clean core s') (hkeyed : Keyed s')
    (hfiles : ∀ y, y ≠ x → s'.app.blob.files.lookup y = s.app.blob.files.lookup y)
    (hxorbs : s'.app.index = s.app.index) : Invariant core s' := by
  have hset {y : Hash} {offsets : List UInt32}
      (h : Stored core s.app.blob y offsets ∨ Evicting s y) :
      Stored core s'.app.blob y offsets ∨ Evicting s' y := by
    by_cases hy : y = x
    · subst hy
      exact .inr ⟨i, swept, todo, by rw [hh, if_pos rfl]⟩
    · exact h.imp (fun h => h.congr (hfiles y hy))
        (evicting_step hh (by simp [hg]))
  refine ⟨hclean, hkeyed, ?_, ?_⟩
  · intro j y info' len' hj
    rw [hh] at hj
    split at hj
    · cases hj
    · exact hset (hi.indexing j y info' len' hj)
  · intro y xorbMeta hy
    rw [hxorbs] at hy
    exact hset (hi.indexed y xorbMeta hy)

theorem invariant_evicted {x : Hash} {swept : ℕ} {todo : List Hash} (hi : Invariant core s)
    (hg : s.handler i = some (.gcEvict swept x todo))
    (hh : ∀ j, s'.handler j = if j = i then some (gcNext (swept + 1) todo) else s.handler j)
    (hclean : Clean core s') (hkeyed : Keyed s') (hfiles : s'.app.blob = s.app.blob)
    (hxorbs : s'.app.index.xorbs = s.app.index.xorbs.erase x)
    (hstored : ∀ j info len, s.handler j = some (.putIndex x info len) →
      Stored core s.app.blob x info.chunkBoundaryOffsets) : Invariant core s' := by
  have hev {y : Hash} (hy : y ≠ x) (h : Evicting s y) : Evicting s' y := by
    refine evicting_step hh ?_ h
    intro swept' todo' he
    rw [hg] at he
    cases he
    exact hy rfl
  refine ⟨hclean, hkeyed, ?_, ?_⟩
  · intro j y info' len' hj
    rw [hh] at hj
    split at hj
    · cases todo <;> cases hj
    · rw [hfiles]
      by_cases hy : y = x
      · subst hy
        exact .inl (hstored j info' len' hj)
      · exact (hi.indexing j y info' len' hj).imp_right (hev hy)
  · intro y xorbMeta hy
    rw [hxorbs, Table.lookup_erase_if] at hy
    split at hy
    · cases hy
    · rename_i hyx
      rw [hfiles]
      exact (hi.indexed y xorbMeta hy).imp_right (hev hyx)

end Step

variable {publicBase : String}

theorem step_invariant (gate : core.GateLaws) {s s' : State Hash (LocalFs Hash)} {l : Label Hash}
    (hi : Invariant core s) (hl : Agreeing core s l)
    (h : step core (localFs core publicBase) s l = some s') : Invariant core s' := by
  have hclean : Clean core s' := by
    refine step_clean gate ?_ hi.clean h
    cases l with
    | request i r => exact hl
    | step i c => trivial
  have hkeyed : Keyed s' :=
    step_keyed (fun _ _ _ _ h => (LocalFs.putStep_pending h).1) hi.keyed h
  obtain ⟨i, r, rfl, hn, happ, hh⟩ | ⟨i, c, g, g', rfl, hg, heff, hh⟩ :=
    step_handlers core (localFs core publicBase) h
  · exact invariant_frame hi hh hclean hkeyed (by simp [hn]) (fun _ _ _ => start_putIndex)
      (by rw [happ]) (by rw [happ])
  · generalize happ : s'.app = app' at heff
    cases heff with
    | stored x info call =>
      have hkey := hi.keyed i x info call hg
      obtain ⟨hfiles, hout⟩ | ⟨body, hstage, hio, htmp, hout, hfiles⟩ :=
        LocalFs.putStep_cases call c.io s.app.blob
      · refine invariant_frame hi hh hclean hkeyed (by simp [hg]) ?_ (by rw [happ]; exact hfiles)
          (by rw [happ])
        intro y info' len he
        exact hout (afterPut_putIndex he)
      · subst hkey
        obtain ⟨hbody, hold⟩ := hl.1 _ info call hg hstage hio
        have hput (j : ℕ) : s'.handler j =
            if j = i then some (.putIndex call.key info call.bytes.length) else s.handler j := by
          rw [hh]
          change (if j = i then some (afterPut call.key info call.bytes.length
            (LocalFs.putStep call c.io s.app.blob).1) else _) = _
          rw [hout]
          rfl
        exact invariant_renamed hi hg hput hclean hkeyed (by rw [happ]; exact hfiles)
          (by rw [happ]) (hbody body htmp) hold
    | indexed x info len index metrics clean done =>
      obtain ⟨hx, _⟩ := indexXorb_spec done
      exact invariant_indexed hi hg hh hclean hkeyed (by rw [happ]) (by rw [happ]; exact hx)
    | registered fh req result index clean done =>
      obtain ⟨_, _, _, hx, _⟩ := registerFile_spec done
      exact invariant_frame hi hh hclean hkeyed (by simp [hg]) nofun (by rw [happ])
        (by rw [happ]; exact hx)
    | asked ch metrics =>
      exact invariant_frame hi hh hclean hkeyed (by simp [hg]) nofun (by rw [happ]) (by rw [happ])
    | sent a =>
      exact invariant_frame hi hh hclean hkeyed (by simp [hg]) nofun (by rw [happ]) (by rw [happ])
    | marked clean all =>
      exact invariant_frame hi hh hclean hkeyed (by simp [hg]) (fun _ _ _ => gcNext_putIndex)
        (by rw [happ]) (by rw [happ])
    | deleted swept x todo =>
      refine invariant_deleted hi hg hh hclean hkeyed ?_ (by rw [happ])
      intro y hy
      rw [happ]
      exact LocalFs.delete_lookup hy
    | evicted swept x todo clean =>
      exact invariant_evicted hi hg hh hclean hkeyed (by rw [happ]) (by rw [happ]; rfl)
        (hl.2 swept x todo hg)
    | poisoned _ panics =>
      refine invariant_frame hi hh hclean hkeyed ?_ nofun (by rw [happ]) (by rw [happ])
      obtain ⟨fh, rfl, _⟩ | ⟨hash, info, len, rfl, _⟩ := panics <;> simp [hg]
    | quiet _ _ metrics live still =>
      refine invariant_frame hi hh hclean hkeyed ?_ ?_ (by rw [happ]) (by rw [happ])
      · intro swept x todo he
        rw [hg] at he
        cases he
        exact absurd (live trivial) (by simp [hi.clean.unpoisoned])
      · rintro x info len rfl
        exact absurd still id

theorem boot_invariant (fs : LocalFs Hash) : Invariant core (boot fs) := by
  refine ⟨boot_clean fs, ?_, ?_, ?_⟩
  · intro i x info call h
    cases h
  · intro i x info len h
    cases h
  · intro x xorbMeta h
    cases h

omit [DecidableEq Hash] in
/-- No upload and no collection is in flight. -/
def Quiescent (s : State Hash (LocalFs Hash)) : Prop :=
  ∀ i t, s.tasks i = some t → t.handler.running = true →
    t.request ≠ .gc ∧ ∀ ns hashHex body, t.request ≠ .putXorb ns hashHex body

/-- Every indexed xorb has stored bytes, and its recorded end offsets are
theirs. -/
def OffsetsDescribe (core : XetCore Hash) (s : State Hash (LocalFs Hash)) : Prop :=
  ∀ x xorbMeta, s.app.index.xorbs.lookup x = some xorbMeta → ∃ body info,
    s.app.blob.files.lookup x = some body ∧
    core.validateXorbObject body x = .ok (some info) ∧
    xorbMeta.boundaryOffsets = info.chunkBoundaryOffsets

/-- In every run whose uploads of one xorb do not mix serializations, and whose
sweeps do not overtake an upload, the index describes the stored bytes. -/
theorem stored_offsets_describe (gate : core.GateLaws) (fs : LocalFs Hash)
    (labels : List (Label Hash)) (s : State Hash (LocalFs Hash))
    (run : Run.exec (step core (localFs core publicBase)) (boot fs) labels = some s)
    (agreeing : Run.Guarded (step core (localFs core publicBase)) (Agreeing core) (boot fs) labels)
    (quiet : Quiescent s) : OffsetsDescribe core s := by
  have hi : Invariant core s :=
    Run.exec_invariant (fun _ _ _ hi hl h => step_invariant gate hi hl h) (boot_invariant fs)
      agreeing run
  intro x xorbMeta hx
  rcases hi.indexed x xorbMeta hx with ⟨body, hb, ho⟩ | ⟨i, swept, todo, he⟩
  · obtain ⟨info, hv, ho⟩ := endOffsets_eq_some.mp ho
    exact ⟨body, info, hb, hv, ho.symm⟩
  · obtain ⟨t, ht, hh⟩ := handler_eq_some.mp he
    have hgc := sweeping_gc run i t ht (by rw [hh]; trivial)
    exact absurd hgc (quiet i t ht (by rw [hh]; rfl)).1

/-- The test of a concrete run for `Agreeing`. -/
def agreeing (core : XetCore Hash) (n : ℕ) (s : State Hash (LocalFs Hash)) : Label Hash → Bool
  | .request _ (.reconstruct _) => false
  | .request _ _ => true
  | .step i c =>
    match s.handler i with
    | some (.putStore x info call) => call.stage ≠ .rename || c.io ≠ .ok ||
        ((s.app.blob.tmp.lookup x).all
          (fun body => endOffsets core x body = some info.chunkBoundaryOffsets) &&
        (s.app.blob.files.lookup x).all
          (fun body => endOffsets core x body = some info.chunkBoundaryOffsets))
    | some (.gcEvict _ x _) => s.all n (fun t =>
        match t.handler with
        | .putIndex y info _ => y ≠ x || ((s.app.blob.files.lookup x).bind (endOffsets core x)) =
            some info.chunkBoundaryOffsets
        | _ => true)
    | _ => true

theorem agreeing_sound {n : ℕ} {s : State Hash (LocalFs Hash)} {l : Label Hash}
    (hs : Below n s) (h : agreeing core n s l = true) : Agreeing core s l := by
  cases l with
  | request i r =>
    cases r with
    | reconstruct fileHashHex => cases h
    | _ => trivial
  | step i c =>
    refine ⟨?_, ?_⟩
    · intro x info call hg hstage hio
      simp only [agreeing, hg, hstage, hio] at h
      simp only [ne_eq, not_true_eq_false, decide_false, Bool.false_or, Bool.and_eq_true,
        Option.all_eq_true, decide_eq_true_eq] at h
      exact h
    · intro swept x todo hg j info len hj
      simp only [agreeing, hg] at h
      obtain ⟨t, ht, hh⟩ := handler_eq_some.mp hj
      have hp := all_tasks hs h ht
      simp only [hh, ne_eq, not_true_eq_false, decide_false, Bool.false_or, decide_eq_true_eq,
        Option.bind_eq_some_iff] at hp
      exact hp

/-- Two uploads of the same body that both find no blob, then a collection, and
an upload of the padded body once the blob is gone. -/
def sweptThenPadded : List (Label Plain.PlainHash) :=
  [.request 0 (.putXorb "default" (Plain.hex [1, 1]) [0, 1, 1, 2]),
    .request 1 (.putXorb "default" (Plain.hex [1, 1]) [0, 1, 1, 2]),
    .step 0 {}, .step 1 {}, .step 0 {}, .step 0 {}, .step 0 {}, .step 1 {}, .step 1 {}, .step 1 {},
    .step 1 {}, .step 1 {}, .step 0 {}, .step 0 {},
    .request 2 .gc, .step 2 { order := [[1, 1]] }, .step 2 {},
    .request 3 (.putXorb "default" (Plain.hex [1, 1]) [1, 1, 1, 0, 2]),
    .step 3 {}, .step 3 {}, .step 2 {}, .step 2 {}, .step 3 {}, .step 3 {}, .step 3 {}, .step 3 {}]

theorem stored_offsets_describe_swept :
    ∃ s, Run.exec (step Plain.plain (localFs Plain.plain "")) (boot {}) sweptThenPadded = some s ∧
      s.app.index.xorbs.lookup [1, 1] = some ⟨1, [4], [1]⟩ ∧ OffsetsDescribe Plain.plain s := by
  have hrun : (Run.exec (step Plain.plain (localFs Plain.plain "")) (boot {}) sweptThenPadded).map
      (fun s => (s.all 4 (fun t => !t.handler.running), s.app.index.xorbs.lookup [1, 1])) =
        some (true, some ⟨1, [4], [1]⟩) := by decide
  obtain ⟨s, hs, he⟩ := Option.map_eq_some_iff.mp hrun
  simp only [Prod.mk.injEq] at he
  refine ⟨s, hs, he.2, stored_offsets_describe Plain.plain_gate {} sweptThenPadded s hs ?_ ?_⟩
  · exact guarded_of_check 4 (agreeing Plain.plain 4)
      (fun _ _ => agreeing_sound) (by decide)
  · intro i t ht hr
    have hidle := all_tasks (run_below hs (n := 4) (by decide)) he.1 ht
    simp [hr] at hidle

/-- Two uploads of one chunk list, one of them padded, that both find no blob:
the second rename wins, the first footer stays. -/
def mixedUploads : List (Label Plain.PlainHash) :=
  [.request 0 (.putXorb "default" (Plain.hex [1, 1]) [0, 1, 1, 2]),
    .request 1 (.putXorb "default" (Plain.hex [1, 1]) [1, 1, 1, 0, 2]),
    .step 0 {}, .step 1 {}, .step 0 {}, .step 0 {}, .step 0 {}, .step 0 {}, .step 0 {},
    .step 1 {}, .step 1 {}, .step 1 {}, .step 1 {}, .step 1 {}]

/-- Nothing is in flight any more, and the index says 3 where the chunk ends at 4. -/
theorem mixed_uploads_disagree :
    ∃ s, Run.exec (step Plain.plain (localFs Plain.plain "")) (boot {}) mixedUploads = some s ∧
      Quiescent s ∧ ¬ OffsetsDescribe Plain.plain s := by
  have hrun : (Run.exec (step Plain.plain (localFs Plain.plain "")) (boot {}) mixedUploads).map
      (fun s => (s.all 2 (fun t => !t.handler.running), s.app.index.xorbs.lookup [1, 1],
        s.app.blob.files.lookup [1, 1])) =
        some (true, some ⟨1, [3], [1]⟩, some [1, 1, 1, 0, 2]) := by decide
  obtain ⟨s, hs, he⟩ := Option.map_eq_some_iff.mp hrun
  simp only [Prod.mk.injEq] at he
  obtain ⟨hidle, hx, hb⟩ := he
  refine ⟨s, hs, ?_, ?_⟩
  · intro i t ht hr
    have hstill := all_tasks (run_below hs (n := 2) (by decide)) hidle ht
    simp [hr] at hstill
  · intro hd
    obtain ⟨body, info, hb', hv, ho⟩ := hd _ _ hx
    rw [hb] at hb'
    cases hb'
    have hend : endOffsets Plain.plain [1, 1] [1, 1, 1, 0, 2] = some [4] := by decide
    rw [endOffsets_eq_some] at hend
    obtain ⟨info', hv', ho'⟩ := hend
    rw [hv] at hv'
    cases hv'
    rw [ho'] at ho
    exact absurd ho (by decide)

end Dejaveph.Proofs.StoredOffsets

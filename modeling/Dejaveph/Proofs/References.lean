import Dejaveph.PlainCore
import Dejaveph.Server.Steps

namespace Dejaveph.Proofs.References
open Lib Server

variable {Hash β : Type} {core : XetCore Hash}

/-- The xorbs that a collection has still to sweep. -/
def sweepList : Handler Hash → List Hash
  | .gcDelete _ x todo | .gcEvict _ x todo => x :: todo
  | _ => []

theorem gcNext_sweepList (swept : ℕ) (todo : List Hash) : sweepList (gcNext swept todo) = todo := by
  cases todo <;> rfl

theorem not_sweeping_sweepList {g : Handler Hash} (h : ¬ g.Sweeping) : sweepList g = [] := by
  cases g <;> first | rfl | exact absurd trivial h

theorem start_sweepList (r : Request) : sweepList (start core r) = [] := by
  have hs := start_started core r
  generalize start core r = g at hs
  cases hs with
  | quiet _ _ still => exact not_sweeping_sweepList (quiet_sweeping still)
  | _ => rfl

theorem afterPut_sweepList (x : Hash) (info : XorbObjectInfoV1 Hash) (len : ℕ) (out : PutOut Hash) :
    sweepList (afterPut x info len out) = [] := by
  unfold afterPut
  split <;> rfl

/-- No collection has still to sweep `x`. -/
def Spared (s : State Hash β) (x : Hash) : Prop :=
  ∀ j g, s.handler j = some g → x ∉ sweepList g

theorem Spared.not_evicting {s : State Hash β} {x : Hash} (h : Spared s x) : ¬ Evicting s x := by
  rintro ⟨j, swept, todo, hj⟩
  exact h j _ hj (by simp [sweepList])

theorem Spared.step {s s' : State Hash β} {i : ℕ} {g' : Handler Hash} {x : Hash}
    (h : Spared s x) (hh : ∀ j, s'.handler j = if j = i then some g' else s.handler j)
    (hg' : x ∉ sweepList g') : Spared s' x := by
  intro j g hj
  rw [hh] at hj
  split at hj
  · cases hj
    exact hg'
  · exact h j g hj

variable [DecidableEq Hash]

abbrev Store (Hash : Type) := Table Hash Bytes

/-- An accepted registration names no xorb that a collection has still to
sweep; and an eviction leaves no upload of the xorb to be indexed whose blob is
gone. -/
def Sparing (core : XetCore Hash) (s : State Hash (Store Hash)) : Label Hash → Prop
  | .request .. => True
  | .step i _ =>
    (∀ fh req terms, s.handler i = some (.registerLock fh req) →
      registerTerms core s.app.index req.terms = .ok terms → ∀ t ∈ terms, Spared s t.xorb) ∧
    ∀ swept x todo, s.handler i = some (.gcEvict swept x todo) →
      ∀ j info len, s.handler j = some (.putIndex x info len) → x ∈ s.app.blob

/-- Every term of every file names a xorb that is indexed and stored. -/
def ReferencesHold (s : State Hash (Store Hash)) : Prop :=
  ∀ fh file, s.app.index.files.lookup fh = some file → ∀ t ∈ file.terms,
    t.xorb ∈ s.app.index.xorbs ∧ t.xorb ∈ s.app.blob

/-- What a file references stays out of every sweep, and what is indexed or is
about to be is stored, unless it is being evicted. -/
structure Invariant (s : State Hash (Store Hash)) : Prop where
  keyed : Keyed s
  references : ReferencesHold s
  spared : ∀ fh file, s.app.index.files.lookup fh = some file → ∀ t ∈ file.terms, Spared s t.xorb
  indexed : s.app.poisoned = false → ∀ x ∈ s.app.index.xorbs, x ∈ s.app.blob ∨ Evicting s x
  indexing : s.app.poisoned = false → ∀ i x info len, s.handler i = some (.putIndex x info len) →
    x ∈ s.app.blob ∨ Evicting s x

section Step
variable {s s' : State Hash (Store Hash)} {i : ℕ} {g' : Handler Hash}

theorem invariant_grows (hi : Invariant s) (hkeyed : Keyed s')
    (hh : ∀ j, s'.handler j = if j = i then some g' else s.handler j)
    (hclean : s'.app.poisoned = false → s.app.poisoned = false)
    (hne : s'.app.poisoned = false → ∀ swept x todo, s.handler i ≠ some (.gcEvict swept x todo))
    (hfiles : s'.app.index.files = s.app.index.files)
    (hblob : ∀ x ∈ s.app.blob, x ∈ s'.app.blob)
    (hxorbs : ∀ x ∈ s.app.index.xorbs, x ∈ s'.app.index.xorbs)
    (hsweep : ∀ x ∈ sweepList g', x ∉ referenced s.app.index)
    (hnew : ∀ x ∈ s'.app.index.xorbs, x ∉ s.app.index.xorbs → ∃ info len,
      s.handler i = some (.putIndex x info len))
    (hput : ∀ x info len, g' = .putIndex x info len → x ∈ s'.app.blob) : Invariant s' := by
  have hset (hp : s'.app.poisoned = false) {x : Hash} (h : x ∈ s.app.blob ∨ Evicting s x) :
      x ∈ s'.app.blob ∨ Evicting s' x :=
    h.imp (hblob x) (evicting_step hh (fun swept todo => hne hp swept x todo))
  refine ⟨hkeyed, ?_, ?_, ?_, ?_⟩
  · intro fh file hf t ht
    rw [hfiles] at hf
    exact (hi.references fh file hf t ht).imp (hxorbs _) (hblob _)
  · intro fh file hf t ht
    rw [hfiles] at hf
    refine (hi.spared fh file hf t ht).step hh (fun hx => hsweep _ hx ?_)
    exact List.mem_flatMap.mpr ⟨file, Table.mem_values.mpr ⟨fh, hf⟩, List.mem_map_of_mem ht⟩
  · intro hp x hx
    by_cases hold : x ∈ s.app.index.xorbs
    · exact hset hp (hi.indexed (hclean hp) x hold)
    · obtain ⟨info, len, hg⟩ := hnew x hx hold
      exact hset hp (hi.indexing (hclean hp) i x info len hg)
  · intro hp j x info len hj
    rw [hh] at hj
    split at hj
    · exact .inl (hput x info len (Option.some.inj hj))
    · exact hset hp (hi.indexing (hclean hp) j x info len hj)

theorem invariant_registered {fh : Hash} {file : FileRecord Hash} {a : Answer} (hi : Invariant s)
    (hkeyed : Keyed s')
    (hh : ∀ j, s'.handler j = if j = i then some (.reply a) else s.handler j)
    (hg : ∀ swept x todo, s.handler i ≠ some (.gcEvict swept x todo))
    (hclean : s.app.poisoned = false) (hblob : s'.app.blob = s.app.blob)
    (hfiles : s'.app.index.files = s.app.index.files.insert fh file)
    (hxorbs : s'.app.index.xorbs = s.app.index.xorbs)
    (hterms : ∀ t ∈ file.terms, t.xorb ∈ s.app.index.xorbs ∧ Spared s t.xorb) : Invariant s' := by
  have hcases {k : Hash} {f : FileRecord Hash} (hf : s'.app.index.files.lookup k = some f) :
      f = file ∨ s.app.index.files.lookup k = some f := by
    rw [hfiles, Table.lookup_insert_if] at hf
    split at hf
    · exact .inl (Option.some.inj hf).symm
    · exact .inr hf
  have hset {x : Hash} (h : x ∈ s.app.blob ∨ Evicting s x) : x ∈ s'.app.blob ∨ Evicting s' x :=
    h.imp (hblob ▸ ·) (evicting_step hh (fun swept todo => hg swept x todo))
  refine ⟨hkeyed, ?_, ?_, ?_, ?_⟩
  · intro k f hf t ht
    rw [hxorbs, hblob]
    rcases hcases hf with rfl | hold
    · obtain ⟨hx, hs⟩ := hterms t ht
      exact ⟨hx, (hi.indexed hclean _ hx).resolve_right hs.not_evicting⟩
    · exact hi.references k f hold t ht
  · intro k f hf t ht
    rcases hcases hf with rfl | hold
    · exact (hterms t ht).2.step hh (by simp [sweepList])
    · exact (hi.spared k f hold t ht).step hh (by simp [sweepList])
  · intro _ x hx
    rw [hxorbs] at hx
    exact hset (hi.indexed hclean x hx)
  · intro _ j x info len hj
    rw [hh] at hj
    split at hj
    · cases hj
    · exact hset (hi.indexing hclean j x info len hj)

theorem invariant_deleted {x : Hash} {swept : ℕ} {todo : List Hash} (hi : Invariant s)
    (hkeyed : Keyed s') (hg : s.handler i = some (.gcDelete swept x todo))
    (hh : ∀ j, s'.handler j = if j = i then some (.gcEvict swept x todo) else s.handler j)
    (hclean : s'.app.poisoned = s.app.poisoned)
    (hblob : ∀ y, y ≠ x → y ∈ s.app.blob → y ∈ s'.app.blob)
    (hindex : s'.app.index = s.app.index) : Invariant s' := by
  have hset {y : Hash} (h : y ∈ s.app.blob ∨ Evicting s y) : y ∈ s'.app.blob ∨ Evicting s' y := by
    by_cases hy : y = x
    · subst hy
      exact .inr ⟨i, swept, todo, by rw [hh, if_pos rfl]⟩
    · exact h.imp (hblob y hy) (evicting_step hh (by simp [hg]))
  refine ⟨hkeyed, ?_, ?_, ?_, ?_⟩
  · intro fh file hf t ht
    rw [hindex] at hf ⊢
    obtain ⟨hx, hb⟩ := hi.references fh file hf t ht
    refine ⟨hx, hblob _ ?_ hb⟩
    rintro rfl
    exact hi.spared fh file hf t ht i _ hg (by simp [sweepList])
  · intro fh file hf t ht
    rw [hindex] at hf
    have hs := hi.spared fh file hf t ht
    exact hs.step hh (fun hm => hs i _ hg hm)
  · intro hp y hy
    rw [hindex] at hy
    exact hset (hi.indexed (hclean ▸ hp) y hy)
  · intro hp j y info len hj
    rw [hh] at hj
    split at hj
    · cases hj
    · exact hset (hi.indexing (hclean ▸ hp) j y info len hj)

theorem invariant_evicted {x : Hash} {swept : ℕ} {todo : List Hash} (hi : Invariant s)
    (hkeyed : Keyed s') (hg : s.handler i = some (.gcEvict swept x todo))
    (hh : ∀ j, s'.handler j = if j = i then some (gcNext (swept + 1) todo) else s.handler j)
    (hclean : s.app.poisoned = false) (hblob : s'.app.blob = s.app.blob)
    (hfiles : s'.app.index.files = s.app.index.files)
    (hxorbs : s'.app.index.xorbs = s.app.index.xorbs.erase x)
    (hstored : ∀ j info len, s.handler j = some (.putIndex x info len) → x ∈ s.app.blob) :
    Invariant s' := by
  have hset {y : Hash} (hy : y ≠ x) (h : y ∈ s.app.blob ∨ Evicting s y) :
      y ∈ s'.app.blob ∨ Evicting s' y := by
    refine h.imp (hblob ▸ ·) (evicting_step hh ?_)
    intro swept' todo' he
    rw [hg] at he
    cases he
    exact hy rfl
  refine ⟨hkeyed, ?_, ?_, ?_, ?_⟩
  · intro fh file hf t ht
    rw [hfiles] at hf
    rw [hxorbs, hblob]
    refine (hi.references fh file hf t ht).imp_left (fun hx => AList.mem_erase.mpr ⟨?_, hx⟩)
    rintro rfl
    exact hi.spared fh file hf t ht i _ hg (by simp [sweepList])
  · intro fh file hf t ht
    rw [hfiles] at hf
    have hs := hi.spared fh file hf t ht
    apply hs.step hh
    rw [gcNext_sweepList]
    exact fun hm => hs i _ hg (List.mem_cons_of_mem _ hm)
  · intro _ y hy
    rw [hxorbs] at hy
    obtain ⟨hyx, hy⟩ := AList.mem_erase.mp hy
    exact hset hyx (hi.indexed hclean y hy)
  · intro _ j y info len hj
    rw [hh] at hj
    split at hj
    · exact absurd (Option.some.inj hj) gcNext_putIndex
    · by_cases hyx : y = x
      · subst hyx
        rw [hblob]
        exact .inl (hstored j info len hj)
      · exact hset hyx (hi.indexing hclean j y info len hj)

end Step

variable {publicBase : String}

theorem step_invariant {s s' : State Hash (Store Hash)} {l : Label Hash}
    (hi : Invariant s) (hl : Sparing core s l)
    (h : step core (writeOnce core publicBase) s l = some s') : Invariant s' := by
  have hkeyed : Keyed s' :=
    step_keyed (fun _ _ _ _ h => absurd h WriteOnce.putStep_done) hi.keyed h
  obtain ⟨i, r, rfl, hn, happ, hh⟩ | ⟨i, c, g, g', rfl, hg, heff, hh⟩ :=
    step_handlers core (writeOnce core publicBase) h
  · exact invariant_grows hi hkeyed hh (by rw [happ]; exact id) (by simp [hn]) (by rw [happ])
      (by rw [happ]; exact fun _ => id) (by rw [happ]; exact fun _ => id)
      (by simp [start_sweepList]) (by rw [happ]; exact fun _ hx hn => absurd hx hn)
      (fun _ _ _ h => absurd h start_putIndex)
  · generalize happ : s'.app = app' at heff
    cases heff with
    | stored x info call =>
      have hcases := WriteOnce.putStep_cases call c.io s.app.blob
      refine invariant_grows hi hkeyed hh (by rw [happ]; exact id) (by simp [hg]) (by rw [happ])
        ?_ (by rw [happ]; exact fun _ => id) (by simp [afterPut_sweepList])
        (by rw [happ]; exact fun _ hx hn => absurd hx hn) ?_
      · rw [happ]
        intro y hy
        change y ∈ (WriteOnce.putStep call c.io s.app.blob).2
        rcases hcases with ⟨hsame, _⟩ | hput
        · rwa [hsame]
        · rw [hput]
          exact (AList.mem_insert _).mpr (.inr hy)
      · rw [happ]
        intro y info' len he
        rcases hcases with ⟨_, hout⟩ | hput
        · exact absurd (afterPut_putIndex he) hout
        · change afterPut x info _ _ = _ at he
          rw [afterPut_putIndex he] at he
          cases he
          change x ∈ (WriteOnce.putStep call c.io s.app.blob).2
          rw [hput]
          exact (AList.mem_insert _).mpr (.inl (hi.keyed i x info call hg).symm)
    | indexed x info len index metrics clean done =>
      obtain ⟨hx, hf, _⟩ := indexXorb_spec done
      refine invariant_grows hi hkeyed hh (by rw [happ]; exact id) (by simp [hg]) (by rw [happ, hf])
        (by rw [happ]; exact fun _ => id) ?_ (by simp [sweepList]) ?_ nofun
      · rw [happ, hx]
        exact fun y hy => Table.mem_orInsert.mpr (.inr hy)
      · rw [happ, hx]
        intro y hy hnew
        obtain rfl := (Table.mem_orInsert.mp hy).resolve_right hnew
        exact ⟨info, len, hg⟩
    | registered fh req result index clean done =>
      obtain ⟨terms, hterms, hf, hx, _⟩ := registerFile_spec done
      refine invariant_registered hi hkeyed hh (by simp [hg]) clean (by rw [happ])
        (by rw [happ]; exact hf) (by rw [happ]; exact hx) ?_
      intro t ht
      exact ⟨registerTerms_uploaded hterms t ht, hl.1 fh req terms hg hterms t ht⟩
    | asked ch metrics =>
      exact invariant_grows hi hkeyed hh (by rw [happ]; exact id) (by simp [hg]) (by rw [happ])
        (by rw [happ]; exact fun _ => id) (by rw [happ]; exact fun _ => id) (by simp [sweepList])
        (by rw [happ]; exact fun _ hx hn => absurd hx hn) nofun
    | sent a =>
      exact invariant_grows hi hkeyed hh (by rw [happ]; exact id) (by simp [hg]) (by rw [happ])
        (by rw [happ]; exact fun _ => id) (by rw [happ]; exact fun _ => id) (by simp [sweepList])
        (by rw [happ]; exact fun _ hx hn => absurd hx hn) nofun
    | marked clean all =>
      refine invariant_grows hi hkeyed hh (by rw [happ]; exact id) (by simp [hg]) (by rw [happ])
        (by rw [happ]; exact fun _ => id) (by rw [happ]; exact fun _ => id) ?_
        (by rw [happ]; exact fun _ hx hn => absurd hx hn)
        (fun _ _ _ h => absurd h gcNext_putIndex)
      rw [gcNext_sweepList]
      intro x hx
      simpa using (List.mem_filter.mp hx).2
    | deleted swept x todo =>
      refine invariant_deleted hi hkeyed hg hh (by rw [happ]) ?_ (by rw [happ])
      intro y hy hm
      rw [happ]
      exact WriteOnce.mem_delete hy hm
    | evicted swept x todo clean =>
      exact invariant_evicted hi hkeyed hg hh clean (by rw [happ]) (by rw [happ]; rfl)
        (by rw [happ]; rfl) (hl.2 swept x todo hg)
    | poisoned _ panics =>
      exact invariant_grows hi hkeyed hh (by rw [happ]; exact nofun) (by rw [happ]; exact nofun)
        (by rw [happ]) (by rw [happ]; exact fun _ => id) (by rw [happ]; exact fun _ => id)
        (by simp [sweepList]) (by rw [happ]; exact fun _ hx hn => absurd hx hn) nofun
    | quiet _ _ metrics live still =>
      refine invariant_grows hi hkeyed hh (by rw [happ]; exact id) ?_ (by rw [happ])
        (by rw [happ]; exact fun _ => id) (by rw [happ]; exact fun _ => id)
        (by simp [not_sweeping_sweepList (quiet_sweeping still)])
        (by rw [happ]; exact fun _ hx hn => absurd hx hn) ?_
      · rw [happ]
        intro hp swept x todo he
        rw [hg] at he
        cases he
        exact absurd (live trivial) (by simp [show s.app.poisoned = false from hp])
      · rintro x info len rfl
        exact absurd still id

theorem boot_invariant (blob : Store Hash) : Invariant (boot blob) := by
  refine ⟨?_, ?_, ?_, ?_, ?_⟩
  · intro i x info call h
    cases h
  · intro fh file h
    cases h
  · intro fh file h
    cases h
  · intro _ x h
    cases h
  · intro _ i x info len h
    cases h

theorem step_files {store : BlobStore Hash β} {s s' : State Hash β} {l : Label Hash}
    (h : step core store s l = some s') {fh : Hash} (hf : fh ∈ s.app.index.files) :
    fh ∈ s'.app.index.files := by
  obtain ⟨i, r, rfl, _, rfl⟩ | ⟨i, c, ⟨r, g⟩, app, g', rfl, _, heff, rfl⟩ := step_cases core store h
  · exact hf
  · cases heff with
    | indexed x info len index metrics clean done =>
      change fh ∈ index.files
      rw [(indexXorb_spec done).2.1]
      exact hf
    | registered fh' req result index clean done =>
      obtain ⟨_, _, he, _⟩ := registerFile_spec done
      change fh ∈ index.files
      rw [he]
      exact (AList.mem_insert _).mpr (.inr hf)
    | _ => exact hf

/-- A file whose references hold is never answered with an error. -/
theorem collect_no_error {idx : Index Hash} {fh : Hash} {file : FileRecord Hash}
    (hf : idx.files.lookup fh = some file) (hx : ∀ t ∈ file.terms, t.xorb ∈ idx.xorbs)
    (status : Status) : collect idx fh ≠ some (.error status) := by
  simp only [collect, hf]
  generalize file.terms = ts at hx
  induction ts with
  | nil => simp [collectTerms]
  | cons t ts ih =>
    obtain ⟨xorbMeta, hm⟩ := Table.mem_iff.mp (hx t (by simp))
    have hrest := ih (fun u hu => hx u (by simp [hu]))
    simp only [collectTerms, hm]
    cases byteRange xorbMeta t with
    | none => simp
    | some r =>
      cases hc : collectTerms idx ts with
      | none => simp
      | some res =>
        cases res with
        | error e =>
          simp only [Option.map_some, Except.map, ne_eq, Option.some.injEq, Except.error.injEq]
          rintro rfl
          exact hrest hc
        | ok v => simp [Except.map]

/-- In every run that spares what is being registered or uploaded, the terms of
every file name stored and indexed xorbs, and a registered file stays and is
never answered as missing or broken. -/
theorem references_hold (blob : Store Hash) (labels : List (Label Hash))
    (s : State Hash (Store Hash))
    (run : Run.exec (step core (writeOnce core publicBase)) (boot blob) labels = some s)
    (sparing : Run.Guarded (step core (writeOnce core publicBase)) (Sparing core) (boot blob)
      labels) :
    ReferencesHold s ∧
      ∀ before after u, labels = before ++ after →
        Run.exec (step core (writeOnce core publicBase)) (boot blob) before = some u →
        ∀ fh ∈ u.app.index.files, fh ∈ s.app.index.files ∧
          ∀ status, collect s.app.index fh ≠ some (.error status) := by
  have hi : Invariant s :=
    Run.exec_invariant (fun _ _ _ hi hl h => step_invariant hi hl h) (boot_invariant blob)
      sparing run
  refine ⟨hi.references, ?_⟩
  rintro before after u rfl hu fh hf
  obtain ⟨u', hu', run'⟩ := Run.exec_append.mp run
  obtain rfl := Option.some.inj (hu.symm.trans hu')
  have hs : fh ∈ s.app.index.files :=
    Run.exec_preserves (I := fun s => fh ∈ s.app.index.files) (fun _ _ _ hf h => step_files h hf)
      hf run'
  obtain ⟨file, hfile⟩ := Table.mem_iff.mp hs
  exact ⟨hs, collect_no_error hfile (fun t ht => (hi.references fh file hfile t ht).1)⟩

/-- The test of a concrete run for `Sparing`. -/
def sparing (core : XetCore Hash) (n : ℕ) (s : State Hash (Store Hash)) : Label Hash → Bool
  | .request .. => true
  | .step i _ =>
    match s.handler i with
    | some (.registerLock _ req) =>
      match registerTerms core s.app.index req.terms with
      | .ok terms => terms.all (fun t => s.all n (fun u => t.xorb ∉ sweepList u.handler))
      | .error _ => true
    | some (.gcEvict _ x _) => s.all n (fun t =>
        match t.handler with
        | .putIndex y _ _ => y ≠ x || x ∈ s.app.blob
        | _ => true)
    | _ => true

theorem sparing_sound {n : ℕ} {s : State Hash (Store Hash)} {l : Label Hash}
    (hs : Below n s) (h : sparing core n s l = true) : Sparing core s l := by
  cases l with
  | request i r => trivial
  | step i c =>
    refine ⟨?_, ?_⟩
    · intro fh req terms hg hterms t ht j g hj
      simp only [sparing, hg, hterms] at h
      obtain ⟨u, hu, rfl⟩ := handler_eq_some.mp hj
      simpa using all_tasks hs (List.all_eq_true.mp h t ht) hu
    · intro swept x todo hg j info len hj
      simp only [sparing, hg] at h
      obtain ⟨t, ht, hh⟩ := handler_eq_some.mp hj
      have hp := all_tasks hs h ht
      simpa [hh] using hp

/-- Two uploads, a file of the first, and a collection that sweeps the second. -/
def spareOne : List (Label Plain.PlainHash) :=
  [.request 0 (.putXorb "default" (Plain.hex [1, 1]) [0, 1, 1, 2]), .step 0 {}, .step 0 {},
    .request 1 (.putXorb "default" (Plain.hex [1, 2]) [0, 1, 2, 2]), .step 1 {}, .step 1 {},
    .request 2 (.registerFile
      ⟨Plain.hex [7], 1, [⟨Plain.hex [1, 1], 0, 1, 1⟩], some "vol", some "/f"⟩), .step 2 {},
    .request 3 .gc, .step 3 { order := [[1, 1], [1, 2]] }, .step 3 {}, .step 3 {}, .step 3 {}]

theorem references_hold_spared :
    ∃ s, Run.exec (step Plain.plain (writeOnce Plain.plain "")) (boot ∅) spareOne = some s ∧
      s.app.index.files.lookup [7] = some ⟨1, [⟨[1, 1], 0, 1, 1⟩]⟩ ∧
      [1, 2] ∉ s.app.index.xorbs ∧ ReferencesHold s := by
  have hrun : (Run.exec (step Plain.plain (writeOnce Plain.plain "")) (boot ∅) spareOne).map
      (fun s => (s.app.index.files.lookup [7], s.app.index.xorbs.lookup [1, 2])) =
        some (some ⟨1, [⟨[1, 1], 0, 1, 1⟩]⟩, none) := by decide
  obtain ⟨s, hs, he⟩ := Option.map_eq_some_iff.mp hrun
  simp only [Prod.mk.injEq] at he
  exact ⟨s, hs, he.1, AList.lookup_eq_none.mp he.2, (references_hold ∅ spareOne s hs
    (guarded_of_check 4 (sparing Plain.plain 4) (fun _ _ => sparing_sound)
      (by decide))).1⟩

/-- A file registered between the mark phase and the sweep. -/
def registeredDuringSweep : List (Label Plain.PlainHash) :=
  [.request 0 (.putXorb "default" (Plain.hex [1, 1]) [0, 1, 1, 2]), .step 0 {}, .step 0 {},
    .step 0 {}, .request 1 .gc, .step 1 { order := [[1, 1]] },
    .request 2 (.registerFile
      ⟨Plain.hex [7], 1, [⟨Plain.hex [1, 1], 0, 1, 1⟩], some "vol", some "/f"⟩), .step 2 {},
    .step 2 {}, .step 1 {}, .step 1 {}, .step 1 {}]

/-- The number that a registration has been answered with. -/
def registered : Option (Handler Plain.PlainHash) → Option ℕ
  | some (.answered (.registerFile (.ok n))) => some n
  | _ => none

theorem registered_answered {g : Option (Handler Plain.PlainHash)} {n : ℕ}
    (h : registered g = some n) : g = some (.answered (.registerFile (.ok n))) := by
  unfold registered at h
  split at h
  · cases h
    rfl
  · cases h

/-- The registration was answered with success, no collection is in flight, and
the file names a xorb that is gone. -/
theorem registered_during_sweep_breaks :
    ∃ s, Run.exec (step Plain.plain (writeOnce Plain.plain "")) (boot ∅) registeredDuringSweep =
        some s ∧
      s.handler 2 = some (.answered (.registerFile (.ok 1))) ∧ ¬ GcInFlight s ∧
      ¬ ReferencesHold s := by
  have hrun : (Run.exec (step Plain.plain (writeOnce Plain.plain "")) (boot ∅)
      registeredDuringSweep).map (fun s => (s.all 3 (fun t => !t.handler.running),
        s.app.index.files.lookup [7], s.app.index.xorbs.lookup [1, 1],
        registered (s.handler 2))) =
        some (true, some ⟨1, [⟨[1, 1], 0, 1, 1⟩]⟩, none, some 1) := by decide
  obtain ⟨s, hs, he⟩ := Option.map_eq_some_iff.mp hrun
  simp only [Prod.mk.injEq] at he
  obtain ⟨hidle, hf, hx, hans⟩ := he
  refine ⟨s, hs, registered_answered hans, ?_, ?_⟩
  · rintro ⟨i, t, ht, _, hr⟩
    have hstill := all_tasks (run_below hs (n := 3) (by decide)) hidle ht
    simp [hr] at hstill
  · intro href
    have hm := (href [7] _ hf ⟨[1, 1], 0, 1, 1⟩ (by simp)).1
    exact AList.lookup_eq_none.mp hx hm

end Dejaveph.Proofs.References

import Dejaveph.Proofs.Unpoisoned

namespace Dejaveph.Proofs.UsableUploads
open Lib Server DedupSound Unpoisoned

variable {Hash β : Type} {core : XetCore Hash}

/-- The request uploads this xorb. -/
def Uploads (core : XetCore Hash) (x : Hash) : Request → Prop
  | .putXorb _ hashHex _ => core.fromHex hashHex = some x
  | _ => False

theorem Uploads.unique {r : Request} {x y : Hash} (hx : Uploads core x r)
    (hy : Uploads core y r) : x = y := by
  cases r with
  | putXorb ns hashHex body => exact Option.some.inj (hx.symm.trans hy)
  | _ => exact absurd hx id

/-- The upload will be answered with success, and no longer touches the index. -/
def Settled : Handler Hash → Prop
  | .putStore _ _ call => call.stage = .removeTmp
  | .reply (.putXorb (.ok _)) => True
  | _ => False

theorem quiet_settled {g : Handler Hash} (hq : g.Quiet) : ¬ Settled g := by
  cases g with
  | putStore => exact absurd hq id
  | reply a =>
    cases a with
    | putXorb result =>
      cases result with
      | ok b => exact absurd hq id
      | error f => exact id
    | _ => exact id
  | _ => exact id

theorem gcNext_settled {swept : ℕ} {todo : List Hash} : ¬ Settled (gcNext swept todo) := by
  cases todo <;> exact id

/-- The handler of an upload works on the xorb of its request, which is indexed
once the handler is settled. -/
structure Follows (core : XetCore Hash) (indexed : Hash → Prop) (t : Exchange Hash) : Prop where
  storing : ∀ x info call, t.handler = .putStore x info call →
    call.key = x ∧ Uploads core x t.request
  indexing : ∀ x info len, t.handler = .putIndex x info len → Uploads core x t.request
  settled : Settled t.handler → ∀ x, Uploads core x t.request → indexed x

theorem quiet_follows {indexed : Hash → Prop} {r : Request} {g : Handler Hash} (hq : g.Quiet) :
    Follows core indexed ⟨r, g⟩ := by
  refine ⟨?_, ?_, fun h => absurd h (quiet_settled hq)⟩
  · rintro x info call rfl
    exact absurd hq id
  · rintro x info len rfl
    exact absurd hq id

theorem gcNext_follows {indexed : Hash → Prop} {r : Request} {swept : ℕ} {todo : List Hash} :
    Follows core indexed ⟨r, gcNext swept todo⟩ :=
  ⟨fun _ _ _ h => absurd h gcNext_putStore, fun _ _ _ h => absurd h gcNext_putIndex,
    fun h => absurd h gcNext_settled⟩

theorem start_follows {indexed : Hash → Prop} (r : Request) :
    Follows core indexed ⟨r, start core r⟩ := by
  have hs := start_started core r
  generalize start core r = g at hs
  cases hs with
  | putXorb ns hashHex body hash info accepted =>
    refine ⟨?_, nofun, nofun⟩
    intro y info call h
    cases h
    exact ⟨rfl, (gate_commits accepted).1⟩
  | quiet _ _ still => exact quiet_follows still
  | _ => exact ⟨nofun, nofun, fun h => absurd h id⟩

theorem Follows.mono {indexed indexed' : Hash → Prop} {t : Exchange Hash}
    (h : Follows core indexed t) (hm : ∀ x, indexed x → indexed' x) : Follows core indexed' t :=
  ⟨h.storing, h.indexing, fun hs x hx => hm x (h.settled hs x hx)⟩

variable [DecidableEq Hash]

/-- An existence test that finds a blob finds its xorb indexed; and an eviction
concerns no xorb of a settled upload, and no chunk of another indexed xorb. -/
def Sheltering (core : XetCore Hash) (s : State Hash (LocalFs Hash)) : Label Hash → Prop
  | .request i r => NoReconstruct (.request i r : Label Hash)
  | .step i c =>
    (∀ x info call, s.handler i = some (.putStore x info call) →
      (call.stage = .tryExists ∨ ∃ e, call.stage = .recheck e) → c.io = .ok →
      x ∈ s.app.blob.files → x ∈ s.app.index.xorbs) ∧
    ∀ swept y todo, s.handler i = some (.gcEvict swept y todo) →
      (∀ j t, s.tasks j = some t → Uploads core y t.request → ¬ Settled t.handler) ∧
      ∀ h loc, s.app.index.chunkIndex.lookup h = some loc → loc.xorb = y →
        ∀ x ∈ s.app.index.xorbs, x ≠ y → ∀ info, core.Commits x info → h ∉ info.chunkHashes

/-- Every chunk of every indexed xorb has an entry in the dedup index. -/
def Covered (core : XetCore Hash) (idx : Index Hash) : Prop :=
  ∀ x ∈ idx.xorbs, ∀ info, core.Commits x info → ∀ h ∈ info.chunkHashes, h ∈ idx.chunkIndex

structure Invariant (core : XetCore Hash) (s : State Hash (LocalFs Hash)) : Prop where
  clean : Clean core s
  follows : ∀ i t, s.tasks i = some t → Follows core (· ∈ s.app.index.xorbs) t
  covered : Covered core s.app.index

theorem Covered.indexXorb {idx idx' : Index Hash} {x : Hash} {info : XorbObjectInfoV1 Hash}
    (gate : core.GateLaws) (hc : Covered core idx) (hx : core.Commits x info)
    (h : indexXorb idx x info = some idx') : Covered core idx' := by
  obtain ⟨hxorbs, _, _, hm⟩ := indexXorb_spec h
  intro y hy info' hy' k hk
  rw [hxorbs] at hy
  rcases Table.mem_orInsert.mp hy with rfl | hy
  · rw [← (gate.one_list _ _ _ hx hy').1] at hk
    exact Index.indexChunksFrom_covers hm hk
  · obtain ⟨loc, hl⟩ := Table.mem_iff.mp (hc y hy info' hy' k hk)
    exact Table.mem_of_lookup (Index.indexChunksFrom_keeps hm hl)

theorem Covered.evict {idx : Index Hash} {y : Hash} (hc : Covered core idx)
    (hshared : ∀ h loc, idx.chunkIndex.lookup h = some loc → loc.xorb = y →
      ∀ x ∈ idx.xorbs, x ≠ y → ∀ info, core.Commits x info → h ∉ info.chunkHashes) :
    Covered core (evict idx y) := by
  intro x hx info hi k hk
  obtain ⟨hne, hm⟩ := AList.mem_erase.mp hx
  obtain ⟨loc, hl⟩ := Table.mem_iff.mp (hc x hm info hi k hk)
  have hloc : loc.xorb ≠ y := fun he => hshared k loc hl he x hm hne info hi hk
  refine Table.mem_of_lookup (v := loc) ?_
  simp [Server.evict, Table.lookup_retain, hl, hloc]

variable {publicBase : String}

/-- A finished `put` that found a blob in place found its xorb indexed. -/
theorem stored_follows {s : State Hash (LocalFs Hash)} {i : ℕ} {c : Choice Hash} {r : Request}
    {x : Hash} {info : XorbObjectInfoV1 Hash} {call : PutCall Hash}
    (hf : Follows core (· ∈ s.app.index.xorbs) ⟨r, .putStore x info call⟩)
    (ht : s.tasks i = some ⟨r, .putStore x info call⟩) (hl : Sheltering core s (.step i c)) :
    Follows core (· ∈ s.app.index.xorbs) ⟨r, afterPut x info call.bytes.length
      (LocalFs.putStep call c.io s.app.blob).1⟩ := by
  obtain ⟨hkey, hup⟩ := hf.storing x info call rfl
  have hfound (call' : PutCall Hash)
      (h : (LocalFs.putStep call c.io s.app.blob).1 = .done (.ok false) ∨
        ((LocalFs.putStep call c.io s.app.blob).1 = .pending call' ∧ call'.stage = .removeTmp)) :
      x ∈ s.app.index.xorbs := by
    rcases LocalFs.putStep_found (h.imp_right (fun h => ⟨call', h⟩)) with hs | ⟨hs, hio, hm⟩
    · exact hf.settled hs x hup
    · exact hl.1 x info call (handler_eq_some.mpr ⟨_, ht, rfl⟩) hs hio (hkey ▸ hm)
  refine ⟨?_, ?_, ?_⟩
  · intro y info' call' h
    obtain ⟨hp, rfl⟩ := afterPut_putStore h
    exact ⟨(LocalFs.putStep_pending hp).1.trans hkey, hup⟩
  · intro y info' len h
    change afterPut x info call.bytes.length _ = _ at h
    rw [afterPut_putIndex h] at h
    cases h
    exact hup
  · intro h y hy
    obtain rfl := hup.unique hy
    generalize hout : (LocalFs.putStep call c.io s.app.blob).1 = out at h hfound
    unfold afterPut at h
    split at h
    · rename_i call'
      exact hfound call' (.inr ⟨rfl, h⟩)
    · exact absurd h id
    · exact hfound call (.inl rfl)
    · exact absurd h id

theorem step_invariant (gate : core.GateLaws) {s s' : State Hash (LocalFs Hash)} {l : Label Hash}
    (hi : Invariant core s) (hl : Sheltering core s l)
    (h : step core (localFs core publicBase) s l = some s') : Invariant core s' := by
  have hclean : Clean core s' := by
    refine step_clean gate ?_ hi.clean h
    cases l with
    | request i r => exact hl
    | step i c => trivial
  obtain ⟨i, r, rfl, _, rfl⟩ | ⟨i, c, ⟨r, g⟩, app, g', rfl, ht, heff, rfl⟩ :=
    step_cases core (localFs core publicBase) h
  · exact ⟨hclean, Run.update_forall hi.follows (start_follows r), hi.covered⟩
  · have hf := hi.follows i _ ht
    cases heff with
    | stored x info call =>
      exact ⟨hclean, Run.update_forall hi.follows (stored_follows hf ht hl), hi.covered⟩
    | indexed x info len index metrics clean done =>
      have hx := (indexXorb_spec done).1
      have hgrow {y : Hash} (hy : y ∈ s.app.index.xorbs) : y ∈ index.xorbs := by
        rw [hx]
        exact Table.mem_orInsert.mpr (.inr hy)
      refine ⟨hclean, Run.update_forall (fun j t hj => (hi.follows j t hj).mono (fun _ => hgrow)) ?_,
        hi.covered.indexXorb gate (hi.clean.accepted i _ ht) done⟩
      refine ⟨nofun, nofun, ?_⟩
      intro _ y hy
      obtain rfl := (hf.indexing x info len rfl).unique hy
      change x ∈ index.xorbs
      rw [hx]
      exact Table.mem_orInsert.mpr (.inl rfl)
    | registered fh req result index clean done =>
      obtain ⟨_, _, _, hx, hch⟩ := registerFile_spec done
      refine ⟨hclean, Run.update_forall (P := Follows core (· ∈ index.xorbs)) ?_ ?_, ?_⟩
      · simpa only [hx] using hi.follows
      · exact ⟨nofun, nofun, fun h => absurd h id⟩
      · simpa only [Covered, hx, hch] using hi.covered
    | asked ch metrics =>
      refine ⟨hclean, Run.update_forall hi.follows ⟨nofun, nofun, ?_⟩, hi.covered⟩
      exact fun h => absurd h id
    | sent a =>
      exact ⟨hclean, Run.update_forall hi.follows ⟨nofun, nofun, fun h => absurd h id⟩, hi.covered⟩
    | marked clean all => exact ⟨hclean, Run.update_forall hi.follows gcNext_follows, hi.covered⟩
    | deleted swept y todo =>
      exact ⟨hclean, Run.update_forall hi.follows ⟨nofun, nofun, fun h => absurd h id⟩, hi.covered⟩
    | evicted swept y todo clean =>
      obtain ⟨hsettled, hshared⟩ := hl.2 swept y todo (handler_eq_some.mpr ⟨_, ht, rfl⟩)
      refine ⟨hclean, Run.update_forall ?_ gcNext_follows, hi.covered.evict hshared⟩
      intro j t hj
      have hold := hi.follows j t hj
      refine ⟨hold.storing, hold.indexing, ?_⟩
      intro hs x hx
      refine AList.mem_erase.mpr ⟨?_, hold.settled hs x hx⟩
      rintro rfl
      exact hsettled j t hj hx hs
    | poisoned _ panics =>
      exact ⟨hclean, Run.update_forall hi.follows ⟨nofun, nofun, fun h => absurd h id⟩, hi.covered⟩
    | quiet _ _ metrics live still =>
      exact ⟨hclean, Run.update_forall hi.follows (quiet_follows still), hi.covered⟩

omit [DecidableEq Hash] in
theorem boot_invariant (fs : LocalFs Hash) : Invariant core (boot fs) := by
  refine ⟨boot_clean fs, ?_, ?_⟩
  · intro i t ht
    cases ht
  · intro x hx
    cases hx

theorem run_invariant (gate : core.GateLaws) {fs : LocalFs Hash} {labels : List (Label Hash)}
    {s : State Hash (LocalFs Hash)}
    (run : Run.exec (step core (localFs core publicBase)) (boot fs) labels = some s)
    (guard : Run.Guarded (step core (localFs core publicBase)) (Sheltering core) (boot fs) labels) :
    Invariant core s :=
  Run.exec_invariant (fun _ _ _ hi hl h => step_invariant gate hi hl h) (boot_invariant fs) guard run

theorem step_grows {store : BlobStore Hash β} {s s' : State Hash β} {l : Label Hash}
    (hl : ∀ i, l ≠ .request i .gc) (hs : ∀ i t, s.tasks i = some t → ¬ t.handler.Sweeping)
    (h : step core store s l = some s') :
    (∀ i t, s'.tasks i = some t → ¬ t.handler.Sweeping) ∧
      ∀ x ∈ s.app.index.xorbs, x ∈ s'.app.index.xorbs := by
  obtain ⟨i, r, rfl, _, rfl⟩ | ⟨i, c, ⟨r, g⟩, app, g', rfl, ht, heff, rfl⟩ := step_cases core store h
  · refine ⟨Run.update_forall hs (fun h => ?_), fun _ hx => hx⟩
    exact hl i (by rw [start_sweeping h])
  · refine ⟨Run.update_forall hs (fun h => hs i _ ht (effect_sweeping heff h)), ?_⟩
    intro x hx
    cases heff with
    | indexed y info len index metrics clean done =>
      change x ∈ index.xorbs
      rw [(indexXorb_spec done).1]
      exact Table.mem_orInsert.mpr (.inr hx)
    | registered fh req result index clean done =>
      obtain ⟨_, _, _, he, _⟩ := registerFile_spec done
      change x ∈ index.xorbs
      rwa [he]
    | evicted swept y todo clean => exact absurd trivial (hs i _ ht)
    | _ => exact hx

theorem run_grows {store : BlobStore Hash β} {s s' : State Hash β} {labels : List (Label Hash)}
    (hl : ∀ l ∈ labels, ∀ i, l ≠ .request i .gc)
    (hs : ∀ i t, s.tasks i = some t → ¬ t.handler.Sweeping)
    (run : Run.exec (step core store) s labels = some s') {x : Hash}
    (hx : x ∈ s.app.index.xorbs) : x ∈ s'.app.index.xorbs := by
  refine (Run.exec_invariant (C := fun _ l => ∀ i, l ≠ .request i .gc)
    (I := fun s => (∀ i t, s.tasks i = some t → ¬ t.handler.Sweeping) ∧ x ∈ s.app.index.xorbs)
    ?_ ⟨hs, hx⟩ (Run.guarded_of_forall (fun l hm _ => hl l hm) s) run).2
  intro s l s' hi hl h
  obtain ⟨hs', hgrow⟩ := step_grows hl hi.1 h
  exact ⟨hs', hgrow x hi.2⟩

/-- The run answers an upload of this xorb with success, and no collection is in
flight then or later. -/
def Acknowledged (core : XetCore Hash) (store : BlobStore Hash β) (blob : β)
    (labels : List (Label Hash)) (x : Hash) : Prop :=
  ∃ before i c after s t inserted, labels = before ++ .step i c :: after ∧
    Run.exec (step core store) (boot blob) before = some s ∧ s.tasks i = some t ∧
    Uploads core x t.request ∧ t.handler = .reply (.putXorb (.ok inserted)) ∧
    ¬ GcInFlight s ∧ ∀ l ∈ after, ∀ j, l ≠ .request j .gc

theorem acknowledged_indexed (gate : core.GateLaws) {fs : LocalFs Hash}
    {labels : List (Label Hash)} {s : State Hash (LocalFs Hash)}
    (run : Run.exec (step core (localFs core publicBase)) (boot fs) labels = some s)
    (guard : Run.Guarded (step core (localFs core publicBase)) (Sheltering core) (boot fs) labels)
    {x : Hash} (ha : Acknowledged core (localFs core publicBase) fs labels x) :
    x ∈ s.app.index.xorbs := by
  obtain ⟨before, i, c, after, u, t, inserted, rfl, hu, ht, hup, hh, hgc, hafter⟩ := ha
  obtain ⟨u', hu', run⟩ := Run.exec_append.mp run
  obtain rfl := Option.some.inj (hu.symm.trans hu')
  have hi := run_invariant gate hu (Run.guarded_append.mp guard).1
  refine run_grows ?_ ?_ run ((hi.follows i t ht).settled (by rw [hh]; trivial) x hup)
  · intro l hl j
    rcases List.mem_cons.mp hl with rfl | hl
    · exact nofun
    · exact hafter l hl j
  · intro j t' hj hs
    refine hgc ⟨j, t', hj, sweeping_gc hu j t' hj hs, ?_⟩
    cases hg : t'.handler <;> rw [hg] at hs <;> first | rfl | exact absurd hs id

/-- The answer to an upload is a promise: in every run that shelters the xorbs
of settled uploads, an acknowledged xorb is indexed, the dedup query finds its
chunks, and a registration of such xorbs only is accepted. -/
theorem acknowledged_usable (gate : core.GateLaws) (fs : LocalFs Hash)
    (labels : List (Label Hash)) (s : State Hash (LocalFs Hash))
    (run : Run.exec (step core (localFs core publicBase)) (boot fs) labels = some s)
    (guard : Run.Guarded (step core (localFs core publicBase)) (Sheltering core) (boot fs) labels) :
    (∀ x, Acknowledged core (localFs core publicBase) fs labels x →
      x ∈ s.app.index.xorbs ∧ ∀ info, core.Commits x info → ∀ h ∈ info.chunkHashes,
        ∀ c, ∃ app' hit, advance core (localFs core publicBase) c s.app (.dedupLock h) =
          some (app', .reply (.globalDedup (.ok hit)))) ∧
    ∀ fh req, (∀ t ∈ req.terms, ∃ x, core.fromHex t.xorb = some x ∧
        Acknowledged core (localFs core publicBase) fs labels x) →
      ∀ c, ∃ app' result, advance core (localFs core publicBase) c s.app (.registerLock fh req) =
        some (app', .reply (.registerFile (.ok result))) := by
  have hi := run_invariant gate run guard
  refine ⟨?_, ?_⟩
  · intro x ha
    have hx := acknowledged_indexed gate run guard ha
    refine ⟨hx, ?_⟩
    intro info hc h hh c
    obtain ⟨loc, hl⟩ := Table.mem_iff.mp (hi.covered x hx info hc h hh)
    exact ⟨_, _, by simp only [advance, lock, hi.clean.unpoisoned, hl, dedupAnswer]; rfl⟩
  · intro fh req hreq c
    obtain ⟨terms, hterms⟩ : ∃ terms, registerTerms core s.app.index req.terms = .ok terms := by
      apply registerTerms_total
      intro t ht
      obtain ⟨x, hx, ha⟩ := hreq t ht
      exact ⟨x, hx, acknowledged_indexed gate run guard ha⟩
    exact ⟨_, _, by
      simp only [advance, lock, hi.clean.unpoisoned, registerFile, hterms]
      rfl⟩

/-- The test of a concrete run for `Sheltering`. -/
def sheltering (n : ℕ) (s : State Hash (LocalFs Hash)) : Label Hash → Bool
  | .request _ (.reconstruct _) => false
  | .request _ _ => true
  | .step i _ =>
    match s.handler i with
    | some (.putStore x _ _) => x ∉ s.app.blob.files || x ∈ s.app.index.xorbs
    | some (.gcEvict _ y _) => s.all n (fun t =>
        match t.handler with
        | .putStore _ _ call => call.stage ≠ .removeTmp
        | .reply (.putXorb (.ok _)) => false
        | _ => true) && s.app.index.xorbs.keys.all (fun x => x = y)
    | _ => true

theorem sheltering_sound {n : ℕ} {s : State Hash (LocalFs Hash)} {l : Label Hash}
    (hs : Below n s) (h : sheltering n s l = true) : Sheltering core s l := by
  cases l with
  | request i r =>
    cases r with
    | reconstruct fileHashHex => cases h
    | _ => trivial
  | step i c =>
    refine ⟨?_, ?_⟩
    · intro x info call hg _ _ hm
      simpa [sheltering, hg, hm] using h
    · intro swept y todo hg
      simp only [sheltering, hg, Bool.and_eq_true] at h
      refine ⟨?_, ?_⟩
      · intro j t hj _ hset
        have hp := all_tasks hs h.1 hj
        revert hp hset
        cases t.handler with
        | putStore x info call => simp [Settled]
        | reply a =>
          cases a with
          | putXorb result => cases result <;> simp [Settled]
          | _ => simp [Settled]
        | _ => simp [Settled]
      · intro k loc _ _ x hx hne
        exact absurd (by simpa using List.all_eq_true.mp h.2 x (AList.mem_keys.mp hx)) hne

/-- The test of a concrete state for an answer that acknowledges `x`. -/
def acknowledges (core : XetCore Hash) (x : Hash) (n i : ℕ) (s : State Hash β) : Bool :=
  s.all n (fun t => t.request ≠ .gc || !t.handler.running) &&
    (s.tasks i).any (fun t =>
      match t.request, t.handler with
      | .putXorb _ hashHex _, .reply (.putXorb (.ok _)) => core.fromHex hashHex = some x
      | _, _ => false)

theorem acknowledged_of_check {store : BlobStore Hash β} {blob : β} {n i : ℕ} {x : Hash}
    {before : List (Label Hash)} {c : Choice Hash} {after : List (Label Hash)}
    (hn : before.all (Label.below n) = true)
    (h : (Run.exec (step core store) (boot blob) before).any (acknowledges core x n i) = true)
    (hafter : ∀ l ∈ after, ∀ j, l ≠ .request j .gc) :
    Acknowledged core store blob (before ++ .step i c :: after) x := by
  obtain ⟨s, hs, hack⟩ := (Option.any_eq_true _ _).mp h
  obtain ⟨hgc, hack⟩ := Bool.and_eq_true_iff.mp hack
  obtain ⟨⟨r, g⟩, ht, hp⟩ := (Option.any_eq_true _ _).mp hack
  split at hp
  · rename_i ns hashHex body inserted hr hg
    have hup : Uploads core x r := by
      change r = _ at hr
      subst hr
      simpa [Uploads] using hp
    refine ⟨before, i, c, after, s, _, inserted, rfl, hs, ht, hup, hg, ?_, hafter⟩
    rintro ⟨j, t, hj, hr, hrun⟩
    have hstill := all_tasks (run_below hs hn) hgc hj
    simp [hr, hrun] at hstill
  · cases hp

/-- An upload, its sweep, and the same upload again, twice. -/
def uploadedAgain : List (Label Plain.PlainHash) :=
  [.request 0 (.putXorb "default" (Plain.hex [1, 1]) [0, 1, 1, 2]),
    .step 0 {}, .step 0 {}, .step 0 {}, .step 0 {}, .step 0 {}, .step 0 {},
    .request 1 .gc, .step 1 { order := [[1, 1]] }, .step 1 {}, .step 1 {}, .step 1 {},
    .request 2 (.putXorb "default" (Plain.hex [1, 1]) [0, 1, 1, 2]),
    .step 2 {}, .step 2 {}, .step 2 {}, .step 2 {}, .step 2 {}, .step 2 {},
    .request 3 (.putXorb "default" (Plain.hex [1, 1]) [0, 1, 1, 2]), .step 3 {}]

theorem acknowledged_usable_again :
    ∃ s, Run.exec (step Plain.plain (localFs Plain.plain "")) (boot {})
        (uploadedAgain ++ [.step 3 {}]) = some s ∧
      Acknowledged Plain.plain (localFs Plain.plain "") {} (uploadedAgain ++ [.step 3 {}]) [1, 1] ∧
      [1, 1] ∈ s.app.index.xorbs := by
  have hsome : (Run.exec (step Plain.plain (localFs Plain.plain "")) (boot {})
      (uploadedAgain ++ [.step 3 {}])).isSome = true := by decide
  obtain ⟨s, hs⟩ := Option.isSome_iff_exists.mp hsome
  have hack : Acknowledged Plain.plain (localFs Plain.plain "") {}
      (uploadedAgain ++ [.step 3 {}]) [1, 1] :=
    acknowledged_of_check (n := 4) (by decide) (by decide) (by simp)
  exact ⟨s, hs, hack, ((acknowledged_usable Plain.plain_gate {} _ s hs
    (guarded_of_check 4 (sheltering 4) (fun _ _ => sheltering_sound)
      (by decide))).1 _ hack).1⟩

/-- An upload to a server that has restarted over a blob of the same xorb. -/
def afterRestart : List (Label Plain.PlainHash) :=
  [.request 0 (.putXorb "default" (Plain.hex [1, 1]) [0, 1, 1, 2]), .step 0 {}]

/-- The upload is acknowledged, and the xorb is not in the index. -/
theorem restart_not_indexed :
    ∃ s, Run.exec (step Plain.plain (localFs Plain.plain ""))
        (boot { files := (∅ : Table _ _).insert [1, 1] [0, 1, 1, 2] })
        (afterRestart ++ [.step 0 {}]) = some s ∧
      Acknowledged Plain.plain (localFs Plain.plain "")
        { files := (∅ : Table _ _).insert [1, 1] [0, 1, 1, 2] }
        (afterRestart ++ [.step 0 {}]) [1, 1] ∧
      [1, 1] ∉ s.app.index.xorbs := by
  have hrun : (Run.exec (step Plain.plain (localFs Plain.plain ""))
      (boot { files := (∅ : Table _ _).insert [1, 1] [0, 1, 1, 2] })
      (afterRestart ++ [.step 0 {}])).map (fun s => s.app.index.xorbs.lookup [1, 1]) =
        some none := by decide
  obtain ⟨s, hs, hx⟩ := Option.map_eq_some_iff.mp hrun
  exact ⟨s, hs, acknowledged_of_check (n := 1) (by decide) (by decide) (by simp),
    AList.lookup_eq_none.mp hx⟩

end Dejaveph.Proofs.UsableUploads

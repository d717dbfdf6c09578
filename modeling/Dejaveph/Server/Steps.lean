import Dejaveph.Server.System

namespace Dejaveph.Server
open Lib

variable {Hash β : Type}

/-- A handler state behind which no change of the index or the store is pending,
and which tells no result of the index. -/
def Handler.Quiet : Handler Hash → Prop
  | .putStore .. | .putIndex .. | .registerLock .. | .reconLock _ | .dedupLock _ | .gcMark
  | .gcDelete .. | .gcEvict .. | .reply (.putXorb (.ok _)) | .reply (.registerFile (.ok _))
  | .reply (.globalDedup (.ok _)) | .answered _ => False
  | _ => True

/-- The handler of a collection that still has xorbs to sweep. -/
def Handler.Sweeping : Handler Hash → Prop
  | .gcMark | .gcDelete .. | .gcEvict .. => True
  | _ => False

theorem scrubNext_quiet (checked quarantined : ℕ) (todo : List Hash) :
    (scrubNext checked quarantined todo).Quiet := by
  cases todo <;> trivial

section
variable {core : XetCore Hash}

/-- How the handler of a request begins. -/
inductive Started (core : XetCore Hash) : Request → Handler Hash → Prop
  | putXorb (ns hashHex : String) (body : Bytes) (hash : Hash) (info : XorbObjectInfoV1 Hash)
      (accepted : gate core hashHex body = .ok (hash, info)) :
      Started core (.putXorb ns hashHex body) (.putStore hash info (PutCall.start hash body))
  | registerFile (req : RegisterFile) (fh : Hash) (read : core.fromHex req.fileHash = some fh) :
      Started core (.registerFile req) (.registerLock fh req)
  | reconstruct (hex : String) (fh : Hash) (read : core.fromHex hex = some fh) :
      Started core (.reconstruct hex) (.reconLock fh)
  | globalDedup (ns hex : String) (ch : Hash) (read : core.fromHex hex = some ch) :
      Started core (.globalDedup ns hex) (.dedupLock ch)
  | gc : Started core .gc .gcMark
  | quiet (r : Request) (g : Handler Hash) (still : g.Quiet) : Started core r g

theorem start_started (core : XetCore Hash) (r : Request) : Started core r (start core r) := by
  cases r with
  | putXorb ns hashHex body =>
    simp only [start]
    split
    · exact .quiet _ _ trivial
    · rename_i hash info hg
      exact .putXorb _ _ _ _ _ hg
  | registerFile req =>
    simp only [start]
    split
    · exact .quiet _ _ trivial
    · rename_i fh hx
      exact .registerFile _ _ hx
  | reconstruct hex =>
    simp only [start]
    split
    · exact .quiet _ _ trivial
    · rename_i fh hx
      exact .reconstruct _ _ hx
  | globalDedup ns hex =>
    simp only [start]
    split
    · exact .quiet _ _ trivial
    · rename_i ch hx
      exact .globalDedup _ _ _ hx
  | gc => exact .gc
  | listEntries volume => exact .quiet _ _ trivial
  | scrub => exact .quiet _ _ trivial
  | xorbData hashHex range =>
    simp only [start]
    split <;> exact .quiet _ _ trivial

theorem start_putStore {r : Request} {x : Hash} {info : XorbObjectInfoV1 Hash}
    {call : PutCall Hash} (h : start core r = .putStore x info call) : call.key = x := by
  have hs := start_started core r
  rw [h] at hs
  cases hs with
  | putXorb => rfl
  | quiet _ _ still => exact absurd still id

theorem start_putIndex {r : Request} {x : Hash} {info : XorbObjectInfoV1 Hash} {len : ℕ} :
    start core r ≠ .putIndex x info len := by
  intro h
  have hs := start_started core r
  rw [h] at hs
  cases hs with
  | quiet _ _ still => exact absurd still id

theorem afterPut_putStore {x y : Hash} {info info' : XorbObjectInfoV1 Hash} {len : ℕ}
    {out : PutOut Hash} {call : PutCall Hash}
    (h : afterPut x info len out = .putStore y info' call) : out = .pending call ∧ x = y := by
  unfold afterPut at h
  split at h <;> cases h
  exact ⟨rfl, rfl⟩

theorem afterPut_putIndex {x y : Hash} {info info' : XorbObjectInfoV1 Hash} {len len' : ℕ}
    {out : PutOut Hash} (h : afterPut x info len out = .putIndex y info' len') :
    out = .done (.ok true) := by
  unfold afterPut at h
  split at h <;> cases h
  rfl

theorem gcNext_putStore {swept : ℕ} {todo : List Hash} {x : Hash} {info : XorbObjectInfoV1 Hash}
    {call : PutCall Hash} : gcNext swept todo ≠ .putStore x info call := by
  cases todo <;> simp [gcNext]

theorem gcNext_putIndex {swept : ℕ} {todo : List Hash} {x : Hash} {info : XorbObjectInfoV1 Hash}
    {len : ℕ} : gcNext swept todo ≠ .putIndex x info len := by
  cases todo <;> simp [gcNext]

theorem quiet_sweeping {g : Handler Hash} (hq : g.Quiet) : ¬ g.Sweeping := by
  intro h
  cases g <;> first | exact h | exact hq

theorem start_sweeping {r : Request} (h : (start core r).Sweeping) : r = .gc := by
  have hs := start_started core r
  generalize start core r = g at h hs
  cases hs with
  | gc => rfl
  | quiet _ _ still => exact absurd h (quiet_sweeping still)
  | _ => exact absurd h id

end

variable [DecidableEq Hash] (core : XetCore Hash) (store : BlobStore Hash β)

/-- What one step of one handler can do to the shared state. -/
inductive Effect (c : Choice Hash) (app : AppState Hash β) :
    Handler Hash → AppState Hash β → Handler Hash → Prop
  | stored (hash : Hash) (info : XorbObjectInfoV1 Hash) (call : PutCall Hash) :
      Effect c app (.putStore hash info call)
        { app with blob := (store.putStep call c.io app.blob).2 }
        (afterPut hash info call.bytes.length (store.putStep call c.io app.blob).1)
  | indexed (hash : Hash) (info : XorbObjectInfoV1 Hash) (len : ℕ) (index : Index Hash)
      (metrics : Metrics) (clean : app.poisoned = false)
      (done : indexXorb app.index hash info = some index) :
      Effect c app (.putIndex hash info len) { app with index, metrics }
        (.reply (.putXorb (.ok true)))
  | registered (fh : Hash) (req : RegisterFile) (result : ℕ) (index : Index Hash)
      (clean : app.poisoned = false)
      (done : registerFile core app.index fh req = .ok (result, index)) :
      Effect c app (.registerLock fh req) { app with index }
        (.reply (.registerFile (.ok result)))
  | asked (ch : Hash) (metrics : Metrics) :
      Effect c app (.dedupLock ch) { app with metrics }
        (.reply (.globalDedup (dedupAnswer core (app.index.chunkIndex.lookup ch))))
  | sent (a : Answer) : Effect c app (.reply a) app (.answered a)
  | marked (clean : app.poisoned = false) (all : c.order.Perm app.index.xorbs.keys) :
      Effect c app .gcMark app (gcNext 0 (c.order.filter (fun x => x ∉ referenced app.index)))
  | deleted (swept : ℕ) (x : Hash) (todo : List Hash) :
      Effect c app (.gcDelete swept x todo)
        { app with blob := (store.delete x c.io app.blob).2 } (.gcEvict swept x todo)
  | evicted (swept : ℕ) (x : Hash) (todo : List Hash) (clean : app.poisoned = false) :
      Effect c app (.gcEvict swept x todo) { app with index := evict app.index x }
        (gcNext (swept + 1) todo)
  | poisoned (h : Handler Hash)
      (panics : (∃ fh, h = .reconLock fh ∧ collect app.index fh = none) ∨
        ∃ hash info len, h = .putIndex hash info len ∧ indexXorb app.index hash info = none) :
      Effect c app h { app with poisoned := true } .panicked
  | quiet (h h' : Handler Hash) (metrics : Metrics) (live : h.Sweeping → app.poisoned = true)
      (still : h'.Quiet) : Effect c app h { app with metrics } h'

theorem quiet_same {c : Choice Hash} {app : AppState Hash β} (h h' : Handler Hash)
    (live : h.Sweeping → app.poisoned = true) (still : h'.Quiet) :
    Effect core store c app h app h' :=
  Effect.quiet h h' app.metrics live still

/-- Each step of a handler has one of the listed effects. -/
theorem advance_effect {c : Choice Hash} {app app' : AppState Hash β} {h h' : Handler Hash}
    (ha : advance core store c app h = some (app', h')) :
    Effect core store c app h app' h' := by
  cases h with
  | putStore hash info call =>
    simp only [advance, Option.some.injEq, Prod.mk.injEq] at ha
    obtain ⟨rfl, rfl⟩ := ha
    exact .stored hash info call
  | putIndex hash info len =>
    simp only [advance, lock, panicLocked, Option.some.injEq] at ha
    split at ha
    · cases ha
      exact quiet_same core store _ _ False.elim trivial
    · rename_i hp
      split at ha
      · rename_i hn
        cases ha
        exact .poisoned _ (.inr ⟨hash, info, len, rfl, hn⟩)
      · rename_i index hi
        cases ha
        exact .indexed hash info len index _ (by simpa using hp) hi
  | registerLock fh req =>
    simp only [advance, lock, Option.some.injEq] at ha
    split at ha
    · cases ha
      exact quiet_same core store _ _ False.elim trivial
    · rename_i hp
      split at ha
      · cases ha
        exact quiet_same core store _ _ False.elim trivial
      · rename_i result index hr
        cases ha
        exact .registered fh req result index (by simpa using hp) hr
  | reconLock fh =>
    simp only [advance, lock, panicLocked, Option.some.injEq] at ha
    split at ha
    · cases ha
      exact quiet_same core store _ _ False.elim trivial
    · split at ha
      · rename_i hn
        cases ha
        exact .poisoned _ (.inl ⟨fh, rfl, hn⟩)
      all_goals
        cases ha
        exact quiet_same core store _ _ False.elim trivial
  | reconPresign collected =>
    cases ha
    exact quiet_same core store _ _ False.elim trivial
  | dedupLock ch =>
    simp only [advance, lock, Option.some.injEq] at ha
    split at ha
    · cases ha
      exact quiet_same core store _ _ False.elim trivial
    · cases ha
      exact .asked ch _
  | entriesLock volume =>
    simp only [advance, lock, Option.some.injEq] at ha
    split at ha
    all_goals
      cases ha
      exact quiet_same core store _ _ False.elim trivial
  | dataHead hash hashHex range =>
    simp only [advance] at ha
    repeat' split at ha
    all_goals
      cases ha
      exact quiet_same core store _ _ False.elim trivial
  | dataRead hash hashHex a b len =>
    simp only [advance] at ha
    split at ha
    all_goals
      cases ha
      exact quiet_same core store _ _ False.elim trivial
  | gcMark =>
    simp only [advance, lock] at ha
    split at ha
    · rename_i hall
      simp only [Option.some.injEq] at ha
      split at ha
      · rename_i hp
        cases ha
        exact quiet_same core store _ _ (fun _ => hp) trivial
      · rename_i hp
        cases ha
        exact .marked (by simpa using hp) hall
    · cases ha
  | gcDelete swept x todo =>
    cases ha
    exact .deleted swept x todo
  | gcEvict swept x todo =>
    simp only [advance, lock, Option.some.injEq] at ha
    split at ha
    · rename_i hp
      cases ha
      exact quiet_same core store _ _ (fun _ => hp) trivial
    · rename_i hp
      cases ha
      exact .evicted swept x todo (by simpa using hp)
  | scrubLock =>
    simp only [advance, lock] at ha
    split at ha
    · simp only [Option.some.injEq] at ha
      split at ha
      · cases ha
        exact quiet_same core store _ _ False.elim trivial
      · cases ha
        exact quiet_same core store _ _ False.elim (scrubNext_quiet _ _ _)
    · cases ha
  | scrubHead checked quarantined x todo =>
    simp only [advance] at ha
    split at ha
    · cases ha
      exact quiet_same core store _ _ False.elim trivial
    · cases ha
      exact quiet_same core store _ _ False.elim (scrubNext_quiet _ _ _)
  | scrubRead checked quarantined x len todo =>
    simp only [advance] at ha
    repeat' split at ha
    · cases ha
      exact quiet_same core store _ _ False.elim trivial
    all_goals
      cases ha
      exact quiet_same core store _ _ False.elim (scrubNext_quiet _ _ _)
  | reply a =>
    cases ha
    exact .sent a
  | answered a => cases ha
  | panicked => cases ha

/-- One step of the server: a request arrives at an unused number, or one
handler advances. -/
theorem step_advance {s s' : State Hash β} {l : Label Hash} (h : step core store s l = some s') :
    (∃ i r, l = .request i r ∧ s.tasks i = none ∧
      s' = { s with tasks := Function.update s.tasks i (some ⟨r, start core r⟩) }) ∨
    (∃ i c t app h', l = .step i c ∧ s.tasks i = some t ∧
      advance core store c s.app t.handler = some (app, h') ∧
      s' = ⟨app, Function.update s.tasks i (some ⟨t.request, h'⟩)⟩) := by
  cases l with
  | request i r =>
    simp only [step] at h
    split at h
    · cases h
    · rename_i hn
      cases h
      exact .inl ⟨i, r, rfl, hn, rfl⟩
  | step i c =>
    simp only [step] at h
    split at h
    · cases h
    · rename_i t ht
      obtain ⟨⟨app, h'⟩, ha, rfl⟩ := Option.map_eq_some_iff.mp h
      exact .inr ⟨i, c, t, app, h', rfl, ht, ha, rfl⟩

theorem step_cases {s s' : State Hash β} {l : Label Hash} (h : step core store s l = some s') :
    (∃ i r, l = .request i r ∧ s.tasks i = none ∧
      s' = { s with tasks := Function.update s.tasks i (some ⟨r, start core r⟩) }) ∨
    (∃ i c t app h', l = .step i c ∧ s.tasks i = some t ∧
      Effect core store c s.app t.handler app h' ∧
      s' = ⟨app, Function.update s.tasks i (some ⟨t.request, h'⟩)⟩) := by
  obtain h | ⟨i, c, t, app, h', hl, ht, ha, hs⟩ := step_advance core store h
  · exact .inl h
  · exact .inr ⟨i, c, t, app, h', hl, ht, advance_effect core store ha, hs⟩

theorem step_request {s s' : State Hash β} {l : Label Hash} (h : step core store s l = some s')
    {n : ℕ} {t : Exchange Hash} (ht : s.tasks n = some t) :
    ∃ t', s'.tasks n = some t' ∧ t'.request = t.request := by
  obtain ⟨i, r, _, hn, rfl⟩ | ⟨i, c, u, app, h', _, hu, _, rfl⟩ := step_advance core store h
  · have hne : n ≠ i := by
      rintro rfl
      rw [hn] at ht
      cases ht
    exact ⟨t, by simp [hne, ht], rfl⟩
  · by_cases hne : n = i
    · subst hne
      obtain rfl := Option.some.inj (ht.symm.trans hu)
      exact ⟨⟨t.request, h'⟩, by simp, rfl⟩
    · exact ⟨t, by simp [hne, ht], rfl⟩

def State.handler (s : State Hash β) (i : ℕ) : Option (Handler Hash) :=
  (s.tasks i).map Exchange.handler

omit [DecidableEq Hash] in
theorem handler_eq_some {s : State Hash β} {i : ℕ} {h : Handler Hash} :
    s.handler i = some h ↔ ∃ t, s.tasks i = some t ∧ t.handler = h :=
  Option.map_eq_some_iff

theorem step_handlers {s s' : State Hash β} {l : Label Hash} (h : step core store s l = some s') :
    (∃ i r, l = .request i r ∧ s.handler i = none ∧ s'.app = s.app ∧
      ∀ j, s'.handler j = if j = i then some (start core r) else s.handler j) ∨
    (∃ i c g g', l = .step i c ∧ s.handler i = some g ∧ Effect core store c s.app g s'.app g' ∧
      ∀ j, s'.handler j = if j = i then some g' else s.handler j) := by
  obtain ⟨i, r, rfl, hn, rfl⟩ | ⟨i, c, t, app, g', rfl, ht, heff, rfl⟩ := step_cases core store h
  · refine .inl ⟨i, r, rfl, by simp [State.handler, hn], rfl, ?_⟩
    intro j
    by_cases hj : j = i <;> simp [State.handler, hj]
  · refine .inr ⟨i, c, t.handler, g', rfl, by simp [State.handler, ht], heff, ?_⟩
    intro j
    by_cases hj : j = i <;> simp [State.handler, hj]

variable {core store}

theorem effect_sweeping {c : Choice Hash} {app app' : AppState Hash β} {g g' : Handler Hash}
    (heff : Effect core store c app g app' g') (h : g'.Sweeping) : g.Sweeping := by
  cases heff with
  | stored hash info call =>
    generalize (store.putStep call c.io app.blob).1 = out at h
    unfold afterPut at h
    split at h <;> exact absurd h id
  | marked | deleted | evicted => trivial
  | quiet _ _ metrics live still => exact absurd h (quiet_sweeping still)
  | _ => exact absurd h id

/-- A collection has deleted the blob of `x` and is about to evict its entry. -/
def Evicting (s : State Hash β) (x : Hash) : Prop :=
  ∃ i swept todo, s.handler i = some (.gcEvict swept x todo)

omit [DecidableEq Hash] in
theorem evicting_step {s s' : State Hash β} {i : ℕ} {g' : Handler Hash}
    (hh : ∀ j, s'.handler j = if j = i then some g' else s.handler j) {x : Hash}
    (hne : ∀ swept todo, s.handler i ≠ some (.gcEvict swept x todo)) (h : Evicting s x) :
    Evicting s' x := by
  obtain ⟨j, swept, todo, hj⟩ := h
  refine ⟨j, swept, todo, ?_⟩
  have hji : j ≠ i := by
    rintro rfl
    exact hne swept todo hj
  rw [hh, if_neg hji, hj]

/-- An upload in flight stores under its xorb's hash. -/
def Keyed (s : State Hash β) : Prop :=
  ∀ i x info call, s.handler i = some (.putStore x info call) → call.key = x

theorem effect_keyed {c : Choice Hash} {app app' : AppState Hash β} {g g' : Handler Hash}
    (hkey : ∀ call call' io b, (store.putStep call io b).1 = .pending call' → call'.key = call.key)
    (heff : Effect core store c app g app' g')
    (hg : ∀ x info call, g = .putStore x info call → call.key = x) :
    ∀ x info call, g' = .putStore x info call → call.key = x := by
  intro x info call h
  cases heff with
  | stored y info' call' =>
    obtain ⟨hp, rfl⟩ := afterPut_putStore h
    exact (hkey _ _ _ _ hp).trans (hg y info' call' rfl)
  | marked | evicted => exact absurd h gcNext_putStore
  | quiet _ _ metrics live still =>
    subst h
    exact absurd still id
  | _ => cases h

theorem step_keyed {s s' : State Hash β} {l : Label Hash}
    (hkey : ∀ call call' io b, (store.putStep call io b).1 = .pending call' → call'.key = call.key)
    (hi : Keyed s) (h : step core store s l = some s') : Keyed s' := by
  intro j x info call hj
  obtain ⟨i, r, rfl, _, _, hh⟩ | ⟨i, c, g, g', rfl, hg, heff, hh⟩ := step_handlers core store h
  · rw [hh] at hj
    split at hj
    · exact start_putStore (Option.some.inj hj)
    · exact hi j x info call hj
  · rw [hh] at hj
    split at hj
    · refine effect_keyed hkey heff ?_ x info call (Option.some.inj hj)
      rintro y info' call' rfl
      exact hi i y info' call' hg
    · exact hi j x info call hj

theorem sweeping_gc {blob : β} {labels : List (Label Hash)} {s : State Hash β}
    (run : Run.exec (step core store) (boot blob) labels = some s) :
    ∀ i t, s.tasks i = some t → t.handler.Sweeping → t.request = .gc := by
  refine Run.exec_preserves (I := fun s => ∀ i t, s.tasks i = some t → t.handler.Sweeping →
    t.request = .gc) ?_ (fun _ _ h => by cases h) run
  intro s l s' hi h
  obtain ⟨i, r, rfl, _, rfl⟩ | ⟨i, c, t, app, g', rfl, ht, heff, rfl⟩ := step_cases core store h
  · exact Run.update_forall hi start_sweeping
  · exact Run.update_forall hi (fun hg => hi i t ht (effect_sweeping heff hg))

def Below (n : ℕ) (s : State Hash β) : Prop := ∀ i, n ≤ i → s.tasks i = none

def Label.below (n : ℕ) : Label Hash → Bool
  | .request i _ => i < n
  | .step .. => true

theorem step_below {s s' : State Hash β} {l : Label Hash} {n : ℕ} (hi : Below n s)
    (hl : l.below n = true) (h : step core store s l = some s') : Below n s' := by
  obtain ⟨i, r, rfl, _, rfl⟩ | ⟨i, c, t, app, g', rfl, ht, _, rfl⟩ := step_cases core store h
  · have hlt : i < n := by simpa [Label.below] using hl
    exact Run.Below.update hi hlt
  · exact Run.Below.update hi (Run.Below.lt hi ht)

theorem run_below {blob : β} {s : State Hash β} {labels : List (Label Hash)} {n : ℕ}
    (run : Run.exec (step core store) (boot blob) labels = some s)
    (hn : labels.all (Label.below n) = true) : Below n s :=
  Run.exec_invariant (fun _ _ _ hi hl h => step_below hi hl h) (fun _ _ => rfl)
    (Run.guarded_of_forall (fun l hl _ => List.all_eq_true.mp hn l hl) _) run

def State.all (n : ℕ) (s : State Hash β) (p : Exchange Hash → Bool) : Bool :=
  (List.range n).all (fun i => (s.tasks i).all p)

omit [DecidableEq Hash] in
theorem all_tasks {s : State Hash β} {n : ℕ} {p : Exchange Hash → Bool} (hi : Below n s)
    (h : s.all n p = true) {i : ℕ} {t : Exchange Hash} (ht : s.tasks i = some t) : p t = true :=
  Run.Below.all hi h ht

theorem guarded_of_check (n : ℕ) (test : State Hash β → Label Hash → Bool)
    {cond : State Hash β → Label Hash → Prop} {blob : β} {labels : List (Label Hash)}
    (htest : ∀ s l, Below n s → test s l = true → cond s l)
    (h : Run.check (step core store) (fun s l => l.below n && test s l) (boot blob) labels = true) :
    Run.Guarded (step core store) cond (boot blob) labels :=
  Run.guarded_of_check (I := Below n)
    (fun s l hs ht => htest s l hs (Bool.and_eq_true_iff.mp ht).2)
    (fun _ _ _ hs ht h => step_below hs (Bool.and_eq_true_iff.mp ht).1 h) (fun _ _ => rfl) h

end Dejaveph.Server

import Mathlib.Data.Nat.Notation
import Mathlib.Logic.Function.Basic

namespace Dejaveph.Lib.Run
variable {σ α : Type}

/-- The state after taking the labels in order, when each is enabled. -/
def exec (step : σ → α → Option σ) : σ → List α → Option σ
  | s, [] => some s
  | s, a :: as => (step s a).bind (fun t => exec step t as)

/-- Each label of a run meets the condition in the state where it is taken. -/
def Guarded (step : σ → α → Option σ) (C : σ → α → Prop) : σ → List α → Prop
  | _, [] => True
  | s, a :: as => C s a ∧ ∀ t, step s a = some t → Guarded step C t as

@[simp] theorem exec_nil (step : σ → α → Option σ) (s : σ) : exec step s [] = some s := rfl

theorem exec_cons {step : σ → α → Option σ} {s u : σ} {a : α} {as : List α} :
    exec step s (a :: as) = some u ↔ ∃ t, step s a = some t ∧ exec step t as = some u := by
  simp [exec, Option.bind_eq_some_iff]

theorem exec_append {step : σ → α → Option σ} {s u : σ} {as bs : List α} :
    exec step s (as ++ bs) = some u ↔
      ∃ t, exec step s as = some t ∧ exec step t bs = some u := by
  induction as generalizing s with
  | nil => simp
  | cons a as ih =>
    simp only [List.cons_append, exec_cons, ih]
    constructor
    · rintro ⟨t, ha, v, hv, hu⟩
      exact ⟨v, ⟨t, ha, hv⟩, hu⟩
    · rintro ⟨v, ⟨t, ha, hv⟩, hu⟩
      exact ⟨t, ha, v, hv, hu⟩

/-- What every guarded step preserves holds after a whole guarded run. -/
theorem exec_invariant {step : σ → α → Option σ} {C : σ → α → Prop} {I : σ → Prop}
    (hstep : ∀ s a t, I s → C s a → step s a = some t → I t)
    {s t : σ} {as : List α} (hs : I s) (hg : Guarded step C s as)
    (h : exec step s as = some t) : I t := by
  induction as generalizing s with
  | nil => cases h; exact hs
  | cons a as ih =>
    obtain ⟨u, ha, hu⟩ := exec_cons.mp h
    exact ih (hstep s a u hs hg.1 ha) (hg.2 u ha) hu

theorem guarded_of_forall {step : σ → α → Option σ} {C : σ → α → Prop} {as : List α}
    (h : ∀ a ∈ as, ∀ s, C s a) (s : σ) : Guarded step C s as := by
  induction as generalizing s with
  | nil => trivial
  | cons a as ih => exact ⟨h a (by simp) s, fun t _ => ih (fun b hb => h b (by simp [hb])) t⟩

theorem guarded_labels {step : σ → α → Option σ} {ι : Type} {f : ι → α} {s t : σ} {as : List α}
    (hg : Guarded step (fun _ a => ∃ x, a = f x) s as) (h : exec step s as = some t) :
    ∃ xs : List ι, as = xs.map f := by
  induction as generalizing s with
  | nil => exact ⟨[], rfl⟩
  | cons a as ih =>
    obtain ⟨u, ha, hu⟩ := exec_cons.mp h
    obtain ⟨x, rfl⟩ := hg.1
    obtain ⟨xs, rfl⟩ := ih (hg.2 u ha) hu
    exact ⟨x :: xs, rfl⟩

theorem exec_preserves {step : σ → α → Option σ} {I : σ → Prop}
    (hstep : ∀ s a t, I s → step s a = some t → I t)
    {s t : σ} {as : List α} (hs : I s) (h : exec step s as = some t) : I t :=
  exec_invariant (C := fun _ _ => True) (fun s a t hi _ ha => hstep s a t hi ha)
    hs (guarded_of_forall (fun _ _ _ => trivial) s) h

theorem guarded_and {step : σ → α → Option σ} {c d : σ → α → Prop} {s : σ} {as : List α}
    (hc : Guarded step c s as) (hd : Guarded step d s as) :
    Guarded step (fun s a => c s a ∧ d s a) s as := by
  induction as generalizing s with
  | nil => trivial
  | cons a as ih => exact ⟨⟨hc.1, hd.1⟩, fun t ht => ih (hc.2 t ht) (hd.2 t ht)⟩

theorem guarded_append {step : σ → α → Option σ} {c : σ → α → Prop} {s : σ}
    {as bs : List α} : Guarded step c s (as ++ bs) ↔
      Guarded step c s as ∧ ∀ t, exec step s as = some t → Guarded step c t bs := by
  induction as generalizing s with
  | nil => simp [Guarded]
  | cons a as ih =>
    simp only [List.cons_append, Guarded, ih]
    constructor
    · rintro ⟨ha, h⟩
      refine ⟨⟨ha, fun t ht => (h t ht).1⟩, ?_⟩
      intro u hu
      obtain ⟨t, ht, hu⟩ := exec_cons.mp hu
      exact (h t ht).2 u hu
    · rintro ⟨⟨ha, h⟩, hb⟩
      exact ⟨ha, fun t ht => ⟨h t ht, fun u hu => hb u (exec_cons.mpr ⟨t, ht, hu⟩)⟩⟩

/-- A run that is not guarded has a first label that fails the condition. -/
theorem exists_unguarded {step : σ → α → Option σ} {C : σ → α → Prop} {s t : σ} {as : List α}
    (hg : ¬ Guarded step C s as) (h : exec step s as = some t) :
    ∃ before a after u v, as = before ++ a :: after ∧ exec step s before = some u ∧
      Guarded step C s before ∧ ¬ C u a ∧ step u a = some v ∧
      exec step v after = some t := by
  induction as generalizing s with
  | nil => exact absurd trivial hg
  | cons a as ih =>
    obtain ⟨u, ha, hu⟩ := exec_cons.mp h
    by_cases hc : C s a
    · have htail : ¬ Guarded step C u as := by
        intro hgu
        refine hg ⟨hc, fun w hw => ?_⟩
        obtain rfl := Option.some.inj (ha.symm.trans hw)
        exact hgu
      obtain ⟨before, b, after, v, w, rfl, hv, hgv, hb, hw, hrest⟩ := ih htail hu
      refine ⟨a :: before, b, after, v, w, rfl, exec_cons.mpr ⟨u, ha, hv⟩, ⟨hc, ?_⟩, hb, hw,
        hrest⟩
      intro x hx
      obtain rfl := Option.some.inj (ha.symm.trans hx)
      exact hgv
    · exact ⟨[], a, as, s, u, rfl, rfl, trivial, hc, ha, hu⟩

/-- A run whose every step is a step of another machine, or none, is a run of
that machine. -/
theorem exec_projects {σ' α' : Type} {step : σ → α → Option σ} {step' : σ' → α' → Option σ'}
    {f : σ → σ'} {C : α → Prop} {D : α' → Prop}
    (hstep : ∀ s a t, C a → step s a = some t →
      f t = f s ∨ ∃ b, D b ∧ step' (f s) b = some (f t))
    {s t : σ} {as : List α} (hC : ∀ a ∈ as, C a) (h : exec step s as = some t) :
    ∃ bs, (∀ b ∈ bs, D b) ∧ exec step' (f s) bs = some (f t) := by
  induction as generalizing s with
  | nil =>
    cases h
    exact ⟨[], by simp, rfl⟩
  | cons a as ih =>
    obtain ⟨u, ha, hu⟩ := exec_cons.mp h
    obtain ⟨bs, hD, hbs⟩ := ih (fun b hb => hC b (by simp [hb])) hu
    rcases hstep s a u (hC a (by simp)) ha with he | ⟨b, hb, hs⟩
    · exact ⟨bs, hD, he ▸ hbs⟩
    · exact ⟨b :: bs, List.forall_mem_cons.mpr ⟨hb, hD⟩, exec_cons.mpr ⟨f u, hs, hbs⟩⟩

theorem guarded_rest {step : σ → α → Option σ} {C : σ → α → Prop} {s t : σ} {as : List α}
    (hg : Guarded step C s as) (h : exec step s as = some t) :
    Guarded step (fun u a => ∃ rest, Guarded step C u (a :: rest) ∧
      exec step u (a :: rest) = some t) s as := by
  induction as generalizing s with
  | nil => trivial
  | cons a as ih =>
    refine ⟨⟨as, hg, h⟩, fun u hu => ?_⟩
    obtain ⟨v, hv, hrest⟩ := exec_cons.mp h
    obtain rfl := Option.some.inj (hu.symm.trans hv)
    exact ih (hg.2 u hu) hrest

/-- Where each step of a run is matched by one step of another machine or by none, the
states staying related, the steps that match are a run of the other machine, and whenever
the one has come to a state the other has come to a related one. -/
theorem exec_simulates {σ' α' : Type} {step : σ → α → Option σ} {step' : σ' → α' → Option σ'}
    {R : σ → σ' → Prop} {C : σ → α → Prop}
    (hstep : ∀ s s' a t, R s s' → C s a → step s a = some t →
      R t s' ∨ ∃ b t', step' s' b = some t' ∧ R t t')
    {s t : σ} {s' : σ'} {as : List α} (hR : R s s') (hg : Guarded step C s as)
    (h : exec step s as = some t) :
    ∃ bs : List (Option α'), bs.length = as.length ∧
      ∀ before after u, as = before ++ after → exec step s before = some u →
        ∃ u', exec step' s' (bs.take before.length).reduceOption = some u' ∧ R u u' := by
  induction as generalizing s s' with
  | nil =>
    refine ⟨[], rfl, fun before after u hsplit hu => ?_⟩
    obtain ⟨rfl, _⟩ := List.nil_eq_append_iff.mp hsplit
    cases hu
    exact ⟨s', rfl, hR⟩
  | cons a as ih =>
    obtain ⟨v, ha, hv⟩ := exec_cons.mp h
    obtain ⟨b, v', hb, hR'⟩ : ∃ (b : Option α') (v' : σ'),
        exec step' s' b.toList = some v' ∧ R v v' := by
      rcases hstep s s' a v hR hg.1 ha with hR' | ⟨b, v', hb, hR'⟩
      · exact ⟨none, s', rfl, hR'⟩
      · exact ⟨some b, v', exec_cons.mpr ⟨v', hb, rfl⟩, hR'⟩
    obtain ⟨bs, hlen, hmatch⟩ := ih hR' (hg.2 v ha) hv
    refine ⟨b :: bs, by rw [List.length_cons, List.length_cons, hlen], ?_⟩
    intro before after u hsplit hu
    cases before with
    | nil =>
      cases hu
      exact ⟨s', rfl, hR⟩
    | cons c before =>
      obtain ⟨rfl, htail⟩ := List.cons.inj hsplit
      obtain ⟨w, hw, hu⟩ := exec_cons.mp hu
      obtain rfl := Option.some.inj (ha.symm.trans hw)
      obtain ⟨u', hrun, hRu⟩ := hmatch before after u htail hu
      refine ⟨u', ?_, hRu⟩
      have htake : ((b :: bs).take (a :: before).length).reduceOption =
          b.toList ++ (bs.take before.length).reduceOption := by
        cases b <;> rfl
      rw [htake]
      exact exec_append.mpr ⟨v', hb, hrun⟩

/-- Where some step always lowers a rank, a run comes to its end. -/
theorem exec_reaches {step : σ → α → Option σ} {C : σ → α → Prop} {I done : σ → Prop}
    (rank : σ → ℕ) (hstep : ∀ s, I s → ¬ done s →
      ∃ a t, C s a ∧ step s a = some t ∧ I t ∧ rank t < rank s)
    {s : σ} (hs : I s) :
    ∃ as t, Guarded step C s as ∧ exec step s as = some t ∧ I t ∧ done t := by
  generalize hn : rank s = n
  induction n using Nat.strongRecOn generalizing s with
  | ind n ih =>
    by_cases hd : done s
    · exact ⟨[], s, trivial, rfl, hs, hd⟩
    · obtain ⟨a, t, hc, ha, ht, hlt⟩ := hstep s hs hd
      obtain ⟨as, u, hg, hu, hi, hdone⟩ := ih _ (hn ▸ hlt) ht rfl
      refine ⟨a :: as, u, ⟨hc, ?_⟩, exec_cons.mpr ⟨t, ha, hu⟩, hi, hdone⟩
      intro t' ht'
      obtain rfl := Option.some.inj (ha.symm.trans ht')
      exact hg

/-- Where every step lowers a rank and no choice of a label matters, all runs end
after the same number of steps, in the same state. -/
theorem exec_ends {step : σ → α → Option σ} {I done : σ → Prop} (rank : σ → ℕ)
    (hstep : ∀ s, I s → ¬ done s → ∃ t, (∀ a, step s a = some t) ∧ I t ∧ rank t < rank s)
    {s : σ} (hs : I s) :
    ∃ k t, (∀ as : List α, as.length = k → exec step s as = some t) ∧ I t ∧ done t := by
  generalize hn : rank s = n
  induction n using Nat.strongRecOn generalizing s with
  | ind n ih =>
    by_cases hd : done s
    · refine ⟨0, s, ?_, hs, hd⟩
      intro as hlen
      rw [List.length_eq_zero_iff.mp hlen, exec_nil]
    · obtain ⟨t, ht, hi, hlt⟩ := hstep s hs hd
      obtain ⟨k, u, hu, hiu, hdone⟩ := ih _ (hn ▸ hlt) hi rfl
      refine ⟨k + 1, u, ?_, hiu, hdone⟩
      intro as hlen
      cases as with
      | nil => cases hlen
      | cons a as => exact exec_cons.mpr ⟨t, ht a, hu as (by simpa using hlen)⟩

/-- What is observed of the steps of a run, in order. -/
def events {ε : Type} (step : σ → α → Option σ) (event : σ → α → σ → Option ε) :
    σ → List α → List ε
  | _, [] => []
  | s, a :: as =>
    match step s a with
    | none => []
    | some t => (event s a t).toList ++ events step event t as

theorem events_append {ε : Type} {step : σ → α → Option σ} {event : σ → α → σ → Option ε}
    {s t : σ} {as bs : List α} (h : exec step s as = some t) :
    events step event s (as ++ bs) = events step event s as ++ events step event t bs := by
  induction as generalizing s with
  | nil =>
    cases h
    rfl
  | cons a as ih =>
    obtain ⟨u, ha, hu⟩ := exec_cons.mp h
    simp only [List.cons_append, events, ha, ih hu, List.append_assoc]

/-- What every guarded step preserves of the state and the events so far holds
after a guarded run. -/
theorem exec_events_guarded {ε : Type} {step : σ → α → Option σ}
    {event : σ → α → σ → Option ε} {C : σ → α → Prop} {I : σ → List ε → Prop}
    (hstep : ∀ s log a t, I s log → C s a → step s a = some t →
      I t (log ++ (event s a t).toList))
    {s t : σ} {log : List ε} {as : List α} (hs : I s log) (hg : Guarded step C s as)
    (h : exec step s as = some t) : I t (log ++ events step event s as) := by
  induction as generalizing s log with
  | nil =>
    cases h
    rw [events, List.append_nil]
    exact hs
  | cons a as ih =>
    obtain ⟨u, ha, hu⟩ := exec_cons.mp h
    rw [events, ha, ← List.append_assoc]
    exact ih (hstep s log a u hs hg.1 ha) (hg.2 u ha) hu

theorem exec_events {ε : Type} {step : σ → α → Option σ} {event : σ → α → σ → Option ε}
    {I : σ → List ε → Prop}
    (hstep : ∀ s log a t, I s log → step s a = some t → I t (log ++ (event s a t).toList))
    {s t : σ} {log : List ε} {as : List α} (hs : I s log) (h : exec step s as = some t) :
    I t (log ++ events step event s as) :=
  exec_events_guarded (C := fun _ _ => True) (fun s log a t hi _ ha => hstep s log a t hi ha)
    hs (guarded_of_forall (fun _ _ _ => trivial) s) h

/-- Every label of a run passes a test in the state where it is taken. -/
def check (step : σ → α → Option σ) (test : σ → α → Bool) : σ → List α → Bool
  | _, [] => true
  | s, a :: as => test s a && (step s a).all (fun t => check step test t as)

/-- A test that implies the condition, on states with an invariant, finds
guarded runs. -/
theorem guarded_of_check {step : σ → α → Option σ} {test : σ → α → Bool} {C : σ → α → Prop}
    {I : σ → Prop} (htest : ∀ s a, I s → test s a = true → C s a)
    (hstep : ∀ s a t, I s → test s a = true → step s a = some t → I t)
    {s : σ} {as : List α} (hs : I s) (h : check step test s as = true) :
    Guarded step C s as := by
  induction as generalizing s with
  | nil => trivial
  | cons a as ih =>
    obtain ⟨ha, has⟩ := Bool.and_eq_true_iff.mp h
    refine ⟨htest s a hs ha, ?_⟩
    intro t ht
    rw [ht] at has
    exact ih (hstep s a t hs ha ht) has

theorem guarded_of_test {step : σ → α → Option σ} {test : σ → α → Bool} {C : σ → α → Prop}
    (htest : ∀ s a, test s a = true → C s a) {s : σ} {as : List α}
    (h : check step test s as = true) : Guarded step C s as :=
  guarded_of_check (I := fun _ => True) (fun s a _ => htest s a) (fun _ _ _ _ _ _ => trivial)
    trivial h

section
variable {ρ τ : Type}

/-- The state after a run of a machine that replies, with its replies. -/
def trace (step : σ → α → Option (σ × ρ)) : σ → List α → Option (σ × List ρ)
  | s, [] => some (s, [])
  | s, a :: as => (step s a).bind (fun p => (trace step p.1 as).map (fun q => (q.1, p.2 :: q.2)))

/-- The runs of a specification that relates replies. -/
inductive Runs (spec : τ → α → ρ → τ → Prop) : τ → List α → List ρ → τ → Prop
  | nil (m : τ) : Runs spec m [] [] m
  | cons {m m' m'' : τ} {a : α} {as : List α} {r : ρ} {rs : List ρ} (head : spec m a r m')
      (tail : Runs spec m' as rs m'') : Runs spec m (a :: as) (r :: rs) m''

/-- A machine whose every valid step is one of the specification refines it: its
valid runs do not get stuck, and the specification has the same replies. -/
theorem trace_refines {step : σ → α → Option (σ × ρ)} {spec : τ → α → ρ → τ → Prop}
    {rel : σ → τ → Prop} {valid : σ → α → Prop}
    (hstep : ∀ s m a, rel s m → valid s a →
      ∃ s' r m', step s a = some (s', r) ∧ spec m a r m' ∧ rel s' m')
    {s : σ} {m : τ} {as : List α} (hr : rel s m)
    (hv : Guarded (fun s a => (step s a).map Prod.fst) valid s as) :
    ∃ s' rs m', trace step s as = some (s', rs) ∧ Runs spec m as rs m' ∧ rel s' m' := by
  induction as generalizing s m with
  | nil => exact ⟨s, [], m, rfl, .nil m, hr⟩
  | cons a as ih =>
    obtain ⟨t, r, n, hs, hspec, hrel⟩ := hstep s m a hr hv.1
    obtain ⟨s', rs, m', htrace, hruns, hrel'⟩ := ih hrel (hv.2 t (by simp [hs]))
    exact ⟨s', r :: rs, m', by simp [trace, hs, htrace], .cons hspec hruns, hrel'⟩

/-- A machine on which every valid step is possible and keeps the invariant does not
get stuck in a valid run. -/
theorem trace_total {step : σ → α → Option (σ × ρ)} {I : σ → Prop} {valid : σ → α → Prop}
    (hstep : ∀ s a, I s → valid s a → ∃ s' r, step s a = some (s', r) ∧ I s') {s : σ}
    {as : List α} (hs : I s) (hv : Guarded (fun s a => (step s a).map Prod.fst) valid s as) :
    ∃ s' rs, trace step s as = some (s', rs) ∧ I s' := by
  induction as generalizing s with
  | nil => exact ⟨s, [], rfl, hs⟩
  | cons a as ih =>
    obtain ⟨t, r, ht, hi⟩ := hstep s a hs hv.1
    obtain ⟨s', rs, htrace, hi'⟩ := ih hi (hv.2 t (by simp [ht]))
    exact ⟨s', r :: rs, by simp [trace, ht, htrace], hi'⟩

/-- Where every observed step of a machine is one of the specification and the
others leave the relation alone, what is observed of a guarded run is a run of
the specification: each operation takes effect where it is observed. -/
theorem events_runs {ε δ : Type} {step : σ → α → Option σ} {event : σ → α → σ → Option ε}
    {spec : τ → δ → ρ → τ → Prop} {call : ε → δ} {reply : ε → ρ} {rel : σ → τ → Prop}
    {C : σ → α → Prop} (hstep : ∀ s a t m, rel s m → C s a → step s a = some t →
      (event s a t = none ∧ rel t m) ∨
        ∃ e m', event s a t = some e ∧ spec m (call e) (reply e) m' ∧ rel t m')
    {s t : σ} {m : τ} {as : List α} (hr : rel s m) (hg : Guarded step C s as)
    (h : exec step s as = some t) :
    ∃ m', Runs spec m ((events step event s as).map call) ((events step event s as).map reply) m' ∧
      rel t m' := by
  induction as generalizing s m with
  | nil =>
    cases h
    exact ⟨m, .nil m, hr⟩
  | cons a as ih =>
    obtain ⟨u, ha, hu⟩ := exec_cons.mp h
    rcases hstep s a u m hr hg.1 ha with ⟨he, hr⟩ | ⟨e, n, he, hspec, hr⟩
    · obtain ⟨m', hruns, hr'⟩ := ih hr (hg.2 u ha) hu
      exact ⟨m', by simpa [events, ha, he] using hruns, hr'⟩
    · obtain ⟨m', hruns, hr'⟩ := ih hr (hg.2 u ha) hu
      exact ⟨m', by simpa [events, ha, he] using Runs.cons hspec hruns, hr'⟩

theorem Runs.split {spec : τ → α → ρ → τ → Prop} {m m'' : τ} {as bs : List α} {rs : List ρ}
    (h : Runs spec m (as ++ bs) rs m'') : ∃ m', Runs spec m as (rs.take as.length) m' ∧
      Runs spec m' bs (rs.drop as.length) m'' := by
  induction as generalizing m rs with
  | nil => exact ⟨m, .nil m, h⟩
  | cons a as ih =>
    cases h with
    | cons head tail =>
      obtain ⟨m', hm, hrest⟩ := ih tail
      exact ⟨m', .cons head hm, hrest⟩

theorem Runs.invariant {spec : τ → α → ρ → τ → Prop} {I : τ → Prop}
    (hstep : ∀ m a r m', I m → spec m a r m' → I m') {m m' : τ} {as : List α} {rs : List ρ}
    (hm : I m) (h : Runs spec m as rs m') : I m' := by
  induction h with
  | nil => exact hm
  | cons head _ ih => exact ih (hstep _ _ _ _ hm head)

theorem Runs.mono {spec spec' : τ → α → ρ → τ → Prop}
    (hspec : ∀ m a r m', spec m a r m' → spec' m a r m') {m m' : τ} {as : List α} {rs : List ρ}
    (h : Runs spec m as rs m') : Runs spec' m as rs m' := by
  induction h with
  | nil m => exact .nil m
  | cons head _ ih => exact .cons (hspec _ _ _ _ head) ih

theorem trace_runs {step : σ → α → Option (σ × ρ)} {spec : σ → α → ρ → σ → Prop}
    {C : σ → α → Prop} (hstep : ∀ s a s' r, C s a → step s a = some (s', r) → spec s a r s')
    {s s' : σ} {as : List α} {rs : List ρ}
    (hg : Guarded (fun s a => (step s a).map Prod.fst) C s as)
    (h : trace step s as = some (s', rs)) : Runs spec s as rs s' := by
  induction as generalizing s rs with
  | nil =>
    cases h
    exact .nil _
  | cons a as ih =>
    obtain ⟨⟨t, r⟩, ht, h⟩ := Option.bind_eq_some_iff.mp h
    obtain ⟨⟨u, rs'⟩, hu, he⟩ := Option.map_eq_some_iff.mp h
    cases he
    exact .cons (hstep s a t r hg.1 ht) (ih (hg.2 t (by simp [ht])) hu)

theorem trace_fold {β : Type} {step : σ → α → Option (σ × ρ)} {f : β → α × ρ → β} {g : σ → β}
    (hstep : ∀ s a s' r, step s a = some (s', r) → g s' = f (g s) (a, r))
    {s s' : σ} {as : List α} {rs : List ρ} (h : trace step s as = some (s', rs)) :
    g s' = (as.zip rs).foldl f (g s) := by
  induction as generalizing s rs with
  | nil =>
    cases h
    rfl
  | cons a as ih =>
    obtain ⟨⟨t, r⟩, ht, h⟩ := Option.bind_eq_some_iff.mp h
    obtain ⟨⟨u, rs'⟩, hu, he⟩ := Option.map_eq_some_iff.mp h
    cases he
    rw [List.zip_cons_cons, List.foldl_cons, ← hstep s a t r ht]
    exact ih hu

end

/-- Numbered processes, of which finitely many have started. -/
abbrev Pool (τ : Type) := ℕ → Option τ

theorem update_eq_some {τ : Type} {p : Pool τ} {i j : ℕ} {t u : τ} :
    Function.update p i (some t) j = some u ↔ (j = i ∧ u = t) ∨ (j ≠ i ∧ p j = some u) := by
  by_cases hj : j = i
  · subst hj
    simp [eq_comm]
  · simp [hj]

theorem update_forall {τ : Type} {p : Pool τ} {i : ℕ} {t : τ} {P : τ → Prop}
    (hp : ∀ j u, p j = some u → P u) (ht : P t) :
    ∀ j u, Function.update p i (some t) j = some u → P u := by
  intro j u hu
  rcases update_eq_some.mp hu with ⟨_, rfl⟩ | ⟨_, hu⟩
  · exact ht
  · exact hp j u hu

theorem update_rel {τ τ' : Type} {P : ℕ → τ → τ' → Prop} {p : Pool τ} {q : Pool τ'} {i : ℕ}
    {t : τ} {t' : τ'} (hp : ∀ j, Option.Rel (P j) (p j) (q j)) (ht : P i t t') :
    ∀ j, Option.Rel (P j) (Function.update p i (some t) j) (Function.update q i (some t') j) := by
  intro j
  by_cases hj : j = i
  · subst hj
    rw [Function.update_self, Function.update_self]
    exact .some ht
  · rw [Function.update_of_ne hj, Function.update_of_ne hj]
    exact hp j

/-- Every process that has started has a number below `n`. -/
def Below {τ : Type} (n : ℕ) (p : Pool τ) : Prop := ∀ i, n ≤ i → p i = none

section
variable {τ : Type} {n i : ℕ} {p : Pool τ} {t : τ}

theorem Below.lt (hp : Below n p) (hi : p i = some t) : i < n := by
  by_contra hle
  rw [hp i (Nat.le_of_not_lt hle)] at hi
  cases hi

theorem Below.update (hp : Below n p) (hi : i < n) : Below n (Function.update p i (some t)) := by
  intro j hj
  have hne : j ≠ i := by omega
  exact (Function.update_of_ne hne _ _).trans (hp j hj)

theorem Below.all {test : τ → Bool} (hp : Below n p)
    (h : ((List.range n).all fun i => (p i).all test) = true) (hi : p i = some t) :
    test t = true := by
  have ht := List.all_eq_true.mp h i (List.mem_range.mpr (hp.lt hi))
  rwa [hi] at ht

end

theorem update_sole {τ : Type} {p : Pool τ} {i : ℕ} {t : τ} {R : τ → τ → Prop}
    (hp : ∀ a b u v, p a = some u → p b = some v → R u v → a = b)
    (ht : ∀ j u, j ≠ i → p j = some u → ¬ R t u ∧ ¬ R u t) :
    ∀ a b u v, Function.update p i (some t) a = some u →
      Function.update p i (some t) b = some v → R u v → a = b := by
  intro a b u v ha hb hr
  rcases update_eq_some.mp ha with ⟨rfl, rfl⟩ | ⟨hna, hpa⟩
  · rcases update_eq_some.mp hb with ⟨rfl, _⟩ | ⟨hnb, hpb⟩
    · rfl
    · exact absurd hr (ht b v hnb hpb).1
  · rcases update_eq_some.mp hb with ⟨rfl, rfl⟩ | ⟨_, hpb⟩
    · exact absurd hr (ht a u hna hpa).2
    · exact hp a b u v hpa hpb hr

end Dejaveph.Lib.Run

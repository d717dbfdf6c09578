import Dejaveph.Proofs.DedupSound

namespace Dejaveph.Proofs.Unpoisoned
open Lib Server DedupSound

variable {Hash β : Type} {core : XetCore Hash}

/-- The label is not the arrival of a reconstruction. -/
def NoReconstruct : Label Hash → Prop
  | .request _ (.reconstruct _) => False
  | _ => True

/-- The handler is about to walk the terms of a file under the lock. -/
def Collects : Handler Hash → Prop
  | .reconLock _ => True
  | _ => False

theorem quiet_collects {g : Handler Hash} (hq : g.Quiet) : ¬ Collects g := by
  intro h
  cases g <;> first | exact h | exact hq

theorem start_collects {i : ℕ} {r : Request} (hr : NoReconstruct (.request i r : Label Hash)) :
    ¬ Collects (start core r) := by
  have hs := start_started core r
  generalize start core r = g at hs
  cases hs with
  | reconstruct => exact absurd hr id
  | quiet _ _ still => exact quiet_collects still
  | _ => exact id

/-- The index mutex is sound, nothing that is in flight can poison it, and
uploads carry what the gate let through. -/
structure Clean (core : XetCore Hash) (s : State Hash β) : Prop where
  unpoisoned : s.app.poisoned = false
  collects : ∀ i t, s.tasks i = some t → ¬ Collects t.handler
  accepted : ∀ i t, s.tasks i = some t → Accepted core t.handler

variable [DecidableEq Hash] {store : BlobStore Hash β}

theorem effect_collects {c : Choice Hash} {app app' : AppState Hash β} {g g' : Handler Hash}
    (heff : Effect core store c app g app' g') : ¬ Collects g' := by
  intro h
  cases heff with
  | stored hash info call =>
    generalize (store.putStep call c.io app.blob).1 = out at h
    unfold afterPut at h
    split at h <;> exact h
  | marked clean all =>
    generalize c.order.filter _ = todo at h
    cases todo <;> exact h
  | evicted swept x todo clean => cases todo <;> exact h
  | quiet _ _ metrics live still => exact quiet_collects still h
  | _ => exact h

theorem effect_unpoisoned (gate : core.GateLaws) {c : Choice Hash} {app app' : AppState Hash β}
    {g g' : Handler Hash} (heff : Effect core store c app g app' g') (hc : ¬ Collects g)
    (ha : Accepted core g) (hp : app.poisoned = false) : app'.poisoned = false := by
  cases heff with
  | poisoned _ panics =>
    obtain ⟨fh, rfl, _⟩ | ⟨hash, info, len, rfl, hn⟩ := panics
    · exact absurd trivial hc
    · obtain ⟨idx', hsome⟩ := indexXorb_total app.index hash (gate.well_formed _ _ ha)
      rw [hn] at hsome
      cases hsome
  | _ => exact hp

theorem step_clean (gate : core.GateLaws) {s s' : State Hash β} {l : Label Hash}
    (hl : NoReconstruct l) (hi : Clean core s) (h : step core store s l = some s') :
    Clean core s' := by
  obtain ⟨i, r, rfl, _, rfl⟩ | ⟨i, c, t, app, g', rfl, ht, heff, rfl⟩ := step_cases core store h
  · exact ⟨hi.unpoisoned, Run.update_forall hi.collects (start_collects hl),
      Run.update_forall hi.accepted (start_accepted r)⟩
  · have hc := hi.collects i t ht
    have ha := hi.accepted i t ht
    exact ⟨effect_unpoisoned gate heff hc ha hi.unpoisoned,
      Run.update_forall hi.collects (effect_collects heff),
      Run.update_forall hi.accepted (effect_accepted heff ha)⟩

omit [DecidableEq Hash] in
theorem boot_clean (blob : β) : Clean core (boot blob : State Hash β) where
  unpoisoned := rfl
  collects := by
    intro i t ht
    cases ht
  accepted := by
    intro i t ht
    cases ht

end Dejaveph.Proofs.Unpoisoned

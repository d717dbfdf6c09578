import Dejaveph.Proofs.RoundTrip

namespace Dejaveph.Proofs.DistinctChunks
open Lib Server Agent RegisteredTerms ServedRanges StoredXorbs RoundTrip

variable {Hash : Type} {core : XetCore Hash}

/-- No chunk of the bytes occurs in them twice. -/
def Distinct (core : XetCore Hash) (b : Bytes) : Prop := (core.nextBlock b).Nodup

instance [DecidableEq Hash] (core : XetCore Hash) (b : Bytes) : Decidable (Distinct core b) :=
  inferInstanceAs (Decidable (core.nextBlock b).Nodup)

section
variable {content : Hash → List (Chunk Hash)} {t u : Term Hash}

theorem own_covered (hne : t.start < t.end_) (hin : t.end_.toNat ≤ (content t.xorb).length)
    (hx : u.xorb = t.xorb) (hs : u.start ≤ t.start) (he : t.end_ ≤ u.end_) :
    ∃ c, c ∈ own content t ∧ c ∈ own content u := by
  rw [UInt32.lt_iff_toNat_lt] at hne
  rw [UInt32.le_iff_toNat_le] at hs he
  have hlt : t.start.toNat < (content t.xorb).length := by omega
  have hmem {s e : ℕ} (h1 : s ≤ t.start.toNat) (h2 : t.start.toNat < e) :
      (content t.xorb)[t.start.toNat] ∈ Pieces.slice (content t.xorb) s e := by
    refine List.mem_of_getElem? (i := t.start.toNat - s) ?_
    rw [Pieces.slice, List.getElem?_drop, Nat.add_sub_cancel' h1, List.getElem?_take_of_lt h2,
      List.getElem?_eq_getElem hlt]
  refine ⟨(content t.xorb)[t.start.toNat], hmem (Nat.le_refl _) hne, ?_⟩
  rw [own, hx]
  exact hmem hs (by omega)

end

variable [DecidableEq Hash]

/-- The record of a file no chunk of which repeats is aligned: only a term itself
covers it. -/
theorem aligned_distinct (gate : core.GateLaws) (pipe : core.PipelineLaws) {idx : Index Hash}
    (hp : ∀ x ∈ idx.xorbs, ∃ content, Packed core x content) {b : Bytes} {file : FileRecord Hash}
    (h : Recorded core idx (core.fileHashOf b) file) (hd : Distinct core b) :
    Aligned core file := by
  have hshelf : ∀ x, ∃ content, x ∈ idx.xorbs → Packed core x content := by
    intro x
    by_cases hx : x ∈ idx.xorbs
    · obtain ⟨content, hc⟩ := hp x hx
      exact ⟨content, fun _ => hc⟩
    · exact ⟨[], fun h => absurd h hx⟩
  choose content hcontent using hshelf
  obtain ⟨_, hin, hown⟩ := recorded_own gate pipe hcontent h
  rw [Distinct, ← hown, List.nodup_flatten, List.pairwise_map] at hd
  intro t ht u hu info _
  obtain ⟨u', hum, hu', hx, hs, he⟩ := firstCover_some ht
  obtain rfl := Option.some.inj (hu.symm.trans hu')
  obtain ⟨hne, hle⟩ := hin t ht
  have hut : u = t := by
    by_contra hne'
    obtain ⟨c, hct, hcu⟩ := own_covered hne hle hx hs he
    have : Std.Symm fun t u : Term Hash => (own content t).Disjoint (own content u) :=
      ⟨fun _ _ h => h.symm⟩
    exact hd.2.forall hum ht hne' hcu hct
  subst hut
  rw [UInt32.lt_iff_toNat_lt] at hne
  rw [Nat.add_sub_cancel' hne.le]

end Dejaveph.Proofs.DistinctChunks

import Mathlib.Algebra.Group.Nat.Defs
import Mathlib.Data.List.Basic
import Mathlib.Data.List.DropRight

namespace Dejaveph.Lib.Text

/-- Split at the first occurrence of a character. -/
def splitOnce (c : Char) : List Char → Option (List Char × List Char)
  | [] => none
  | d :: ds => if d = c then some ([], ds) else (splitOnce c ds).map (fun p => (d :: p.1, p.2))

/-- Remove a prefix, when the text begins with it. -/
def stripPrefix (p s : List Char) : Option (List Char) := s.dropPrefix? p

/-- The decimal numeral of a number. -/
def numeral (n : ℕ) : List Char := Nat.toDigits 10 n

/-- An unsigned 64-bit decimal numeral: an optional plus sign, then at least
one digit, with a value below `2^64`. -/
def parseU64 (s : List Char) : Option ℕ :=
  let ds := match s with
    | '+' :: rest => rest
    | _ => s
  if ds ≠ [] ∧ ds.all Char.isDigit ∧ Nat.ofDigitChars 10 ds 0 < 2 ^ 64 then
    some (Nat.ofDigitChars 10 ds 0)
  else none

theorem splitOnce_append {c : Char} {a : List Char} (b : List Char) (h : c ∉ a) :
    splitOnce c (a ++ c :: b) = some (a, b) := by
  induction a with
  | nil => simp [splitOnce]
  | cons d ds ih =>
    simp only [List.mem_cons, not_or] at h
    simp [splitOnce, Ne.symm h.1, ih h.2]

theorem splitOnce_eq_some {c : Char} {s a b : List Char} :
    splitOnce c s = some (a, b) ↔ s = a ++ c :: b ∧ c ∉ a := by
  constructor
  · intro h
    induction s generalizing a with
    | nil => cases h
    | cons d ds ih =>
      simp only [splitOnce] at h
      split at h
      · rename_i hd
        cases h
        exact ⟨by rw [hd]; rfl, List.not_mem_nil⟩
      · rename_i hd
        obtain ⟨⟨a', b'⟩, hsplit, he⟩ := Option.map_eq_some_iff.mp h
        cases he
        obtain ⟨hds, hnot⟩ := ih hsplit
        exact ⟨by rw [hds]; rfl, by simp [Ne.symm hd, hnot]⟩
  · rintro ⟨rfl, hnot⟩
    exact splitOnce_append b hnot

theorem stripPrefix_eq_some {p s rest : List Char} :
    stripPrefix p s = some rest ↔ s = p ++ rest := by
  rw [stripPrefix, List.dropPrefix?_eq_some_iff]
  constructor
  · rintro ⟨q, rfl, hq⟩
    rw [eq_of_beq hq]
  · rintro rfl
    exact ⟨p, rfl, beq_self_eq_true p⟩

theorem stripPrefix_append (p s : List Char) : stripPrefix p (p ++ s) = some s :=
  stripPrefix_eq_some.mpr rfl

theorem numeral_digits {n : ℕ} {c : Char} (h : c ∈ numeral n) : c.isDigit = true :=
  Nat.isDigit_of_mem_toDigits (by decide) (by decide) h

theorem not_mem_numeral {n : ℕ} {c : Char} (h : c.isDigit = false) : c ∉ numeral n := by
  intro hm
  rw [numeral_digits hm] at h
  cases h

theorem numeral_ne_nil (n : ℕ) : numeral n ≠ [] := Nat.toDigits_ne_nil

theorem parseU64_digits {s : List Char} (hne : s ≠ []) (hd : ∀ c ∈ s, c.isDigit = true)
    (hlt : Nat.ofDigitChars 10 s 0 < 2 ^ 64) : parseU64 s = some (Nat.ofDigitChars 10 s 0) := by
  cases s with
  | nil => exact absurd rfl hne
  | cons c cs =>
    have hc : c ≠ '+' := by
      rintro rfl
      exact absurd (hd '+' (by simp)) (by decide)
    have hall : (c :: cs).all Char.isDigit = true := List.all_eq_true.mpr hd
    simp only [parseU64]
    split
    · rename_i rest he
      exact absurd (List.cons.inj he).1 hc
    · rw [if_pos ⟨by simp, hall, hlt⟩]

/-- A decimal numeral with or without a plus sign, and its value below `2^64`. -/
def IsU64 (s : List Char) (n : ℕ) : Prop :=
  ∃ digits, (s = digits ∨ s = '+' :: digits) ∧ digits ≠ [] ∧
    (∀ c ∈ digits, c.isDigit = true) ∧ n = Nat.ofDigitChars 10 digits 0 ∧ n < 2 ^ 64

theorem parseU64_eq_some {s : List Char} {n : ℕ} : parseU64 s = some n ↔ IsU64 s n := by
  have hread : ∀ digits : List Char, (if digits ≠ [] ∧ digits.all Char.isDigit ∧
      Nat.ofDigitChars 10 digits 0 < 2 ^ 64 then some (Nat.ofDigitChars 10 digits 0) else none) =
        some n ↔ digits ≠ [] ∧ (∀ c ∈ digits, c.isDigit = true) ∧
          n = Nat.ofDigitChars 10 digits 0 ∧ n < 2 ^ 64 := by
    intro digits
    rw [← List.all_eq_true]
    constructor
    · intro h
      split at h
      · rename_i hd
        cases h
        exact ⟨hd.1, hd.2.1, rfl, hd.2.2⟩
      · cases h
    · rintro ⟨hne, hall, rfl, hlt⟩
      rw [if_pos ⟨hne, hall, hlt⟩]
  by_cases hplus : ∃ rest, s = '+' :: rest
  · obtain ⟨rest, rfl⟩ := hplus
    refine (hread rest).trans ⟨fun h => ⟨rest, .inr rfl, h⟩, ?_⟩
    rintro ⟨digits, rfl | he, hd⟩
    · exact absurd (hd.2.1 '+' List.mem_cons_self) (by decide)
    · cases he
      exact hd
  · have hds : parseU64 s = if s ≠ [] ∧ s.all Char.isDigit ∧ Nat.ofDigitChars 10 s 0 < 2 ^ 64
        then some (Nat.ofDigitChars 10 s 0) else none := by
      cases s with
      | nil => rfl
      | cons c cs =>
        have hc : c ≠ '+' := fun he => hplus ⟨cs, by rw [he]⟩
        simp only [parseU64]
        split
        · rename_i rest he
          exact absurd (List.cons.inj he).1 hc
        · rfl
    rw [hds, hread]
    refine ⟨fun h => ⟨s, .inl rfl, h⟩, ?_⟩
    rintro ⟨digits, rfl | he, hd⟩
    · exact hd
    · exact absurd ⟨digits, he⟩ hplus

theorem IsU64.no_dash {s : List Char} {n : ℕ} (h : IsU64 s n) : '-' ∉ s := by
  obtain ⟨digits, hs, _, hd, _⟩ := h
  have hdash : '-' ∉ digits := fun hm => absurd (hd '-' hm) (by decide)
  rcases hs with rfl | rfl
  · exact hdash
  · simp [hdash]

theorem IsU64.ne_nil {s : List Char} {n : ℕ} (h : IsU64 s n) : s ≠ [] := by
  obtain ⟨digits, rfl | rfl, hne, _⟩ := h
  · exact hne
  · simp

/-- Writing a 64-bit number and reading it back gives the number. -/
theorem parseU64_numeral {n : ℕ} (h : n < 2 ^ 64) : parseU64 (numeral n) = some n := by
  have hv : Nat.ofDigitChars 10 (numeral n) 0 = n := Nat.ofDigitChars_ten_toDigits
  rw [parseU64_digits (numeral_ne_nil n) (fun c hc => numeral_digits hc) (by rw [hv]; exact h), hv]

theorem not_mem_splitOn {c : Char} {s piece : List Char} (h : piece ∈ s.splitOn c) :
    c ∉ piece := by
  induction s generalizing piece with
  | nil =>
    rw [List.splitOn_nil, List.mem_singleton] at h
    subst h
    exact List.not_mem_nil
  | cons d ds ih =>
    rw [List.splitOn_cons_eq_if_modifyHead] at h
    split at h
    · rcases List.mem_cons.mp h with rfl | h
      · exact List.not_mem_nil
      · exact ih h
    · rename_i hd
      cases hs : ds.splitOn c with
      | nil => exact absurd hs (List.splitOn_ne_nil c ds)
      | cons first rest =>
        rw [hs] at h ih
        rcases List.mem_cons.mp h with rfl | h
        · intro hm
          rcases List.mem_cons.mp hm with rfl | hm
          · exact hd (beq_self_eq_true _)
          · exact ih List.mem_cons_self hm
        · exact ih (List.mem_cons_of_mem _ h)

theorem splitOn_head {c d : Char} (hd : d ≠ c) (ds : List Char) :
    ∃ first rest, (d :: ds).splitOn c = (d :: first) :: rest := by
  rw [List.splitOn_cons_eq_if_modifyHead, if_neg (by simpa using hd)]
  cases hs : ds.splitOn c with
  | nil => exact absurd hs (List.splitOn_ne_nil c ds)
  | cons first rest => exact ⟨first, rest, rfl⟩

/-- Different lists of names without a slash have different paths. -/
theorem intercalate_injective {xs ys : List String} (hx : xs ≠ []) (hy : ys ≠ [])
    (hxs : ∀ s ∈ xs, '/' ∉ s.toList) (hys : ∀ s ∈ ys, '/' ∉ s.toList)
    (h : String.intercalate "/" xs = String.intercalate "/" ys) : xs = ys := by
  have hsplit : ∀ zs : List String, zs ≠ [] → (∀ s ∈ zs, '/' ∉ s.toList) →
      (String.intercalate "/" zs).toList.splitOn '/' = zs.map String.toList := by
    intro zs hne hzs
    rw [String.toList_intercalate]
    refine List.splitOn_intercalate '/' ?_ (by simpa using hne)
    intro l hl
    obtain ⟨s, hs, rfl⟩ := List.mem_map.mp hl
    exact hzs s hs
  have hmap := (hsplit xs hx hxs).symm.trans ((congrArg (List.splitOn '/' ·.toList) h).trans
    (hsplit ys hy hys))
  exact List.map_injective_iff.mpr (fun _ _ h => String.toList_injective h) hmap

end Dejaveph.Lib.Text

import Dejaveph.Lib.Pieces

namespace Dejaveph.Lib.Cells
variable {α : Type} (z : α)

/-- A file of cells in which nothing was ever written beyond the end: a position
past it reads as `z` once the file grows over it. -/
def cellAt (b : List α) (i : ℕ) : α := b.getD i z

/-- The file with these cells written at an offset, any gap before them filled. -/
def overlay (b : List α) (off : ℕ) (data : List α) : List α :=
  (List.range (max b.length (off + data.length))).map (fun i =>
    if off ≤ i ∧ i < off + data.length then cellAt z data (i - off) else cellAt z b i)

/-- The file cut or extended to a length. -/
def truncate (b : List α) (n : ℕ) : List α := (List.range n).map (cellAt z b)

/-- The cells `[off, off + n)`, as far as the file has them. -/
def window (b : List α) (off n : ℕ) : List α := Pieces.slice b off (off + n)

variable {z}

theorem cellAt_of_lt {b : List α} {i : ℕ} (h : i < b.length) : cellAt z b i = b[i] := by
  simp [cellAt, h]

theorem cellAt_of_le {b : List α} {i : ℕ} (h : b.length ≤ i) : cellAt z b i = z := by
  simp [cellAt, h]

/-- A list is what it reads as, position by position. -/
theorem eq_map_cellAt {b : List α} {n : ℕ} {f : ℕ → α} (hn : b.length = n)
    (hf : ∀ i < n, cellAt z b i = f i) : b = (List.range n).map f := by
  subst hn
  apply List.ext_getElem
  · simp
  · intro i hi _
    rw [← cellAt_of_lt (z := z) hi, hf i hi]
    simp

theorem cellAt_append (a b : List α) (i : ℕ) :
    cellAt z (a ++ b) i = if i < a.length then cellAt z a i else cellAt z b (i - a.length) := by
  split
  · rename_i h
    rw [cellAt_of_lt h, cellAt_of_lt (by rw [List.length_append]; omega), List.getElem_append_left h]
  · rename_i h
    simp [cellAt, List.getElem?_append_right (Nat.le_of_not_lt h)]

theorem cellAt_take {b : List α} {n i : ℕ} (h : i < n) : cellAt z (b.take n) i = cellAt z b i := by
  simp [cellAt, List.getElem?_take_of_lt h]

theorem cellAt_drop (b : List α) (n i : ℕ) : cellAt z (b.drop n) i = cellAt z b (n + i) := by
  simp [cellAt]

theorem cellAt_replicate (n i : ℕ) : cellAt z (List.replicate n z) i = z := by
  by_cases h : i < n
  · rw [cellAt_of_lt (by simpa using h)]
    simp
  · exact cellAt_of_le (by simpa using Nat.le_of_not_lt h)

theorem truncate_eq (b : List α) (n : ℕ) :
    b.take n ++ List.replicate (n - b.length) z = truncate z b n := by
  refine eq_map_cellAt (z := z) ?_ ?_
  · simp only [List.length_append, List.length_take, List.length_replicate]
    omega
  · intro i hi
    rw [cellAt_append, List.length_take]
    split
    · exact cellAt_take hi
    · rw [cellAt_replicate, cellAt_of_le (by omega)]

theorem length_truncate (b : List α) (n : ℕ) : (truncate z b n).length = n := by
  simp [truncate]

theorem cellAt_truncate {b : List α} {n : ℕ} (h : b.length ≤ n) (i : ℕ) :
    cellAt z (truncate z b n) i = cellAt z b i := by
  by_cases hi : i < n
  · rw [cellAt_of_lt (by rw [length_truncate]; exact hi)]
    simp [truncate]
  · rw [cellAt_of_le (by rw [length_truncate]; omega), cellAt_of_le (by omega)]

theorem splice_eq {b buf data : List α} {off : ℕ}
    (hlen : buf.length = max b.length (off + data.length))
    (hsame : ∀ i, cellAt z buf i = cellAt z b i) :
    buf.take off ++ data ++ buf.drop (off + data.length) = overlay z b off data := by
  have hoff : (buf.take off).length = off := by
    rw [List.length_take]
    omega
  refine eq_map_cellAt (z := z) ?_ ?_
  · simp only [List.length_append, hoff, List.length_drop]
    omega
  · intro i _
    rw [cellAt_append, cellAt_append, List.length_append, hoff, cellAt_drop, hsame]
    by_cases hi : i < off
    · rw [if_pos (by omega), if_pos hi, if_neg (by omega), cellAt_take hi, hsame]
    · by_cases hd : i < off + data.length
      · rw [if_pos hd, if_neg hi, if_pos ⟨Nat.le_of_not_lt hi, hd⟩]
      · rw [if_neg hd, if_neg (by omega)]
        congr 1
        omega

theorem overlay_append (b data : List α) : overlay z b b.length data = b ++ data := by
  refine (eq_map_cellAt (z := z) ?_ ?_).symm
  · simp
  · intro i hi
    rw [cellAt_append]
    by_cases hb : i < b.length
    · rw [if_pos hb, if_neg (by omega)]
    · have hlt : i < b.length + data.length := by omega
      rw [if_neg hb, if_pos ⟨Nat.le_of_not_lt hb, hlt⟩]

theorem clip_eq (b : List α) (off n : ℕ) :
    Pieces.slice b (min off b.length) (min (min off b.length + n) b.length) = window b off n := by
  by_cases h : off ≤ b.length
  · rw [Nat.min_eq_left h, window, Pieces.slice, Pieces.slice, ← List.take_eq_take_min]
  · have hle : b.length ≤ off := Nat.le_of_not_le h
    rw [Nat.min_eq_right hle, window, Pieces.slice, Pieces.slice, List.drop_eq_nil_of_le,
      List.drop_eq_nil_of_le]
    · rw [List.length_take]
      omega
    · rw [List.length_take]
      omega

theorem cellAt_nil (i : ℕ) : cellAt z ([] : List α) i = z := cellAt_of_le (Nat.zero_le i)

theorem cellAt_zero_iff {b : List α} {n : ℕ} :
    (∀ i < n, cellAt z b i = z) ↔ ∀ x ∈ b.take n, x = z := by
  constructor
  · intro h x hx
    obtain ⟨i, hi, rfl⟩ := List.getElem_of_mem hx
    rw [List.length_take] at hi
    have hlt : i < b.length := by omega
    rw [List.getElem_take, ← cellAt_of_lt (z := z) hlt]
    exact h i (by omega)
  · intro h i hi
    by_cases hlt : i < b.length
    · rw [cellAt_of_lt hlt]
      apply h
      rw [List.mem_take_iff_getElem]
      exact ⟨i, by omega, rfl⟩
    · exact cellAt_of_le (Nat.le_of_not_lt hlt)

/-- Truncating nothing gives the same as truncating a file, when what is kept of the
file is blank. -/
theorem truncate_nil_iff {b : List α} {n : ℕ} :
    truncate z [] n = truncate z b n ↔ ∀ x ∈ b.take n, x = z := by
  rw [← cellAt_zero_iff, truncate, truncate, List.map_inj_left]
  constructor
  · intro h i hi
    rw [← h i (List.mem_range.mpr hi), cellAt_nil]
  · intro h i hi
    rw [h i (List.mem_range.mp hi), cellAt_nil]

/-- Writing over nothing gives the same as writing over a file, when the cells cover
the file but for a blank beginning. -/
theorem overlay_nil_iff {b data : List α} {off : ℕ} :
    overlay z [] off data = overlay z b off data ↔
      b.length ≤ off + data.length ∧ ∀ x ∈ b.take off, x = z := by
  rw [← cellAt_zero_iff]
  constructor
  · intro h
    have hlen : b.length ≤ off + data.length := by
      have hl := congrArg List.length h
      simp only [overlay, List.length_map, List.length_range, List.length_nil] at hl
      omega
    refine ⟨hlen, ?_⟩
    intro i hi
    rw [overlay, overlay, List.length_nil, Nat.zero_max, Nat.max_eq_right hlen,
      List.map_inj_left] at h
    have hcell := h i (List.mem_range.mpr (by omega))
    rw [if_neg (by omega), if_neg (by omega), cellAt_nil] at hcell
    exact hcell.symm
  · intro h
    obtain ⟨hlen, hblank⟩ := h
    rw [overlay, overlay, List.length_nil, Nat.zero_max, Nat.max_eq_right hlen, List.map_inj_left]
    intro i hi
    rw [List.mem_range] at hi
    split
    · rfl
    · rw [hblank i (by omega), cellAt_nil]

end Dejaveph.Lib.Cells

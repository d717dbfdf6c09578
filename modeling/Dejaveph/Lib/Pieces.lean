import Mathlib.Data.List.Basic
import Mathlib.Data.List.Flatten

namespace Dejaveph.Lib.Pieces
variable {α : Type}

/-- The elements at positions `s` up to but not including `e`. -/
def slice (xs : List α) (s e : ℕ) : List α := (xs.take e).drop s

/-- Running end offsets of consecutive pieces, the first of which begins at `b`. -/
def endsFrom (b : ℕ) : List (List α) → List ℕ
  | [] => []
  | p :: ps => (b + p.length) :: endsFrom (b + p.length) ps

def ends (ps : List (List α)) : List ℕ := endsFrom 0 ps

/-- Where piece `i` begins. -/
def offset (ps : List (List α)) (i : ℕ) : ℕ := (ps.take i).flatten.length

@[simp] theorem offset_zero (ps : List (List α)) : offset ps 0 = 0 := rfl

@[simp] theorem length_endsFrom (b : ℕ) (ps : List (List α)) :
    (endsFrom b ps).length = ps.length := by
  induction ps generalizing b with
  | nil => rfl
  | cons p ps ih => simp [endsFrom, ih]

theorem endsFrom_get (b : ℕ) (ps : List (List α)) (i : ℕ) (hi : i < ps.length) :
    (endsFrom b ps)[i]? = some (b + offset ps (i + 1)) := by
  induction ps generalizing b i with
  | nil => simp at hi
  | cons p ps ih =>
    cases i with
    | zero => simp [endsFrom, offset]
    | succ i =>
      have hi' : i < ps.length := by simpa using hi
      simp only [endsFrom, List.getElem?_cons_succ, ih _ _ hi', offset, List.take_succ_cons,
        List.flatten_cons, List.length_append]
      rw [Nat.add_assoc]

theorem ends_get (ps : List (List α)) (i : ℕ) (hi : i < ps.length) :
    (ends ps)[i]? = some (offset ps (i + 1)) := by
  rw [ends, endsFrom_get 0 ps i hi, Nat.zero_add]

theorem endsFrom_bounds {b x : ℕ} {ps : List (List α)} (h : x ∈ endsFrom b ps) :
    b ≤ x ∧ x ≤ b + ps.flatten.length := by
  induction ps generalizing b with
  | nil => simp [endsFrom] at h
  | cons p ps ih =>
    simp only [List.flatten_cons, List.length_append]
    rcases List.mem_cons.mp h with rfl | h
    · omega
    · have := ih h
      omega

theorem ends_le {x : ℕ} {ps : List (List α)} (h : x ∈ ends ps) : x ≤ ps.flatten.length := by
  have := (endsFrom_bounds h).2
  omega

theorem endsFrom_increasing (b : ℕ) {ps : List (List α)} (hne : ∀ p ∈ ps, p ≠ []) :
    (b :: endsFrom b ps).Pairwise (· < ·) := by
  induction ps generalizing b with
  | nil => simp [endsFrom]
  | cons p ps ih =>
    have hp : 0 < p.length := List.length_pos_iff.mpr (hne p (by simp))
    have htail := ih (b + p.length) (fun q hq => hne q (by simp [hq]))
    refine List.pairwise_cons.mpr ⟨?_, htail⟩
    intro x hx
    rcases List.mem_cons.mp hx with rfl | hx
    · omega
    · have := (endsFrom_bounds hx).1
      omega

theorem take_split (ps : List (List α)) {s e : ℕ} (h : s ≤ e) :
    ps.take e = ps.take s ++ slice ps s e := by
  have ht : (ps.take e).take s = ps.take s := by
    rw [List.take_take, Nat.min_eq_left h]
  rw [← ht]
  exact (List.take_append_drop s (ps.take e)).symm

theorem offset_split (ps : List (List α)) {s e : ℕ} (h : s ≤ e) :
    offset ps e = offset ps s + (slice ps s e).flatten.length := by
  unfold offset
  rw [take_split ps h]
  simp

theorem offset_mono (ps : List (List α)) {s e : ℕ} (h : s ≤ e) : offset ps s ≤ offset ps e := by
  rw [offset_split ps h]
  exact Nat.le_add_right _ _

theorem offset_le (ps : List (List α)) (e : ℕ) : offset ps e ≤ ps.flatten.length := by
  have h : ps.flatten.length = (ps.take e).flatten.length + (ps.drop e).flatten.length := by
    rw [← List.length_append, ← List.flatten_append, List.take_append_drop]
  unfold offset
  omega

theorem offset_lt (ps : List (List α)) (hne : ∀ p ∈ ps, p ≠ []) {s e : ℕ} (h : s < e)
    (he : e ≤ ps.length) : offset ps s < offset ps e := by
  have hs : s < ps.length := Nat.lt_of_lt_of_le h he
  have hstep : offset ps (s + 1) = offset ps s + ps[s].length := by
    unfold offset
    rw [List.take_succ_eq_append_getElem hs, List.flatten_append, List.length_append,
      List.flatten_singleton]
  have hpos : 0 < ps[s].length := List.length_pos_iff.mpr (hne _ (List.getElem_mem hs))
  have hm : offset ps (s + 1) ≤ offset ps e := offset_mono ps h
  omega

/-- Cutting the joined pieces at two piece boundaries gives back the pieces
between them, whatever follows the last piece. -/
theorem cut_pieces (ps : List (List α)) (foot : List α) {s e : ℕ} (h : s ≤ e) :
    slice (ps.flatten ++ foot) (offset ps s) (offset ps e) = (slice ps s e).flatten := by
  have hjoin : ps.flatten ++ foot = (ps.take e).flatten ++ ((ps.drop e).flatten ++ foot) := by
    rw [← List.append_assoc, ← List.flatten_append, List.take_append_drop]
  have htake : (ps.flatten ++ foot).take (offset ps e) = (ps.take e).flatten := by
    rw [hjoin]
    exact List.take_left
  have hs : (ps.take e).flatten = (ps.take s).flatten ++ (slice ps s e).flatten := by
    rw [← List.flatten_append, ← take_split ps h]
  calc slice (ps.flatten ++ foot) (offset ps s) (offset ps e)
      = ((ps.take s).flatten ++ (slice ps s e).flatten).drop (offset ps s) := by
        rw [slice, htake, hs]
    _ = (slice ps s e).flatten := List.drop_left

theorem slice_length (xs : List α) {s e : ℕ} (he : e ≤ xs.length) :
    (slice xs s e).length = e - s := by
  simp [slice, Nat.min_eq_left he]

@[simp] theorem slice_self (xs : List α) (s : ℕ) : slice xs s s = [] := by
  simp [slice]

theorem slice_zero (xs : List α) : slice xs 0 xs.length = xs := by
  simp [slice]

theorem slice_cons {xs : List α} {s e : ℕ} {x : α} (hx : xs[s]? = some x) (h : s < e) :
    slice xs s e = x :: slice xs (s + 1) e := by
  obtain ⟨hs, rfl⟩ := List.getElem?_eq_some_iff.mp hx
  have hlen : s < (xs.take e).length := by
    rw [List.length_take]
    omega
  rw [slice, List.drop_eq_getElem_cons hlen, List.getElem_take]
  rfl

theorem slice_take (xs : List α) {s e n : ℕ} (h : s + n ≤ e) :
    (slice xs s e).take n = slice xs s (s + n) := by
  rw [slice, List.take_drop, List.take_take, Nat.min_eq_left h, slice]

theorem slice_get {xs : List α} {s e i : ℕ} {x : α} (h : (slice xs s e)[i]? = some x) :
    xs[s + i]? = some x := by
  rw [slice, List.getElem?_drop] at h
  obtain ⟨hi, rfl⟩ := List.getElem?_eq_some_iff.mp h
  rw [List.getElem_take]
  exact List.getElem?_eq_getElem _

theorem offset_succ {ps : List (List α)} {i : ℕ} {p : List α} (h : ps[i]? = some p) :
    offset ps (i + 1) = offset ps i + p.length := by
  rw [offset_split ps (Nat.le_succ i), slice_cons h (Nat.lt_succ_self i), slice_self]
  simp

theorem ends_difference {ps : List (List α)} {i : ℕ} {p : List α} (h : ps[i]? = some p) :
    (ends ps)[i]? = some (offset ps i + p.length) ∧ (0 :: ends ps)[i]? = some (offset ps i) := by
  have hi := (List.getElem?_eq_some_iff.mp h).1
  refine ⟨by rw [ends_get ps i hi, offset_succ h], ?_⟩
  cases i with
  | zero => rfl
  | succ i =>
    rw [List.getElem?_cons_succ, ends_get ps i (by omega)]

theorem slice_map {β : Type} (f : α → β) (xs : List α) (s e : ℕ) :
    slice (xs.map f) s e = (slice xs s e).map f := by
  simp [slice]

theorem slice_append {xs : List α} {s e f : ℕ} (hs : s ≤ e) (he : e ≤ f) :
    slice xs s e ++ slice xs e f = slice xs s f := by
  have hdrop : ∀ {a b : ℕ}, slice xs a b = (xs.drop a).take (b - a) := by
    intro a b
    rw [slice, List.drop_take]
  have hf : f - s = (e - s) + (f - e) := by omega
  have hback : xs.drop e = (xs.drop s).drop (e - s) := by
    rw [List.drop_drop]
    congr 1
    omega
  rw [hdrop, hdrop, hdrop, hf, List.take_add, hback]

theorem slice_middle (a b c : List α) :
    slice (a ++ (b ++ c)) a.length (a.length + b.length) = b := by
  have htake : (a ++ (b ++ c)).take (a.length + b.length) = a ++ b := by
    rw [← List.append_assoc, ← List.length_append]
    exact List.take_left
  rw [slice, htake]
  exact List.drop_left

/-- Joined lists of the same lengths are equal when each two of them are. -/
theorem flatten_map_eq {β : Type} {f g : β → List α} {ts : List β}
    (hlen : ∀ t ∈ ts, (f t).length = (g t).length) :
    (ts.map f).flatten = (ts.map g).flatten ↔ ∀ t ∈ ts, f t = g t := by
  induction ts with
  | nil => simp
  | cons t ts ih =>
    have ih := ih (fun u hu => hlen u (by simp [hu]))
    simp only [List.map_cons, List.flatten_cons, List.forall_mem_cons, ← ih]
    constructor
    · exact fun h => List.append_inj h (hlen t (by simp))
    · rintro ⟨h, ht⟩
      rw [h, ht]

/-- Non-empty intervals from `a` to `b`, each of which begins where the one before
it ends. -/
def Tiles : ℕ → List (ℕ × ℕ) → ℕ → Prop
  | a, [], b => a = b
  | a, (i, j) :: rest, b => a = i ∧ i < j ∧ Tiles j rest b

theorem Tiles.snoc {a i j : ℕ} {intervals : List (ℕ × ℕ)} (h : Tiles a intervals i)
    (hlt : i < j) : Tiles a (intervals ++ [(i, j)]) j := by
  induction intervals generalizing a with
  | nil => exact ⟨h, hlt, rfl⟩
  | cons p rest ih =>
    obtain ⟨ha, hp, ht⟩ := h
    exact ⟨ha, hp, ih ht⟩

end Dejaveph.Lib.Pieces

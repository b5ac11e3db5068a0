import Mathlib.Data.List.Basic

/-!
# Adjacent intervals

Half-open intervals of positions that follow each other without a gap (`Tiles`). The pieces of a
list at such intervals, put together, are the piece at the whole interval.
-/

namespace Intervals

variable {α : Type}

/-- The elements at the positions from `range.1` on, before `range.2`. -/
def slice (l : List α) (range : ℕ × ℕ) : List α := (l.drop range.1).take (range.2 - range.1)

/-- The intervals are not empty and lead from the first position to the last. -/
inductive Tiles : ℕ → ℕ → List (ℕ × ℕ) → Prop
  | nil {a : ℕ} : Tiles a a []
  | cons {a b c : ℕ} {ranges : List (ℕ × ℕ)} (hlt : a < b) (h : Tiles b c ranges) :
      Tiles a c ((a, b) :: ranges)

variable {l : List α} {a b c i : ℕ} {ranges : List (ℕ × ℕ)}

@[simp] theorem slice_self : slice l (a, a) = [] := by simp [slice]

theorem slice_zero : slice l (0, b) = l.take b := by simp [slice]

/-- The first element of a piece. -/
theorem slice_eq_cons (hi : i < b) (hl : i < l.length) :
    slice l (i, b) = l[i] :: slice l (i + 1, b) := by
  have hb : b - i = b - (i + 1) + 1 := by omega
  simp only [slice, List.drop_eq_getElem_cons hl]
  rw [hb, List.take_succ_cons]

theorem slice_append (hab : a ≤ b) (hbc : b ≤ c) :
    slice l (a, b) ++ slice l (b, c) = slice l (a, c) := by
  have hac : c - a = b - a + (c - b) := by omega
  have hb : b = a + (b - a) := by omega
  simp only [slice]
  rw [hac, List.take_add, List.drop_drop, ← hb]

namespace Tiles

theorem le (h : Tiles a c ranges) : a ≤ c := by
  induction h with
  | nil => exact Nat.le_refl _
  | cons hlt _ ih => omega

/-- Every interval lies within the whole. -/
theorem mem (h : Tiles a c ranges) {range : ℕ × ℕ} (hr : range ∈ ranges) :
    a ≤ range.1 ∧ range.1 < range.2 ∧ range.2 ≤ c := by
  induction h with
  | nil => simp at hr
  | cons hlt h ih =>
    rcases List.mem_cons.mp hr with rfl | hr
    · exact ⟨Nat.le_refl _, hlt, h.le⟩
    · have ⟨h1, h2, h3⟩ := ih hr
      exact ⟨by omega, h2, h3⟩

theorem eq_nil_iff (h : Tiles a c ranges) : ranges = [] ↔ a = c := by
  cases h with
  | nil => simp
  | cons hlt h =>
    have := h.le
    simp
    omega

/-- **The pieces make up the whole**, each position in one piece. -/
theorem flatMap_slice (h : Tiles a c ranges) : ranges.flatMap (slice l) = slice l (a, c) := by
  induction h with
  | nil => simp
  | cons hlt h ih => rw [List.flatMap_cons, ih, slice_append (Nat.le_of_lt hlt) h.le]

end Tiles

end Intervals

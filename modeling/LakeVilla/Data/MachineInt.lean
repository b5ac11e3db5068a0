import Mathlib.Algebra.Order.Ring.Int
import Mathlib.Tactic.Positivity

/-!
# Signed machine integers

A signed machine type with `w` value bits holds the integers from `-2 ^ w` to `2 ^ w - 1`. An
operation whose exact result is not among them has no defined result, nor has a division by zero:
`none` stands for both. The quotient is truncated towards zero, and the remainder has the sign of
the dividend.
-/

namespace MachineInt

variable {w : ℕ} {x y z : ℤ}

/-- The value is one of the type with `w` value bits. -/
def Fits (w : ℕ) (x : ℤ) : Prop := -2 ^ w ≤ x ∧ x < 2 ^ w

instance (w : ℕ) : DecidablePred (Fits w) := fun _ ↦ inferInstanceAs (Decidable (_ ∧ _))

/-- An exact result, if it fits. -/
def exact (w : ℕ) (x : ℤ) : Option ℤ := if Fits w x then some x else none

def add (w : ℕ) (x y : ℤ) : Option ℤ := exact w (x + y)

def sub (w : ℕ) (x y : ℤ) : Option ℤ := exact w (x - y)

def mul (w : ℕ) (x y : ℤ) : Option ℤ := exact w (x * y)

def div (w : ℕ) (x y : ℤ) : Option ℤ := if y = 0 then none else exact w (x.tdiv y)

/-- The remainder is defined if the quotient is. -/
def mod (w : ℕ) (x y : ℤ) : Option ℤ := (div w x y).map fun _ ↦ x.tmod y

def maxValue (w : ℕ) : ℤ := 2 ^ w - 1

def minValue (w : ℕ) : ℤ := -2 ^ w

theorem exact_of_fits (h : Fits w x) : exact w x = some x := if_pos h

theorem exact_eq_some : exact w x = some z ↔ Fits w x ∧ z = x := by
  unfold exact
  split_ifs with h
  · exact ⟨fun hz ↦ ⟨h, (Option.some.inj hz).symm⟩, fun hz ↦ congrArg some hz.2.symm⟩
  · exact iff_of_false (fun hz ↦ nomatch hz) fun hz ↦ h hz.1

theorem div_eq_some : div w x y = some z ↔ y ≠ 0 ∧ Fits w (x.tdiv y) ∧ z = x.tdiv y := by
  unfold div
  split_ifs with h
  · exact iff_of_false (fun hz ↦ nomatch hz) fun hz ↦ hz.1 h
  · rw [exact_eq_some, and_iff_right h]

theorem two_pow_pos (w : ℕ) : (0 : ℤ) < 2 ^ w := by positivity

/-- The truncated quotient by a positive number lies between the dividend and zero. -/
theorem fits_tdiv (hx : Fits w x) (hy : 0 < y) : Fits w (x.tdiv y) := by
  obtain ⟨hlo, hhi⟩ := hx
  have hpow := two_pow_pos w
  have habs : (x.tdiv y).natAbs ≤ x.natAbs := by
    rw [Int.natAbs_tdiv]
    exact Nat.div_le_self _ _
  rcases le_total 0 x with h | h
  · have hnonneg := Int.tdiv_nonneg h hy.le
    constructor <;> omega
  · have hnonpos : 0 ≤ -(x.tdiv y) := by
      rw [← Int.neg_tdiv]
      exact Int.tdiv_nonneg (by omega) hy.le
    constructor <;> omega

theorem div_of_pos (hx : Fits w x) (hy : 0 < y) : div w x y = some (x.tdiv y) :=
  div_eq_some.mpr ⟨hy.ne', fits_tdiv hx hy, rfl⟩

theorem mod_of_pos (hx : Fits w x) (hy : 0 < y) : mod w x y = some (x.tmod y) := by
  rw [mod, div_of_pos hx hy]
  rfl

theorem fits_maxValue (w : ℕ) : Fits w (maxValue w) := by
  have hpow := two_pow_pos w
  unfold maxValue
  constructor <;> omega

theorem fits_minValue (w : ℕ) : Fits w (minValue w) := by
  have hpow := two_pow_pos w
  unfold minValue
  constructor <;> omega

/-- **Multiplication by a positive number.** It fits exactly between the truncated quotients of the
bounds. -/
theorem fits_mul_iff (hy : 0 < y) : Fits w (x * y) ↔
    x ≤ (maxValue w).tdiv y ∧ (minValue w).tdiv y ≤ x := by
  have hpow := two_pow_pos w
  have hmax : (maxValue w).tdiv y = maxValue w / y :=
    Int.tdiv_eq_ediv_of_nonneg (by unfold maxValue; omega)
  have hmin : (minValue w).tdiv y = -(2 ^ w / y) := by
    rw [minValue, Int.neg_tdiv, Int.tdiv_eq_ediv_of_nonneg hpow.le]
  rw [hmax, hmin, Int.le_ediv_iff_mul_le hy, neg_le, Int.le_ediv_iff_mul_le hy, Int.neg_mul,
    neg_le, Fits, maxValue, Int.le_sub_one_iff]
  exact and_comm

theorem fits_ediv (hx : Fits w x) (hy : 0 < y) : Fits w (x / y) := by
  obtain ⟨hlo, hhi⟩ := hx
  rcases le_total 0 x with h | h
  · have hnonneg := Int.ediv_nonneg h hy.le
    have hle := Int.ediv_le_self y h
    constructor <;> omega
  · have hge : x ≤ x / y := by
      rw [Int.le_ediv_iff_mul_le hy]
      simpa using mul_le_mul_of_nonpos_left (show 1 ≤ y from hy) h
    have hnonpos := Int.ediv_le_ediv hy h
    rw [Int.zero_ediv] at hnonpos
    have hpow := two_pow_pos w
    constructor <;> omega

/-- Truncated division, corrected for negative dividends, is the floor. -/
theorem floor_of_tdiv (x : ℤ) (hy : 0 < y) :
    (if x.tmod y ≠ 0 ∧ x < 0 then x.tdiv y - 1 else x.tdiv y) = x / y := by
  have hdvd : x.tmod y = 0 ↔ y ∣ x := Int.dvd_iff_tmod_eq_zero.symm
  rw [Int.tdiv_eq_ediv, Int.sign_eq_one_of_pos hy]
  split_ifs with h h' h'
  · rcases h' with h' | h'
    · omega
    · exact absurd (hdvd.mpr h') h.1
  · omega
  · omega
  · rw [not_or, not_le, ← hdvd] at h'
    exact absurd ⟨h'.2, h'.1⟩ h

end MachineInt

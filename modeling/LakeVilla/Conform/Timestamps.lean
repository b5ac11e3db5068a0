import LakeVilla.Data.MachineInt
import LakeVilla.Schema.DeltaSchema

/-!
# Timestamps in another unit

`convert_timestamps` computes with signed 64-bit integers. An operation without a defined result is
a fault of its own (`Fault.undefined`), beside the statuses that Arrow knows.
-/

namespace LakeVilla.Conform

open ByteString
open Schema (TimeUnit)

/-- Why a conversion gives no array. -/
inductive Fault
  /-- an operation of the machine has no defined result -/
  | undefined
  /-- `Status::Invalid` -/
  | invalid (message : ByteString)
  /-- `Status::TypeError` -/
  | typeError (message : ByteString)
  deriving DecidableEq, Repr

/-- The result of an operation on `int64_t`. -/
def int64 : Option ℤ → Except Fault ℤ
  | some x => .ok x
  | none => .error .undefined

/-- `per_second` -/
def perSecond : TimeUnit → ℤ
  | .second => 1
  | .milli => 1000
  | .micro => 1000000
  | .nano => 1000000000

/-- `floor_div` -/
def floorDiv (value divisor : ℤ) : Except Fault ℤ := do
  let quotient ← int64 (MachineInt.div 63 value divisor)
  let remainder ← int64 (MachineInt.mod 63 value divisor)
  if remainder ≠ 0 ∧ value < 0 then int64 (MachineInt.sub 63 quotient 1) else pure quotient

def outOfRange (context : ByteString) : Fault := .invalid (context ++ ascii ": timestamp out of range")

/-- One value of the loop of `convert_timestamps`. -/
def convertTimestamp (fromRate toRate : ℤ) (context : ByteString) (value : ℤ) :
    Except Fault ℤ := do
  if fromRate ≤ toRate then
    let factor ← int64 (MachineInt.div 63 toRate fromRate)
    let highest ← int64 (MachineInt.div 63 (MachineInt.maxValue 63) factor)
    let lowest ← int64 (MachineInt.div 63 (MachineInt.minValue 63) factor)
    if highest < value ∨ value < lowest then .error (outOfRange context)
    else int64 (MachineInt.mul 63 value factor)
  else
    let divisor ← int64 (MachineInt.div 63 fromRate toRate)
    floorDiv value divisor

def convertValue (fromRate toRate : ℤ) (context : ByteString) :
    Option ℤ → Except Fault (Option ℤ)
  | none => .ok none
  | some value => some <$> convertTimestamp fromRate toRate context value

/-- `convert_timestamps`; with one unit only the time zone differs. -/
def convertTimestamps (source target : TimeUnit) (context : ByteString)
    (values : List (Option ℤ)) : Except Fault (List (Option ℤ)) :=
  if source = target then .ok values
  else values.mapM (convertValue (perSecond source) (perSecond target) context)

/-! ## One value -/

/-- The floor of `value * toRate / fromRate`. -/
def exactTimestamp (source target : TimeUnit) (value : ℤ) : ℤ :=
  (value * perSecond target).fdiv (perSecond source)

variable {value divisor factor : ℤ} {source target : TimeUnit} {context : ByteString}

theorem perSecond_pos (unit : TimeUnit) : 0 < perSecond unit := by cases unit <;> decide

theorem perSecond_fits (unit : TimeUnit) : MachineInt.Fits 63 (perSecond unit) := by
  cases unit <;> decide

/-- The finer rate is a multiple of the other. -/
theorem perSecond_dvd (h : perSecond source ≤ perSecond target) :
    perSecond source ∣ perSecond target := by
  revert h
  cases source <;> cases target <;> decide

theorem floorDiv_eq (hvalue : MachineInt.Fits 63 value) (hpos : 0 < divisor) :
    floorDiv value divisor = .ok (value / divisor) := by
  have hfloor := MachineInt.floor_of_tdiv value hpos
  have hfits := MachineInt.fits_ediv hvalue hpos
  rw [floorDiv, MachineInt.div_of_pos hvalue hpos, MachineInt.mod_of_pos hvalue hpos]
  change (if value.tmod divisor ≠ 0 ∧ value < 0 then
    int64 (MachineInt.sub 63 (value.tdiv divisor) 1) else .ok (value.tdiv divisor)) = _
  split_ifs at hfloor ⊢ with h
  · rw [MachineInt.sub, hfloor, MachineInt.exact_of_fits hfits]
    rfl
  · rw [hfloor]

/-- A coarser value is converted by a multiplication. -/
theorem exactTimestamp_of_le (hfactor : perSecond target = factor * perSecond source) :
    exactTimestamp source target value = value * factor := by
  rw [exactTimestamp, hfactor, ← mul_assoc,
    Int.mul_fdiv_cancel _ (perSecond_pos source).ne']

/-- A finer value is converted by a division, rounding down. -/
theorem exactTimestamp_of_ge (hdivisor : perSecond source = divisor * perSecond target) :
    exactTimestamp source target value = value / divisor := by
  rw [exactTimestamp, Int.fdiv_eq_ediv_of_nonneg _ (perSecond_pos source).le, hdivisor]
  exact Int.mul_ediv_mul_of_pos_left _ _ (perSecond_pos target)

/-- One value is converted exactly, or does not fit. -/
theorem convertTimestamp_eq (hvalue : MachineInt.Fits 63 value) :
    convertTimestamp (perSecond source) (perSecond target) context value =
      if MachineInt.Fits 63 (exactTimestamp source target value) then
        .ok (exactTimestamp source target value)
      else .error (outOfRange context) := by
  have hsource := perSecond_pos source
  have htarget := perSecond_pos target
  unfold convertTimestamp
  by_cases hle : perSecond source ≤ perSecond target
  · obtain ⟨factor, hfactor⟩ := perSecond_dvd hle
    rw [mul_comm] at hfactor
    have hpos : 0 < factor := (mul_pos_iff_of_pos_right hsource).mp (hfactor ▸ htarget)
    have hquotient : (perSecond target).tdiv (perSecond source) = factor := by
      rw [hfactor, Int.mul_tdiv_cancel _ hsource.ne']
    rw [if_pos hle, MachineInt.div_of_pos (perSecond_fits target) hsource, hquotient,
      exactTimestamp_of_le hfactor]
    change (do
      let highest ← int64 (MachineInt.div 63 (MachineInt.maxValue 63) factor)
      let lowest ← int64 (MachineInt.div 63 (MachineInt.minValue 63) factor)
      if highest < value ∨ value < lowest then .error (outOfRange context)
      else int64 (MachineInt.mul 63 value factor)) = _
    rw [MachineInt.div_of_pos (MachineInt.fits_maxValue 63) hpos,
      MachineInt.div_of_pos (MachineInt.fits_minValue 63) hpos]
    change (if (MachineInt.maxValue 63).tdiv factor < value ∨
        value < (MachineInt.minValue 63).tdiv factor then .error (outOfRange context)
      else int64 (MachineInt.mul 63 value factor)) = _
    have hfits := MachineInt.fits_mul_iff (w := 63) (x := value) hpos
    split_ifs with hout hin hin
    · exact absurd (hfits.mp hin) (by omega)
    · rfl
    · rw [MachineInt.mul, MachineInt.exact_of_fits hin]
      rfl
    · exact absurd (hfits.mpr (by omega)) hin
  · obtain ⟨divisor, hdivisor⟩ := perSecond_dvd (le_of_not_ge hle)
    rw [mul_comm] at hdivisor
    have hpos : 0 < divisor := (mul_pos_iff_of_pos_right htarget).mp (hdivisor ▸ hsource)
    have hquotient : (perSecond source).tdiv (perSecond target) = divisor := by
      rw [hdivisor, Int.mul_tdiv_cancel _ htarget.ne']
    rw [if_neg hle, MachineInt.div_of_pos (perSecond_fits source) htarget, hquotient,
      exactTimestamp_of_ge hdivisor, if_pos (MachineInt.fits_ediv hvalue hpos)]
    exact floorDiv_eq hvalue hpos

theorem convertValue_eq (hvalue : MachineInt.Fits 63 value) :
    convertValue (perSecond source) (perSecond target) context (some value) =
      if MachineInt.Fits 63 (exactTimestamp source target value) then
        .ok (some (exactTimestamp source target value))
      else .error (outOfRange context) := by
  rw [convertValue, convertTimestamp_eq hvalue]
  split_ifs
  · rfl
  · rfl

theorem exactTimestamp_mono {value' : ℤ} (h : value ≤ value') :
    exactTimestamp source target value ≤ exactTimestamp source target value' := by
  have hsource := perSecond_pos source
  rw [exactTimestamp, exactTimestamp, Int.fdiv_eq_ediv_of_nonneg _ hsource.le,
    Int.fdiv_eq_ediv_of_nonneg _ hsource.le]
  exact Int.ediv_le_ediv hsource (mul_le_mul_of_nonneg_right h (perSecond_pos target).le)

theorem exactTimestamp_self : exactTimestamp source source value = value := by
  rw [exactTimestamp, Int.mul_fdiv_cancel _ (perSecond_pos source).ne']

end LakeVilla.Conform

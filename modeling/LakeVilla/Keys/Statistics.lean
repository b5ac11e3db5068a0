import LakeVilla.Data.Bytes
import Mathlib.Algebra.Order.Field.Power
import Mathlib.Algebra.Order.Ring.Rat
import Mathlib.Data.List.Induction
import Mathlib.Data.Rat.Defs
import Mathlib.Data.List.ReduceOption
import Mathlib.Data.List.TakeWhile
import Mathlib.Order.Bounds.Basic
import Mathlib.Tactic.Linarith
import Mathlib.Tactic.Positivity

/-!
# The statistics of written files

Before a table is written, `computeStatistics` scans its columns for their least and greatest
values and keeps them as texts. Numbers go through `std::to_string` and `std::to_chars`, and
`stat_value` reads them back when the add action is built.

The standard library's conversions of floating-point numbers are parameters (`CharConv`); what they
are documented to do with a number is `CharConv.Correct`.
-/

namespace LakeVilla.Keys

open ByteString

/-! ## Floating-point numbers -/

/-- A finite `double`. -/
structure Double where
  negative : Bool
  significand : ℕ
  exponent : ℤ
  significand_lt : significand < 2 ^ 53
  exponent_mem : -1074 ≤ exponent ∧ exponent ≤ 971
  deriving DecidableEq

namespace Double

def value (d : Double) : ℚ := (if d.negative then -1 else 1) * d.significand * 2 ^ d.exponent

/-- A whole number. -/
def Integral (d : Double) : Prop := d.value.den = 1

instance (d : Double) : Decidable d.Integral := inferInstanceAs (Decidable (_ = _))

/-- Not zero, but smaller than every normal number. -/
def Subnormal (d : Double) : Prop := d.value ≠ 0 ∧ |d.value| < 2 ^ (-1022 : ℤ)

instance (d : Double) : Decidable d.Subnormal := inferInstanceAs (Decidable (_ ∧ _))

end Double

/-- A value of a floating-point column; a `float` stands for the `double` it is converted to. -/
inductive Floating
  | finite (d : Double)
  /-- `isnan` or `isinf` -/
  | notFinite
  deriving DecidableEq

/-! ## Conversions of the standard library -/

/-- The exceptions of `std::stoll` and `std::stod`. -/
inductive StdError
  | invalidArgument
  | outOfRange
  deriving DecidableEq, Repr

def isSpace (c : Byte) : Bool := c = 32 ∨ 9 ≤ c ∧ c ≤ 13

def InInt64 (n : ℤ) : Prop := -2 ^ 63 ≤ n ∧ n < 2 ^ 63

instance (n : ℤ) : Decidable (InInt64 n) := inferInstanceAs (Decidable (_ ∧ _))

def InInt32 (n : ℤ) : Prop := -2 ^ 31 ≤ n ∧ n < 2 ^ 31

instance (n : ℤ) : Decidable (InInt32 n) := inferInstanceAs (Decidable (_ ∧ _))

/-- The sign of a number and what follows it. -/
def splitSign : ByteString → Bool × ByteString
  | 45 :: text => (true, text)
  | 43 :: text => (false, text)
  | text => (false, text)

def withSign (negative : Bool) (n : ℕ) : ℤ := if negative then -n else n

/-- `std::stoll`: reads the longest prefix that is a number. -/
def stoll (text : ByteString) : Except StdError ℤ :=
  let (negative, text) := splitSign (text.dropWhile isSpace)
  let digits := text.takeWhile isDigit
  if digits = [] then .error .invalidArgument
  else
    let n := withSign negative (ofDecimal digits)
    if InInt64 n then .ok n else .error .outOfRange

/-- `std::to_chars` and `std::stod`. -/
structure CharConv where
  /-- the shortest digits that read back, in scientific notation -/
  scientific : Double → ByteString
  /-- fixed notation -/
  fixed : Double → ByteString
  stod : ByteString → Except StdError Double
  /-- `strtod` reports the underflow of a subnormal number (left to the implementation). -/
  reportsUnderflow : Double → Bool

namespace CharConv

variable (conv : CharConv)

/-- `std::to_chars`: fixed notation unless scientific notation is shorter. -/
def toChars (d : Double) : ByteString :=
  if (conv.fixed d).length ≤ (conv.scientific d).length then conv.fixed d else conv.scientific d

/-- `std::stod` reports an underflow. -/
def Underflows (d : Double) : Prop := d.Subnormal ∧ conv.reportsUnderflow d = true

instance (d : Double) : Decidable (conv.Underflows d) := inferInstanceAs (Decidable (_ ∧ _))

/-- What the documentation says about the number `d`. -/
structure Correct (d : Double) : Prop where
  /-- scientific notation has an exponent -/
  exponent_mem : 101 ∈ conv.scientific d
  /-- fixed notation of a whole number is the number -/
  fixed_integral : d.Integral → conv.fixed d = signedText d.negative d.value.num.natAbs
  /-- fixed notation of another number has a decimal point -/
  point_mem : ¬d.Integral → 46 ∈ conv.fixed d
  stod_underflow : conv.Underflows d → conv.stod (conv.toChars d) = .error .outOfRange
  /-- the text reads back as the number -/
  stod_toChars : ¬conv.Underflows d → ∃ d', conv.stod (conv.toChars d) = .ok d' ∧ d'.value = d.value

end CharConv

/-- `shortest_double` -/
def shortestDouble (conv : CharConv) (d : Double) : ByteString := conv.toChars d

/-! ## Least and greatest values -/

section MinMax

variable {α : Type} (lt : α → α → Bool)

/-- One row of the scan: nulls are passed over. -/
def minMaxStep (acc : Option (α × α)) : Option α → Option (α × α)
  | none => acc
  | some v =>
    match acc with
    | none => some (v, v)
    | some (lo, hi) => some (if lt v lo then v else lo, if lt hi v then v else hi)

/-- The scan of `integer_min_max`, `floating_min_max` and `string_min_max`, chunk by chunk. -/
def minMax (chunks : List (List (Option α))) : Option (α × α) :=
  chunks.foldl (fun acc chunk ↦ chunk.foldl (minMaxStep lt) acc) none

/-- The values of a column that are not null. -/
def valuesOf (chunks : List (List (Option α))) : List α := chunks.flatten.reduceOption

variable {lt}

/-- What the scan has found: two of the values, between which all of them lie. -/
structure IsMinMax {β : Type} [LinearOrder β] (f : α → β) (values : List α) (lo hi : α) : Prop where
  min_mem : lo ∈ values
  max_mem : hi ∈ values
  min_le : ∀ v ∈ values, f lo ≤ f v
  le_max : ∀ v ∈ values, f v ≤ f hi

variable {β : Type} [LinearOrder β] {f : α → β}

theorem minMaxStep_spec (hlt : ∀ a b, lt a b = true ↔ f a < f b) {values : List α}
    {acc : Option (α × α)} (hnone : acc = none → values = [])
    (hacc : ∀ lo hi, acc = some (lo, hi) → IsMinMax f values lo hi) (row : Option α) :
    (minMaxStep lt acc row = none → values ++ row.toList = []) ∧
      ∀ lo hi, minMaxStep lt acc row = some (lo, hi) →
        IsMinMax f (values ++ row.toList) lo hi := by
  cases row with
  | none => simpa [minMaxStep] using ⟨hnone, hacc⟩
  | some v =>
    cases acc with
    | none =>
      rw [hnone rfl]
      refine ⟨(fun h ↦ nomatch h), fun lo hi h ↦ ?_⟩
      obtain ⟨rfl, rfl⟩ := Prod.mk.inj (Option.some.inj h)
      constructor <;> simp
    | some e =>
      obtain ⟨lo₀, hi₀⟩ := e
      obtain ⟨hmin, hmax, hle, hge⟩ := hacc lo₀ hi₀ rfl
      refine ⟨(fun h ↦ nomatch h), fun lo hi h ↦ ?_⟩
      obtain ⟨rfl, rfl⟩ := Prod.mk.inj (Option.some.inj h)
      have hlo : f (if lt v lo₀ then v else lo₀) ≤ f lo₀ ∧
          f (if lt v lo₀ then v else lo₀) ≤ f v := by
        split
        · next h => exact ⟨((hlt _ _).mp h).le, le_rfl⟩
        · next h => exact ⟨le_rfl, not_lt.mp fun hv ↦ h ((hlt _ _).mpr hv)⟩
      have hhi : f hi₀ ≤ f (if lt hi₀ v then v else hi₀) ∧
          f v ≤ f (if lt hi₀ v then v else hi₀) := by
        split
        · next h => exact ⟨((hlt _ _).mp h).le, le_rfl⟩
        · next h => exact ⟨le_rfl, not_lt.mp fun hv ↦ h ((hlt _ _).mpr hv)⟩
      constructor
      · split <;> simp [hmin]
      · split <;> simp [hmax]
      · intro w hw
        rcases List.mem_append.mp hw with hw | hw
        · exact hlo.1.trans (hle w hw)
        · obtain rfl := Option.mem_toList.mp hw |> Option.some.inj
          exact hlo.2
      · intro w hw
        rcases List.mem_append.mp hw with hw | hw
        · exact (hge w hw).trans hhi.1
        · obtain rfl := Option.mem_toList.mp hw |> Option.some.inj
          exact hhi.2

theorem minMax_eq_foldl (chunks : List (List (Option α))) :
    minMax lt chunks = chunks.flatten.foldl (minMaxStep lt) none := by
  rw [minMax, List.foldl_flatten]

/-- The scan finds the least and the greatest value of the column, if it has any. -/
theorem minMax_spec (hlt : ∀ a b, lt a b = true ↔ f a < f b) (chunks : List (List (Option α))) :
    (minMax lt chunks = none → valuesOf chunks = []) ∧
      ∀ lo hi, minMax lt chunks = some (lo, hi) → IsMinMax f (valuesOf chunks) lo hi := by
  rw [minMax_eq_foldl, valuesOf]
  generalize chunks.flatten = rows
  induction rows using List.reverseRecOn with
  | nil => exact ⟨fun _ ↦ rfl, (fun lo hi h ↦ nomatch h)⟩
  | append_singleton rows row ih =>
    rw [List.foldl_append, List.reduceOption_append, List.reduceOption_singleton]
    exact minMaxStep_spec hlt ih.1 ih.2 row

end MinMax

/-! ## `computeStatistics` -/

/-- The values of a column as the chunks of its array; nulls are `none`. -/
inductive ColumnData
  /-- `STRING`, `LARGE_STRING` -/
  | string (chunks : List (List (Option ByteString)))
  /-- `INT8` to `INT64` and `UINT8` to `UINT32`, cast to `int64_t` -/
  | integer (chunks : List (List (Option Int64)))
  /-- `FLOAT`, `DOUBLE` -/
  | floating (chunks : List (List (Option Floating)))
  /-- `DATE32` -/
  | date (chunks : List (List (Option Int32)))
  /-- the other types: only which rows are null -/
  | other (chunks : List (List (Option Unit)))
  deriving DecidableEq

/-- A named column of an `arrow::Table`. -/
structure Column where
  name : ByteString
  data : ColumnData
  deriving DecidableEq

structure ColumnStatistics where
  name : ByteString
  /-- false: type without min/max or only nulls -/
  hasMinMax : Bool := false
  /-- min/max are JSON numbers (else strings) -/
  numeric : Bool := false
  min : ByteString := []
  max : ByteString := []
  nullCount : ℕ := 0
  deriving DecidableEq

structure TableStatistics where
  /-- -1 = unknown -/
  numRecords : ℤ := -1
  columns : List ColumnStatistics := []
  deriving DecidableEq

def nullCount {α : Type} (chunks : List (List (Option α))) : ℕ := chunks.flatten.countP (·.isNone)

namespace ColumnStatistics

def setMinMax (s : ColumnStatistics) (numeric : Bool) (min max : ByteString) : ColumnStatistics :=
  { s with hasMinMax := true, numeric := numeric, min := min, max := max }

/-- `string_min_max` -/
def stringMinMax (s : ColumnStatistics) (chunks : List (List (Option ByteString))) :
    ColumnStatistics :=
  match minMax (fun a b ↦ decide (a < b)) chunks with
  | some (min, max) => s.setMinMax false min max
  | none => s

/-- `integer_min_max` -/
def integerMinMax (s : ColumnStatistics) (chunks : List (List (Option Int64))) :
    ColumnStatistics :=
  match minMax (fun a b ↦ decide (a < b)) chunks with
  | some (min, max) => s.setMinMax true (toText min.toInt) (toText max.toInt)
  | none => s

/-- The finite values, unless there is another one. -/
def finiteChunks (chunks : List (List (Option Floating))) : Option (List (List (Option Double))) :=
  chunks.mapM fun chunk ↦ chunk.mapM fun
    | none => some none
    | some (.finite d) => some (some d)
    | some .notFinite => none

/-- `floating_min_max`: NaN and infinities have no reliable representation in JSON. -/
def floatingMinMax (conv : CharConv) (s : ColumnStatistics)
    (chunks : List (List (Option Floating))) : ColumnStatistics :=
  match finiteChunks chunks with
  | none => s
  | some chunks =>
    match minMax (fun a b ↦ decide (a.value < b.value)) chunks with
    | some (min, max) => s.setMinMax true (shortestDouble conv min) (shortestDouble conv max)
    | none => s

end ColumnStatistics

/-- The statistics of one column (the body of the loop of `computeStatistics`). -/
def columnStatistics (conv : CharConv) (c : Column) : ColumnStatistics :=
  match c.data with
  | .string chunks =>
    ColumnStatistics.stringMinMax { name := c.name, nullCount := nullCount chunks } chunks
  | .integer chunks =>
    ColumnStatistics.integerMinMax { name := c.name, nullCount := nullCount chunks } chunks
  | .floating chunks =>
    ColumnStatistics.floatingMinMax conv { name := c.name, nullCount := nullCount chunks } chunks
  -- dates, timestamps, decimals, nested types: no min/max
  | .date chunks => { name := c.name, nullCount := nullCount chunks }
  | .other chunks => { name := c.name, nullCount := nullCount chunks }

/-- `computeStatistics` of the columns of a table -/
def computeStatistics (conv : CharConv) (numRows : ℕ) (columns : List Column) :
    TableStatistics where
  numRecords := numRows
  columns := columns.map (columnStatistics conv)

/-! ### What the statistics of a column show -/

namespace Column

/-- The numbers of a column; only finite ones count. -/
def numbers (c : Column) : Set ℚ :=
  match c.data with
  | .integer chunks => {x | ∃ v ∈ valuesOf chunks, x = v.toInt}
  | .floating chunks => {x | ∃ d, .finite d ∈ valuesOf chunks ∧ x = d.value}
  | _ => ∅

/-- The finite floating-point numbers of a column. -/
def doubles (c : Column) : List Double :=
  match c.data with
  | .floating chunks => (valuesOf chunks).filterMap fun
    | .finite d => some d
    | .notFinite => none
  | _ => []

/-- The least and the greatest value of a floating-point column without NaN and infinities, as the
scan finds them. -/
def extremes (c : Column) : List Double :=
  match c.data with
  | .floating chunks =>
    match (ColumnStatistics.finiteChunks chunks).bind
        (minMax fun a b ↦ decide (a.value < b.value)) with
    | some (lo, hi) => [lo, hi]
    | none => []
  | _ => []

end Column

/-- The finite values are all the values of a column without NaN and infinities. -/
theorem ColumnStatistics.valuesOf_finiteChunks {chunks : List (List (Option Floating))}
    {finite : List (List (Option Double))} (h : finiteChunks chunks = some finite) :
    valuesOf chunks = (valuesOf finite).map .finite := by
  have hrow : ∀ {chunk : List (Option Floating)} {row : List (Option Double)},
      (chunk.mapM fun
        | none => some none
        | some (.finite d) => some (some d)
        | some .notFinite => none) = some row → chunk = row.map (Option.map .finite) := by
    intro chunk
    induction chunk with
    | nil => rintro row h; cases h; rfl
    | cons v chunk ih =>
      intro row h
      rw [List.mapM_cons] at h
      obtain ⟨w, hw, h⟩ := Option.bind_eq_some_iff.mp h
      obtain ⟨row', hrow', h⟩ := Option.bind_eq_some_iff.mp h
      cases h
      rw [ih hrow', List.map_cons]
      rcases v with _ | _ | _
      · cases hw; rfl
      · cases hw; rfl
      · cases hw
  have hchunks : chunks = finite.map (List.map (Option.map .finite)) := by
    induction chunks generalizing finite with
    | nil => cases h; rfl
    | cons chunk chunks ih =>
      rw [finiteChunks, List.mapM_cons] at h
      obtain ⟨row, hr, h⟩ := Option.bind_eq_some_iff.mp h
      obtain ⟨rest, hrest, h⟩ := Option.bind_eq_some_iff.mp h
      cases h
      rw [List.map_cons, ← hrow hr, ← ih hrest]
  rw [valuesOf, valuesOf, hchunks, ← List.map_flatten, ← List.reduceOption_map]

/-- What `computeStatistics` finds out about a column. -/
inductive Column.Scanned (conv : CharConv) (c : Column) : ColumnStatistics → Prop
  /-- no minimum and maximum -/
  | nothing {s : ColumnStatistics} (hs : s.hasMinMax = false) (hc : c.extremes = []) :
    Scanned conv c s
  | text {s : ColumnStatistics} (hs : s.numeric = false) (hc : c.extremes = []) : Scanned conv c s
  | integer {s : ColumnStatistics} {lo hi : Int64} (hs : s.numeric = true) (hc : c.extremes = [])
    (hmin : s.min = toText lo.toInt) (hmax : s.max = toText hi.toInt)
    (hlo : IsLeast c.numbers lo.toInt) (hhi : IsGreatest c.numbers hi.toInt) : Scanned conv c s
  | floating {s : ColumnStatistics} {lo hi : Double} (hm : s.hasMinMax = true)
    (hs : s.numeric = true) (hc : c.extremes = [lo, hi]) (hmem : lo ∈ c.doubles ∧ hi ∈ c.doubles)
    (hmin : s.min = shortestDouble conv lo) (hmax : s.max = shortestDouble conv hi)
    (hlo : IsLeast c.numbers lo.value) (hhi : IsGreatest c.numbers hi.value) : Scanned conv c s

theorem columnStatistics_scanned (conv : CharConv) (c : Column) :
    c.Scanned conv (columnStatistics conv c) := by
  obtain ⟨name, data⟩ := c
  cases data with
  | string chunks =>
    simp only [columnStatistics, ColumnStatistics.stringMinMax]
    split
    · exact .text rfl rfl
    · exact .nothing rfl rfl
  | integer chunks =>
    simp only [columnStatistics, ColumnStatistics.integerMinMax]
    split
    · next lo hi h =>
      have hlt : ∀ a b : Int64, decide (a < b) = true ↔ a.toInt < b.toInt := fun a b ↦ by
        rw [decide_eq_true_iff, Int64.lt_iff_toInt_lt]
      obtain ⟨hmin, hmax, hle, hge⟩ := (minMax_spec hlt chunks).2 lo hi h
      refine .integer rfl rfl rfl rfl ⟨⟨lo, hmin, rfl⟩, ?_⟩
        ⟨⟨hi, hmax, rfl⟩, ?_⟩
      · rintro x ⟨v, hv, rfl⟩
        exact_mod_cast hle v hv
      · rintro x ⟨v, hv, rfl⟩
        exact_mod_cast hge v hv
    · exact .nothing rfl rfl
  | floating chunks =>
    simp only [columnStatistics, ColumnStatistics.floatingMinMax]
    split
    · next h => exact .nothing rfl (by simp only [Column.extremes, h, Option.bind_none])
    · next finite h =>
      split
      · next lo hi hm =>
        obtain ⟨hmin, hmax, hle, hge⟩ :=
          (minMax_spec (f := Double.value) (fun a b ↦ decide_eq_true_iff) finite).2 lo hi hm
        have hvalues := ColumnStatistics.valuesOf_finiteChunks h
        have hmem : ∀ {d : Double}, .finite d ∈ valuesOf chunks ↔ d ∈ valuesOf finite := by
          intro d
          rw [hvalues, List.mem_map]
          exact ⟨fun ⟨d', hd', he⟩ ↦ Floating.finite.inj he ▸ hd', fun hd ↦ ⟨d, hd, rfl⟩⟩
        have hdoubles : ∀ {d : Double}, d ∈ valuesOf finite →
            d ∈ (⟨name, .floating chunks⟩ : Column).doubles := fun {d} hd ↦
          List.mem_filterMap.mpr ⟨.finite d, hmem.mpr hd, rfl⟩
        refine .floating rfl rfl ?_ ⟨hdoubles hmin, hdoubles hmax⟩ rfl rfl
          ⟨⟨lo, hmem.mpr hmin, rfl⟩, ?_⟩ ⟨⟨hi, hmem.mpr hmax, rfl⟩, ?_⟩
        · simp only [Column.extremes, h, Option.bind_some, hm]
        · rintro x ⟨d, hd, rfl⟩
          exact hle d (hmem.mp hd)
        · rintro x ⟨d, hd, rfl⟩
          exact hge d (hmem.mp hd)
      · next hm => exact .nothing rfl (by simp only [Column.extremes, h, Option.bind_some, hm])
  | date chunks => exact .nothing rfl rfl
  | other chunks => exact .nothing rfl rfl

/-! ## `stat_value` -/

/-- A value of a JSON document. -/
inductive Json
  | null
  | bool (b : Bool)
  | int (n : ℤ)
  | double (d : Double)
  | string (s : ByteString)
  | array (items : List Json)
  | object (members : List (ByteString × Json))

/-- The number a JSON value is. -/
def Json.number : Json → Option ℚ
  | .int n => some n
  | .double d => some d.value
  | _ => none

/-- `stat_value`: a text with one of the characters `.eE` is read as a `double`, any other text of a
number as an `int64_t`. -/
def statValue (conv : CharConv) (column : ColumnStatistics) (value : ByteString) :
    Except StdError Json :=
  if column.numeric then
    if value.any fun c ↦ c = 46 ∨ c = 101 ∨ c = 69 then .double <$> conv.stod value
    else .int <$> stoll value
  else .ok (.string value)

/-! ### Numbers that are written and read back -/

/-- A digit is neither white space nor a sign, nor one of the characters that mark a `double`. -/
theorem of_isDigit {c : Byte} (h : isDigit c = true) :
    isSpace c = false ∧ c ≠ 45 ∧ c ≠ 43 ∧ ¬(c = 46 ∨ c = 101 ∨ c = 69) := by
  simp only [isDigit, Bool.and_eq_true, decide_eq_true_eq, Fin.le_def] at h
  simp only [isSpace, decide_eq_false_iff_not, Fin.ext_iff, Fin.le_def, ne_eq]
  norm_num at h ⊢
  omega

theorem decimal_head {n : ℕ} : ∃ c text, decimal n = c :: text ∧ isDigit c = true := by
  obtain ⟨c, text, h⟩ := List.exists_cons_of_ne_nil (decimal_ne_nil n)
  exact ⟨c, text, h, isDigit_of_mem_decimal (h ▸ List.mem_cons_self)⟩

theorem splitSign_signedText (negative : Bool) (n : ℕ) :
    splitSign ((signedText negative n).dropWhile isSpace) = (negative, decimal n) := by
  obtain ⟨c, text, h, hc⟩ := decimal_head (n := n)
  obtain ⟨hspace, h45, h43, -⟩ := of_isDigit hc
  cases negative with
  | true => rfl
  | false =>
    rw [signedText, if_neg (by simp), List.nil_append, h, List.dropWhile_cons, hspace]
    unfold splitSign
    split
    · next h' => exact absurd (List.cons.inj h').1 h45
    · next h' => exact absurd (List.cons.inj h').1 h43
    · rfl

theorem stoll_signedText (negative : Bool) (n : ℕ) :
    stoll (signedText negative n) =
      if InInt64 (withSign negative n) then .ok (withSign negative n) else .error .outOfRange := by
  have hdigits : (decimal n).takeWhile isDigit = decimal n :=
    List.takeWhile_eq_self_iff.mpr fun _ hc ↦ isDigit_of_mem_decimal hc
  rw [stoll, splitSign_signedText]
  simp only [hdigits, ofDecimal_decimal, if_neg (decimal_ne_nil n)]

theorem withSign_natAbs (n : ℤ) : withSign (n < 0) n.natAbs = n := by
  unfold withSign
  split
  · next h =>
    have h := of_decide_eq_true h
    omega
  · next h =>
    have h : ¬n < 0 := of_decide_eq_false (Bool.eq_false_iff.mpr h)
    omega

/-- Whole numbers have none of the characters that mark a `double`. -/
theorem any_signedText (negative : Bool) (n : ℕ) :
    ((signedText negative n).any fun c ↦ c = 46 ∨ c = 101 ∨ c = 69) = false := by
  rw [List.any_eq_false]
  intro c hc
  rcases List.mem_append.mp hc with hc | hc
  · obtain rfl : c = 45 := by
      cases negative with
      | true => exact List.mem_singleton.mp hc
      | false => cases hc
    decide
  · exact fun h ↦ (of_isDigit (isDigit_of_mem_decimal hc)).2.2.2 (of_decide_eq_true h)

theorem statValue_signedText (conv : CharConv) {column : ColumnStatistics}
    (hnum : column.numeric = true) (negative : Bool) (n : ℕ) :
    statValue conv column (signedText negative n) =
      if InInt64 (withSign negative n) then .ok (.int (withSign negative n))
      else .error .outOfRange := by
  rw [statValue, if_pos hnum, any_signedText, if_neg (by simp), stoll_signedText]
  split <;> rfl

theorem statValue_toText (conv : CharConv) {column : ColumnStatistics}
    (hnum : column.numeric = true) {n : ℤ} (hn : InInt64 n) :
    statValue conv column (toText n) = .ok (.int n) := by
  rw [toText, statValue_signedText conv hnum, withSign_natAbs, if_pos hn]

/-! ### Floating-point numbers that are written and read back -/

theorem Double.withSign_num (d : Double) :
    withSign d.negative d.value.num.natAbs = d.value.num := by
  have hpos : (0 : ℚ) ≤ d.significand * 2 ^ d.exponent := by positivity
  unfold withSign
  cases hneg : d.negative with
  | true =>
    have hle : d.value ≤ 0 := by
      rw [Double.value, hneg, if_pos rfl, mul_assoc]
      linarith
    have hnum : d.value.num ≤ 0 := Rat.num_nonpos.mpr hle
    rw [if_pos rfl]
    omega
  | false =>
    have hge : 0 ≤ d.value := by
      rw [Double.value, hneg, if_neg (by simp), mul_assoc, one_mul]
      exact hpos
    have hnum : 0 ≤ d.value.num := Rat.num_nonneg.mpr hge
    rw [if_neg (by simp)]
    omega

theorem Double.value_of_integral {d : Double} (h : d.Integral) : d.value = d.value.num := by
  exact (Rat.coe_int_num_of_den_eq_one h).symm

namespace CharConv

variable {conv : CharConv} {d : Double}

/-- `to_chars` writes the number in fixed notation and without a decimal point. -/
def PlainInteger (conv : CharConv) (d : Double) : Prop :=
  d.Integral ∧ (conv.fixed d).length ≤ (conv.scientific d).length

instance (conv : CharConv) (d : Double) : Decidable (conv.PlainInteger d) :=
  inferInstanceAs (Decidable (_ ∧ _))

/-- The text of the number is read back without an exception: it is no whole number beyond
`int64_t` in fixed notation, and `strtod` does not report an underflow for it. -/
def Readable (conv : CharConv) (d : Double) : Prop :=
  (conv.PlainInteger d → InInt64 d.value.num) ∧ ¬conv.Underflows d

theorem Correct.toChars_of_plain (h : conv.Correct d) (hd : conv.PlainInteger d) :
    conv.toChars d = signedText d.negative d.value.num.natAbs := by
  rw [toChars, if_pos hd.2, h.fixed_integral hd.1]

theorem Correct.marked_of_not_plain (h : conv.Correct d) (hd : ¬conv.PlainInteger d) :
    ((conv.toChars d).any fun c ↦ c = 46 ∨ c = 101 ∨ c = 69) = true := by
  rw [toChars, List.any_eq_true]
  split
  · next hle => exact ⟨46, h.point_mem fun hint ↦ hd ⟨hint, hle⟩, by decide⟩
  · exact ⟨101, h.exponent_mem, by decide⟩

theorem not_underflows_of_integral (hd : d.Integral) : ¬conv.Underflows d := by
  rintro ⟨⟨hne, hlt⟩, -⟩
  rw [Double.value_of_integral hd] at hne hlt
  have hone : (1 : ℚ) ≤ |(d.value.num : ℚ)| := by
    exact_mod_cast Int.one_le_abs (Int.cast_ne_zero.mp hne)
  have hsmall : (2 : ℚ) ^ (-1022 : ℤ) < 1 := zpow_lt_one_of_neg₀ (by norm_num) (by norm_num)
  exact absurd (hone.trans_lt hlt) hsmall.asymm

variable {column : ColumnStatistics}

/-- A number whose text can be read back becomes a JSON number of its value. -/
theorem Correct.statValue_of_readable (h : conv.Correct d) (hnum : column.numeric = true)
    (hd : conv.Readable d) :
    ∃ j, statValue conv column (shortestDouble conv d) = .ok j ∧ j.number = some d.value := by
  rw [shortestDouble]
  by_cases hplain : conv.PlainInteger d
  · refine ⟨.int d.value.num, ?_, ?_⟩
    · rw [h.toChars_of_plain hplain, statValue_signedText conv hnum, d.withSign_num,
        if_pos (hd.1 hplain)]
    · rw [Json.number, ← Double.value_of_integral hplain.1]
  · obtain ⟨d', hstod, hvalue⟩ := h.stod_toChars hd.2
    refine ⟨.double d', ?_, by rw [Json.number, hvalue]⟩
    rw [statValue, if_pos hnum, if_pos (h.marked_of_not_plain hplain), hstod]
    rfl

/-- Every other number makes `stat_value` throw. -/
theorem Correct.statValue_of_not_readable (h : conv.Correct d) (hnum : column.numeric = true)
    (hd : ¬conv.Readable d) :
    statValue conv column (shortestDouble conv d) = .error .outOfRange := by
  rw [shortestDouble]
  by_cases hplain : conv.PlainInteger d
  · have hrange : ¬InInt64 d.value.num := fun hr ↦
      hd ⟨fun _ ↦ hr, not_underflows_of_integral hplain.1⟩
    rw [h.toChars_of_plain hplain, statValue_signedText conv hnum, d.withSign_num, if_neg hrange]
  · have hunder : conv.Underflows d := by
      by_contra hu
      exact hd ⟨fun hp ↦ absurd hp hplain, hu⟩
    rw [statValue, if_pos hnum, if_pos (h.marked_of_not_plain hplain), h.stod_underflow hunder]
    rfl

end CharConv

end LakeVilla.Keys

import LakeVilla.Keys.Statistics

/-!
# Keys and the files that may hold them

A key is a text that is looked up in the first column of a table. `KeyMatcher` classifies a data
file by the statistics of that column, without reading it.

Arrow's scalars are a parameter (`Arrow`): a text is a literal of a type or not. Values of types
other than strings, integers and dates stay abstract.
-/

namespace LakeVilla.Keys

open ByteString

/-! ## Scalars -/

/-- The types of columns, as far as keys tell them apart. -/
inductive DataType
  | int8
  | int16
  | int32
  | int64
  | date32
  | string
  | largeString
  | other (id : ℕ)
  deriving DecidableEq, Repr

/-- A value of a column that is not null; `σ` are the values of the other types. -/
inductive Scalar (σ : Type)
  | number (n : ℤ)
  | text (s : ByteString)
  | other (v : σ)
  deriving DecidableEq, Repr

variable {σ : Type}

/-- `KeyMatcher::Kind` -/
inductive Kind
  | integer
  | string
  | date
  | other
  deriving DecidableEq, Repr

def DataType.kind : DataType → Kind
  | .int8 | .int16 | .int32 | .int64 => .integer
  | .date32 => .date
  | .string | .largeString => .string
  | .other _ => .other

namespace Scalar

def HasKind : Scalar σ → Kind → Prop
  | .number _, .integer | .number _, .date | .text _, .string | .other _, .other => True
  | _, _ => False

/-- The values of a type. -/
def HasType (v : Scalar σ) (type : DataType) : Prop := v.HasKind type.kind

theorem HasKind.eq_number {v : Scalar σ} {kind : Kind} (h : v.HasKind kind)
    (hkind : kind = .integer ∨ kind = .date) : ∃ n, v = .number n := by
  rcases hkind with rfl | rfl
  · cases v <;> first | exact ⟨_, rfl⟩ | exact h.elim
  · cases v <;> first | exact ⟨_, rfl⟩ | exact h.elim

theorem HasKind.eq_text {v : Scalar σ} (h : v.HasKind .string) : ∃ s, v = .text s := by
  cases v <;> first | exact ⟨_, rfl⟩ | exact h.elim

/-- Two values of one type have the same shape. -/
theorem HasType.shapes {v k : Scalar σ} {type : DataType} (hv : v.HasType type)
    (hk : k.HasType type) :
    (∃ n m, v = .number n ∧ k = .number m) ∨ (∃ s t, v = .text s ∧ k = .text t) ∨
      ∃ x y, v = .other x ∧ k = .other y := by
  unfold HasType at hv hk
  generalize type.kind = kind at hv hk
  cases v with
  | number n =>
    cases k with
    | number m => exact .inl ⟨n, m, rfl, rfl⟩
    | text s => cases kind <;> first | exact hv.elim | exact hk.elim
    | other y => cases kind <;> first | exact hv.elim | exact hk.elim
  | text s =>
    cases k with
    | number m => cases kind <;> first | exact hv.elim | exact hk.elim
    | text t => exact .inr (.inl ⟨s, t, rfl, rfl⟩)
    | other y => cases kind <;> first | exact hv.elim | exact hk.elim
  | other x =>
    cases k with
    | number m => cases kind <;> first | exact hv.elim | exact hk.elim
    | text t => cases kind <;> first | exact hv.elim | exact hk.elim
    | other y => exact .inr (.inr ⟨x, y, rfl, rfl⟩)

end Scalar

def Scalar.toNumber : Scalar σ → ℤ
  | .number n => n
  | _ => 0

/-- `arrow::Scalar::Parse` and `Scalar::Equals`. -/
structure Arrow (σ : Type) where
  parse : DataType → ByteString → Option (Scalar σ)
  equals : σ → σ → Bool
  parse_hasType : ∀ {type text v}, parse type text = some v → v.HasType type
  parse_string : ∀ text, parse .string text = some (.text text)
  parse_largeString : ∀ text, parse .largeString text = some (.text text)

/-- Every text is a literal of a string type, and denotes itself. -/
theorem Arrow.text_eq (arrow : Arrow σ) {type : DataType} {key s : ByteString}
    (h : arrow.parse type key = some (.text s)) : s = key := by
  have htype := arrow.parse_hasType h
  cases type with
  | string => exact Scalar.text.inj (Option.some.inj (h.symm.trans (arrow.parse_string key)))
  | largeString =>
    exact Scalar.text.inj (Option.some.inj (h.symm.trans (arrow.parse_largeString key)))
  | _ => exact htype.elim

/-- A value equals the value that a text denotes. -/
def Arrow.Equal (arrow : Arrow σ) : Scalar σ → Scalar σ → Prop
  | .number n, .number k => n = k
  | .text s, .text k => s = k
  | .other v, .other k => arrow.equals v k = true
  | _, _ => False

theorem Arrow.Equal.eq_number {arrow : Arrow σ} {v : Scalar σ} {n : ℤ}
    (h : arrow.Equal v (.number n)) : v = .number n := by
  cases v with
  | number m => exact congrArg Scalar.number h
  | text s => exact h.elim
  | other x => exact h.elim

theorem Arrow.Equal.eq_text {arrow : Arrow σ} {v : Scalar σ} {s : ByteString}
    (h : arrow.Equal v (.text s)) : v = .text s := by
  cases v with
  | number m => exact h.elim
  | text t => exact congrArg Scalar.text h
  | other x => exact h.elim

/-- A value of a column equals a key. -/
def Arrow.HasKey (arrow : Arrow σ) (type : DataType) (key : ByteString) (v : Scalar σ) : Prop :=
  ∃ k, arrow.parse type key = some k ∧ arrow.Equal v k

instance (arrow : Arrow σ) : (v k : Scalar σ) → Decidable (arrow.Equal v k)
  | .number n, .number k => inferInstanceAs (Decidable (n = k))
  | .text s, .text k => inferInstanceAs (Decidable (s = k))
  | .other v, .other k => inferInstanceAs (Decidable (arrow.equals v k = true))
  | .number _, .text _ | .number _, .other _ | .text _, .number _ | .text _, .other _
  | .other _, .number _ | .other _, .text _ => isFalse id

instance (arrow : Arrow σ) (type : DataType) (key : ByteString) (v : Scalar σ) :
    Decidable (arrow.HasKey type key v) :=
  match h : arrow.parse type key with
  | some k => decidable_of_iff (arrow.Equal v k)
      ⟨fun he ↦ ⟨k, h, he⟩, fun ⟨_, hk', he⟩ ↦ Option.some.inj (h.symm.trans hk') ▸ he⟩
  | none => isFalse fun ⟨_, hk, _⟩ ↦ nomatch h.symm.trans hk

/-! ## `KeyMatcher` -/

/-- `STRING_STATS_PREFIX` -/
def stringStatsPrefix : ℕ := 32

/-- `parse_integer`: the whole text is a number that fits into `int64_t`. -/
def parseInteger (text : ByteString) : Option ℤ :=
  let (negative, digits) :=
    match text with
    | 45 :: text => (true, text)
    | text => (false, text)
  if digits ≠ [] ∧ digits.all isDigit ∧ InInt64 (withSign negative (ofDecimal digits)) then
    some (withSign negative (ofDecimal digits))
  else none

theorem parseInteger_toText {n : ℤ} (hn : InInt64 n) : parseInteger (toText n) = some n := by
  obtain ⟨c, text, hdec, hc⟩ := decimal_head (n := n.natAbs)
  obtain ⟨-, h45, -, -⟩ := of_isDigit hc
  have hall : (decimal n.natAbs).all isDigit = true :=
    List.all_eq_true.mpr fun _ hc ↦ isDigit_of_mem_decimal hc
  have hsplit : (match toText n with
      | 45 :: text => (true, text)
      | text => (false, text)) = (decide (n < 0), decimal n.natAbs) := by
    rw [toText, signedText]
    by_cases hneg : n < 0
    · simp [hneg]
    · simp only [hneg, decide_false, Bool.false_eq_true, if_false, List.nil_append, hdec]
      split
      · next h => exact absurd (List.cons.inj h).1 h45
      · rfl
  have hvalue : withSign (decide (n < 0)) (ofDecimal (decimal n.natAbs)) = n := by
    rw [ofDecimal_decimal, withSign_natAbs]
  unfold parseInteger
  rw [hsplit]
  simp only [hvalue]
  exact if_pos ⟨decimal_ne_nil _, hall, hn⟩

/-- `parse_date` -/
def parseDate (arrow : Arrow σ) (text : ByteString) : Option ℤ :=
  match arrow.parse .date32 text with
  | some (.number n) => some n
  | _ => none

/-- `KeyMatch` -/
inductive KeyMatch
  | none
  | possible
  | exact
  deriving DecidableEq, Repr

structure KeyMatcher (σ : Type) where
  kind : Kind := .other
  key : ByteString
  number : ℤ := 0
  scalar : Option (Scalar σ) := none
  /-- the key is a value of the column's type (otherwise no row has it) -/
  valid : Bool := false
  deriving DecidableEq, Repr

namespace KeyMatcher

/-- The constructor. -/
def make (arrow : Arrow σ) (type : DataType) (key : ByteString) : KeyMatcher σ :=
  match arrow.parse type key with
  | none => { key := key }
  | some v =>
    { kind := type.kind
      key := key
      number := v.toNumber
      scalar := some v
      valid := true }

/-- A number between the least and the greatest one. -/
def classifyNumber (number : ℤ) (low high : Option ℤ) (records : ℤ) : KeyMatch :=
  match low, high with
  | some low, some high =>
    if number < low ∨ number > high then .none
    else if records = 1 ∧ low = number ∧ high = number then .exact
    else .possible
  | _, _ => .possible

/-- The byte order of UTF-8. A truncated minimum is a prefix of the real one; the real maximum
starts with the first characters of a truncated one. -/
def classifyText (key min max : ByteString) (records : ℤ) : KeyMatch :=
  if key < min then .none
  else if max < key ∧
      (codePoints max < stringStatsPrefix ∨ ¬firstCodePoints max stringStatsPrefix <+: key) then
    .none
  else if records = 1 ∧ min = key ∧ max = key ∧ codePoints key < stringStatsPrefix then .exact
  else .possible

/-- `classify`: `none` is an unknown minimum or maximum, -1 an unknown number of records. -/
def classify (arrow : Arrow σ) (m : KeyMatcher σ) (min max : Option ByteString) (records : ℤ) :
    KeyMatch :=
  if m.valid = false ∨ records = 0 then .none
  else
    match min, max with
    | some min, some max =>
      match m.kind with
      | .integer => classifyNumber m.number (parseInteger min) (parseInteger max) records
      | .date => classifyNumber m.number (parseDate arrow min) (parseDate arrow max) records
      | .string => classifyText m.key min max records
      -- e.g. timestamps, whose statistics are truncated
      | .other => .possible
    | _, _ => .possible

/-- `equals` -/
def equals (arrow : Arrow σ) (m : KeyMatcher σ) : Scalar σ → Bool
  | .text s => s = m.key
  | .number n => n = m.number
  | .other v =>
    match m.scalar with
    | some (.other k) => arrow.equals v k
    | _ => false

theorem make_of_some {arrow : Arrow σ} {type : DataType} {key : ByteString} {v : Scalar σ}
    (h : arrow.parse type key = some v) : make arrow type key =
      { kind := type.kind, key := key, number := v.toNumber, scalar := some v, valid := true } := by
  rw [make, h]

theorem valid_make {arrow : Arrow σ} {type : DataType} {key : ByteString} :
    (make arrow type key).valid = true ↔ ∃ v, arrow.parse type key = some v := by
  unfold make
  split
  · next h => simp [h]
  · next v h => simp [h]

/-- The matcher of a valid key finds the values that equal it. -/
theorem equals_make_iff {arrow : Arrow σ} {type : DataType} {key : ByteString} {v : Scalar σ}
    (hv : v.HasType type) (hvalid : (make arrow type key).valid = true) :
    (make arrow type key).equals arrow v = true ↔ arrow.HasKey type key v := by
  obtain ⟨k, hk⟩ := valid_make.mp hvalid
  have hkey : arrow.HasKey type key v ↔ arrow.Equal v k :=
    ⟨fun ⟨k', hk', he⟩ ↦ Option.some.inj (hk ▸ hk') ▸ he, fun he ↦ ⟨k, hk, he⟩⟩
  rw [hkey, make_of_some hk]
  rcases hv.shapes (arrow.parse_hasType hk) with ⟨n, m, rfl, rfl⟩ | ⟨s, t, rfl, rfl⟩ | ⟨x, y, rfl, rfl⟩
  · exact decide_eq_true_iff
  · obtain rfl := arrow.text_eq hk
    exact decide_eq_true_iff
  · exact Iff.rfl

/-! ### What the classification means -/

theorem classifyNumber_ne_none {number records : ℤ} {low high : Option ℤ}
    (hlow : ∀ l ∈ low, l ≤ number) (hhigh : ∀ h ∈ high, number ≤ h) :
    classifyNumber number low high records ≠ .none := by
  unfold classifyNumber
  split
  · next l h =>
    have hl : l ≤ number := hlow l rfl
    have hh : number ≤ h := hhigh h rfl
    rw [if_neg (by omega)]
    split <;> exact fun h ↦ nomatch h
  · exact fun h ↦ nomatch h

theorem classifyNumber_eq_exact_iff {number records : ℤ} {low high : Option ℤ} :
    classifyNumber number low high records = .exact ↔
      records = 1 ∧ low = some number ∧ high = some number := by
  constructor
  · intro h
    unfold classifyNumber at h
    split at h
    · split_ifs at h with _ he
      obtain ⟨hrec, rfl, rfl⟩ := he
      exact ⟨hrec, rfl, rfl⟩
    · cases h
  · rintro ⟨rfl, rfl, rfl⟩
    simp [classifyNumber]

theorem classifyText_eq_none_iff {key min max : ByteString} {records : ℤ} :
    classifyText key min max records = .none ↔ key < min ∨ max < key ∧
      (codePoints max < stringStatsPrefix ∨ ¬firstCodePoints max stringStatsPrefix <+: key) := by
  unfold classifyText
  split_ifs with h₁ h₂ h₃
  · exact ⟨fun _ ↦ .inl h₁, fun _ ↦ rfl⟩
  · exact ⟨fun _ ↦ .inr h₂, fun _ ↦ rfl⟩
  · exact ⟨(fun h ↦ nomatch h), fun h ↦ absurd h (not_or.mpr ⟨h₁, h₂⟩)⟩
  · exact ⟨(fun h ↦ nomatch h), fun h ↦ absurd h (not_or.mpr ⟨h₁, h₂⟩)⟩

theorem classifyText_eq_exact_iff {key min max : ByteString} {records : ℤ} :
    classifyText key min max records = .exact ↔
      records = 1 ∧ min = key ∧ max = key ∧ codePoints key < stringStatsPrefix := by
  constructor
  · intro h
    unfold classifyText at h
    split_ifs at h with h₁ h₂ h₃
    exact h₃
  · rintro ⟨rfl, rfl, rfl, hshort⟩
    rw [classifyText, if_neg (lt_irrefl _), if_neg (fun h ↦ lt_irrefl _ h.1),
      if_pos ⟨rfl, rfl, rfl, hshort⟩]

/-- A key up to a text that starts with the first characters of `max` is not missed because of a
maximum that was cut off. -/
theorem prefix_of_le {key max whole : ByteString} (hmax : max < key) (hkey : key ≤ whole)
    (hstart : firstCodePoints max stringStatsPrefix <+: whole) :
    firstCodePoints max stringStatsPrefix <+: key := by
  obtain ⟨rest, rfl⟩ := hstart
  exact prefix_of_between ((le_of_isPrefix (isPrefix_firstCodePoints _ _)).trans hmax.le) hkey

end KeyMatcher

/-! ## Valid statistics -/

section Valid

variable (arrow : Arrow σ) (type : DataType) (values : List (Scalar σ))

/-- `min` bounds the values of a column from below (a truncated minimum is below the real one). -/
def ValidMin (min : ByteString) : Prop :=
  match type.kind with
  | .integer => ∀ low ∈ parseInteger min, ∀ n, .number n ∈ values → low ≤ n
  | .date => ∀ low ∈ parseDate arrow min, ∀ n, .number n ∈ values → low ≤ n
  | .string => ∀ s, .text s ∈ values → min ≤ s
  | .other => True

/-- `max` is the truncated greatest value: its first characters, and perhaps a character more. -/
def TruncatedMax (max : ByteString) : Prop :=
  ∃ whole c : ByteString, .text whole ∈ values ∧ (∀ s, .text s ∈ values → s ≤ whole) ∧
    stringStatsPrefix < codePoints whole ∧ (∀ b ∈ c.head?, isLead b = true) ∧
    max = firstCodePoints whole stringStatsPrefix ++ c

/-- `max` bounds the values of a column from above. -/
def ValidMax (max : ByteString) : Prop :=
  match type.kind with
  | .integer => ∀ high ∈ parseInteger max, ∀ n, .number n ∈ values → n ≤ high
  | .date => ∀ high ∈ parseDate arrow max, ∀ n, .number n ∈ values → n ≤ high
  | .string => (∀ s, .text s ∈ values → s ≤ max) ∨ TruncatedMax values max
  | .other => True

variable {arrow type values}

theorem TruncatedMax.firstCodePoints_eq {max : ByteString} (h : TruncatedMax values max) :
    ∃ whole, .text whole ∈ values ∧ (∀ s, .text s ∈ values → s ≤ whole) ∧
      firstCodePoints max stringStatsPrefix <+: whole ∧ stringStatsPrefix ≤ codePoints max := by
  obtain ⟨whole, c, hmem, hle, hlong, hc, rfl⟩ := h
  have hn := codePoints_firstCodePoints hlong.le
  refine ⟨whole, hmem, hle, ?_, ?_⟩
  · have happ := firstCodePoints_append (firstCodePoints whole stringStatsPrefix) hc
    rw [hn] at happ
    rw [happ]
    exact isPrefix_firstCodePoints _ _
  · rw [codePoints, List.countP_append]
    exact hn.symm.le.trans (Nat.le_add_right _ _)

namespace KeyMatcher

variable {key : ByteString} {min max : Option ByteString} {records : ℤ}

/-- A key that is a literal of the type, in a file with rows and statistics. -/
theorem classify_some {k : Scalar σ} (hk : arrow.parse type key = some k) (hrecords : records ≠ 0)
    (tmin tmax : ByteString) :
    classify arrow (make arrow type key) (some tmin) (some tmax) records =
      match type.kind with
      | .integer => classifyNumber k.toNumber (parseInteger tmin) (parseInteger tmax) records
      | .date => classifyNumber k.toNumber (parseDate arrow tmin) (parseDate arrow tmax) records
      | .string => classifyText key tmin tmax records
      | .other => .possible := by
  have hvalid : ¬(true = false ∨ records = 0) := by simp [hrecords]
  simp only [make_of_some hk, classify, if_neg hvalid]

/-- Without a minimum or a maximum every file with rows may hold the key. -/
theorem classify_unknown {k : Scalar σ} (hk : arrow.parse type key = some k)
    (hrecords : records ≠ 0) (h : min = none ∨ max = none) :
    classify arrow (make arrow type key) min max records = .possible := by
  have hvalid : ¬(true = false ∨ records = 0) := by simp [hrecords]
  simp only [make_of_some hk, classify, if_neg hvalid]
  rcases h with rfl | rfl
  · rfl
  · cases min <;> rfl

theorem classify_of_not_valid {m : KeyMatcher σ} (h : m.valid = false ∨ records = 0) :
    classify arrow m min max records = .none := by
  unfold classify
  exact if_pos h

/-- A statistics text is a literal of the key (of a truncated text it cannot be told). -/
def Denotes (arrow : Arrow σ) (type : DataType) (key text : ByteString) : Prop :=
  ∃ k, arrow.parse type key = some k ∧
    match type.kind with
    | .integer => parseInteger text = some k.toNumber
    | .date => parseDate arrow text = some k.toNumber
    | .string => text = key ∧ codePoints key < stringStatsPrefix
    | .other => False

/-- A file is exact if it has one record and its minimum and maximum are both the key. -/
theorem classify_eq_exact_iff :
    classify arrow (make arrow type key) min max records = .exact ↔
      records = 1 ∧ (∃ t ∈ min, Denotes arrow type key t) ∧ ∃ t ∈ max, Denotes arrow type key t := by
  cases hk : arrow.parse type key with
  | none =>
    have hvalid : (make arrow type key).valid = false := by rw [make, hk]
    rw [classify_of_not_valid (.inl hvalid)]
    refine iff_of_false (fun h ↦ nomatch h) ?_
    rintro ⟨-, ⟨t, -, k, hk', -⟩, -⟩
    cases hk.symm.trans hk'
  | some k =>
  by_cases hrecords : records = 0
  · rw [classify_of_not_valid (.inr hrecords)]
    refine iff_of_false (fun h ↦ nomatch h) ?_
    rintro ⟨h, -⟩
    omega
  · cases min with
    | none =>
      rw [classify_unknown hk hrecords (.inl rfl)]
      refine iff_of_false (fun h ↦ nomatch h) ?_
      rintro ⟨-, ⟨t, ht, -⟩, -⟩
      cases ht
    | some tmin =>
    cases max with
    | none =>
      rw [classify_unknown hk hrecords (.inr rfl)]
      refine iff_of_false (fun h ↦ nomatch h) ?_
      rintro ⟨-, -, t, ht, -⟩
      cases ht
    | some tmax =>
      simp only [classify_some hk hrecords, Option.mem_some_iff, exists_eq_left', Denotes, hk,
        Option.some.injEq]
      cases type.kind with
      | integer => exact classifyNumber_eq_exact_iff
      | date => exact classifyNumber_eq_exact_iff
      | string =>
        rw [classifyText_eq_exact_iff]
        tauto
      | other => simp

/-- **Completeness.** A file with a row of the key is not dropped. -/
theorem classify_ne_none (hmin : ∀ t ∈ min, ValidMin arrow type values t)
    (hmax : ∀ t ∈ max, ValidMax arrow type values t) (hrecords : records ≠ 0) {v : Scalar σ}
    (hv : v ∈ values) (hkey : arrow.HasKey type key v) :
    classify arrow (make arrow type key) min max records ≠ .none := by
  obtain ⟨k, hk, hequal⟩ := hkey
  cases min with
  | none => simp [classify_unknown hk hrecords (.inl rfl)]
  | some tmin =>
  cases max with
  | none => simp [classify_unknown hk hrecords (.inr rfl)]
  | some tmax =>
    have hmin := hmin tmin rfl
    have hmax := hmax tmax rfl
    have hktype : k.HasKind type.kind := arrow.parse_hasType hk
    rw [classify_some hk hrecords]
    rw [ValidMin] at hmin
    rw [ValidMax] at hmax
    cases hkind : type.kind with
    | integer =>
      rw [hkind] at hmin hmax hktype
      obtain ⟨n, rfl⟩ := hktype.eq_number (.inl rfl)
      rw [hequal.eq_number] at hv
      exact classifyNumber_ne_none (fun l hl ↦ hmin l hl n hv) fun h hh ↦ hmax h hh n hv
    | date =>
      rw [hkind] at hmin hmax hktype
      obtain ⟨n, rfl⟩ := hktype.eq_number (.inr rfl)
      rw [hequal.eq_number] at hv
      exact classifyNumber_ne_none (fun l hl ↦ hmin l hl n hv) fun h hh ↦ hmax h hh n hv
    | string =>
      rw [hkind] at hmin hmax hktype
      obtain ⟨s, rfl⟩ := hktype.eq_text
      obtain rfl := arrow.text_eq hk
      rw [hequal.eq_text] at hv
      rw [Ne, classifyText_eq_none_iff, not_or, not_and]
      refine ⟨not_lt.mpr (hmin s hv), fun hlt ↦ ?_⟩
      rcases hmax with hmax | hmax
      · exact absurd hlt (not_lt.mpr (hmax s hv))
      · obtain ⟨whole, -, hle, hstart, hlong⟩ := hmax.firstCodePoints_eq
        exact not_or.mpr ⟨not_lt.mpr hlong, not_not.mpr (prefix_of_le hlt (hle s hv) hstart)⟩
    | other => exact fun h ↦ nomatch h

/-- **Exactness.** In a file that is reported `exact` every value that is not null has the key. -/
theorem hasKey_of_exact (htype : ∀ v ∈ values, v.HasType type)
    (hmin : ∀ t ∈ min, ValidMin arrow type values t)
    (hmax : ∀ t ∈ max, ValidMax arrow type values t)
    (h : classify arrow (make arrow type key) min max records = .exact) :
    records = 1 ∧ ∀ v ∈ values, arrow.HasKey type key v := by
  have hrecords : records ≠ 0 := fun h0 ↦ by
    rw [classify_of_not_valid (.inr h0)] at h
    cases h
  cases hk : arrow.parse type key with
  | none =>
    have hvalid : (make arrow type key).valid = false := by rw [make, hk]
    rw [classify_of_not_valid (.inl hvalid)] at h
    cases h
  | some k =>
  cases min with
  | none =>
    rw [classify_unknown hk hrecords (.inl rfl)] at h
    cases h
  | some tmin =>
  cases max with
  | none =>
    rw [classify_unknown hk hrecords (.inr rfl)] at h
    cases h
  | some tmax =>
    have hmin := hmin tmin rfl
    have hmax := hmax tmax rfl
    have hktype : k.HasKind type.kind := arrow.parse_hasType hk
    rw [classify_some hk hrecords] at h
    rw [ValidMin] at hmin
    rw [ValidMax] at hmax
    simp only [Scalar.HasType] at htype
    -- every value lies between the bounds, which are the key
    cases hkind : type.kind with
    | integer =>
      rw [hkind] at h hmin hmax hktype htype
      obtain ⟨n, rfl⟩ := hktype.eq_number (.inl rfl)
      obtain ⟨hrec, hlow, hhigh⟩ := classifyNumber_eq_exact_iff.mp h
      refine ⟨hrec, fun v hv ↦ ?_⟩
      obtain ⟨m, rfl⟩ := (htype v hv).eq_number (.inl rfl)
      exact ⟨_, hk, le_antisymm (hmax n hhigh m hv) (hmin n hlow m hv)⟩
    | date =>
      rw [hkind] at h hmin hmax hktype htype
      obtain ⟨n, rfl⟩ := hktype.eq_number (.inr rfl)
      obtain ⟨hrec, hlow, hhigh⟩ := classifyNumber_eq_exact_iff.mp h
      refine ⟨hrec, fun v hv ↦ ?_⟩
      obtain ⟨m, rfl⟩ := (htype v hv).eq_number (.inr rfl)
      exact ⟨_, hk, le_antisymm (hmax n hhigh m hv) (hmin n hlow m hv)⟩
    | string =>
      rw [hkind] at h hmin hmax hktype htype
      obtain ⟨s, rfl⟩ := hktype.eq_text
      obtain rfl := arrow.text_eq hk
      obtain ⟨hrec, rfl, rfl, hshort⟩ := classifyText_eq_exact_iff.mp h
      refine ⟨hrec, fun v hv ↦ ?_⟩
      obtain ⟨t, rfl⟩ := (htype v hv).eq_text
      have hle : ∀ s, .text s ∈ values → s ≤ tmax := by
        refine hmax.resolve_right fun htrunc ↦ ?_
        obtain ⟨-, -, -, -, hlong⟩ := htrunc.firstCodePoints_eq
        exact absurd hshort (not_lt.mpr hlong)
      exact ⟨_, hk, le_antisymm (hle t hv) (hmin t hv)⟩
    | other =>
      rw [hkind] at h
      cases h

end KeyMatcher

end Valid

end LakeVilla.Keys

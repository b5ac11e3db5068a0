import LakeVilla.Conform.Timestamps

/-!
# Arrow arrays

Structs, lists and maps are arrays with children: the children of a struct are not sliced by its
offset, and a list has its elements between two offsets of a common child. All other arrays are
opaque to `conform_to_schema`, and given by their values.

`value` is what an array means: its value at a position, at any depth. The value of a map is the
list of its entries, which are structs of a key and an item.
-/

namespace LakeVilla.Conform

open ByteString
open Schema (ArrowType FieldInfo)

/-! ## Values -/

inductive Scalar
  | int (n : ℤ)
  | other (text : ByteString)
  deriving DecidableEq, Repr

inductive Value
  | null
  | scalar (s : Scalar)
  | list (values : List Value)
  | struct (fields : List (ByteString × Value))

def Value.isNull : Value → Bool
  | .null => true
  | _ => false

@[simp] theorem Value.isNull_eq_true {v : Value} : v.isNull = true ↔ v = .null := by
  cases v <;> simp [Value.isNull]

/-- A value that the field may hold. -/
def Allowed (f : FieldInfo) (v : Value) : Prop := v.isNull = true → f.nullable = true

mutual

/-- Below the value there is no null where the type does not allow it. -/
def Satisfies : ArrowType → Value → Prop
  | .list f t, .list values | .largeList f t, .list values =>
    ∀ v ∈ values, Allowed f v ∧ Satisfies t v
  | .map keyField keys itemField items _, .list entries => ∀ e ∈ entries,
    match e with
    | .struct [(_, k), (_, v)] =>
      (Allowed keyField k ∧ Satisfies keys k) ∧ Allowed itemField v ∧ Satisfies items v
    | _ => True
  | .struct fields, .struct values => FieldsSatisfied fields values
  | _, _ => True

def FieldsSatisfied : List (FieldInfo × ArrowType) → List (ByteString × Value) → Prop
  | (f, t) :: fields, (_, v) :: values =>
    (Allowed f v ∧ Satisfies t v) ∧ FieldsSatisfied fields values
  | _, _ => True

end

theorem satisfies_null (t : ArrowType) : Satisfies t .null := by
  cases t <;> simp [Satisfies]

/-! ## Arrays -/

inductive ArrowArray
  /-- an array whose children, if any, are left to Arrow -/
  | plain (type : ArrowType) (values : List Value)
  | struct (fields : List (FieldInfo × ArrowType)) (length offset : ℕ)
    (validity : Option (List Bool)) (children : List ArrowArray)
  /-- a list, a large list or a map -/
  | list (type : ArrowType) (length offset : ℕ) (validity : Option (List Bool))
    (offsets : List ℕ) (child : ArrowArray)

/-- A bit of the validity bitmap; without a bitmap nothing is null. -/
def isValid (validity : Option (List Bool)) (i : ℕ) : Bool :=
  match validity with
  | some bits => bits.getD i false
  | none => true

namespace ArrowArray

def type : ArrowArray → ArrowType
  | .plain type _ | .list type _ _ _ _ _ => type
  | .struct fields _ _ _ _ => .struct fields

def length : ArrowArray → ℕ
  | .plain _ values => values.length
  | .struct _ length _ _ _ | .list _ length _ _ _ _ => length

@[simp] theorem type_list {type : ArrowType} {length offset : ℕ} {validity : Option (List Bool)}
    {offsets : List ℕ} {child : ArrowArray} :
    (list type length offset validity offsets child).type = type := rfl

mutual

/-- The value at a position. -/
def value : ArrowArray → ℕ → Value
  | .plain _ values, i => values.getD i .null
  | .struct fields _ offset validity children, i =>
    if isValid validity (offset + i) then .struct (childValues fields children (offset + i))
    else .null
  | .list _ _ offset validity offsets child, i =>
    if isValid validity (offset + i) then
      .list ((List.range' (offsets.getD (offset + i) 0)
        (offsets.getD (offset + i + 1) 0 - offsets.getD (offset + i) 0)).map fun j ↦ child.value j)
    else .null

def childValues : List (FieldInfo × ArrowType) → List ArrowArray → ℕ → List (ByteString × Value)
  | (f, _) :: fields, child :: children, i =>
    (f.name, child.value i) :: childValues fields children i
  | _, _, _ => []

end

/-- The type of the elements of a list, or of the entries of a map. -/
def elementType : ArrowType → Option ArrowType
  | .list _ t | .largeList _ t => some t
  | .map keyField keys itemField items _ => some (.struct [(keyField, keys), (itemField, items)])
  | _ => none

/-- The values of an array without children. -/
def PlainValid : ArrowType → List Value → Prop
  | .null, values => ∀ v ∈ values, v = .null
  | .timestamp _ _, values => ∀ v ∈ values, v = .null ∨ ∃ n, v = .scalar (.int n)
  | .struct _, _ | .list _ _, _ | .largeList _ _, _ | .map _ _ _ _ _, _ => False
  | _, _ => True

mutual

/-- Arrow's arrays are valid: children have the type that is declared and reach as far as their
parent. -/
def Valid : ArrowArray → Prop
  | .plain type values => PlainValid type values
  | .struct fields length offset _ children => ChildrenValid fields (offset + length) children
  | .list type length offset _ offsets child =>
    child.Valid ∧ elementType type = some child.type ∧
      ∀ i < length, offsets.getD (offset + i + 1) 0 ≤ child.length

def ChildrenValid : List (FieldInfo × ArrowType) → ℕ → List ArrowArray → Prop
  | [], _, [] => True
  | (_, t) :: fields, n, child :: children =>
    child.Valid ∧ child.type = t ∧ n ≤ child.length ∧ ChildrenValid fields n children
  | _, _, _ => False

end

/-- `null_count`, for arrays of a type that Delta has -/
def nullCount (a : ArrowArray) : ℕ := (List.range a.length).countP fun i ↦ (a.value i).isNull

theorem nullCount_eq_zero {a : ArrowArray} :
    a.nullCount = 0 ↔ ∀ i < a.length, (a.value i).isNull = false := by
  simp only [nullCount, List.countP_eq_zero, List.mem_range, Bool.not_eq_true]

end ArrowArray

/-! ## Arrow's functions -/

mutual

/-- A value and what `Cast` makes of it: nulls stay nulls at every depth, and fields of structs are
matched by their name. -/
def Keeps : ArrowType → Value → Value → Prop
  | .list _ t, v, w | .largeList _ t, v, w =>
    v = .null ∧ w = .null ∨
      ∃ vs ws, v = .list vs ∧ w = .list ws ∧ List.Forall₂ (Keeps t) vs ws
  | .map _ keys _ items _, v, w =>
    v = .null ∧ w = .null ∨
      ∃ vs ws, v = .list vs ∧ w = .list ws ∧ List.Forall₂ (fun e e' ↦
        e = .null ∧ e' = .null ∨
          ∃ kn k xn x kn' k' xn' x', e = .struct [(kn, k), (xn, x)] ∧
            e' = .struct [(kn', k'), (xn', x')] ∧ Keeps keys k k' ∧ Keeps items x x') vs ws
  | .struct fields, v, w =>
    v = .null ∧ w = .null ∨
      ∃ vs ws, v = .struct vs ∧ w = .struct ws ∧ FieldsKept fields vs ws
  | _, v, w => v.isNull = w.isNull

def FieldsKept : List (FieldInfo × ArrowType) → List (ByteString × Value) →
    List (ByteString × Value) → Prop
  | [], _, ws => ws = []
  | (f, t) :: fields, vs, ws => ∃ w ws', ws = (f.name, w) :: ws' ∧
    (match vs.lookup f.name with
      | some v => Keeps t v w
      | none => w = .null) ∧ FieldsKept fields vs ws'

end

/-- The functions of Arrow that `conform_to_schema` calls. -/
structure Library where
  /-- `DataType::Equals`, without metadata -/
  equals : ArrowType → ArrowType → Bool
  toString : ArrowType → ByteString
  makeArrayOfNull : ArrowType → ℕ → Except Fault ArrowArray
  parseScalar : ArrowType → ByteString → Option Scalar
  makeArrayFromScalar : ArrowType → Scalar → ℕ → Except Fault ArrowArray
  /-- `compute::Cast`, with safe options -/
  cast : ArrowArray → ArrowType → Except Fault ArrowArray
  /-- `ChunkedArray::Make` -/
  makeChunked : List ArrowArray → ArrowType → Except Fault (List ArrowArray)

/-- The documented behaviour of these functions. -/
structure Library.Documented (A : Library) : Prop where
  makeArrayOfNull {t : ArrowType} {n : ℕ} {a : ArrowArray} :
    A.makeArrayOfNull t n = .ok a → a.length = n ∧ ∀ i < n, a.value i = .null
  makeArrayFromScalar {t : ArrowType} {s : Scalar} {n : ℕ} {a : ArrowArray} :
    A.makeArrayFromScalar t s n = .ok a → a.length = n ∧ ∀ i < n, a.value i = .scalar s
  cast {source a : ArrowArray} {t : ArrowType} : source.Valid → A.cast source t = .ok a →
    a.length = source.length ∧ ∀ i < source.length, Keeps t (source.value i) (a.value i)
  /-- elements of the same type are not changed -/
  narrow {f : FieldInfo} {t : ArrowType} {length offset : ℕ} {validity : Option (List Bool)}
    {offsets : List ℕ} {child a : ArrowArray} :
    (ArrowArray.list (.largeList f t) length offset validity offsets child).Valid →
    A.cast (.list (.largeList f t) length offset validity offsets child) (.list f t) = .ok a →
    a.Valid ∧ a.type = .list f t ∧ a.length = length ∧ ∀ i < length,
      a.value i = (ArrowArray.list (.largeList f t) length offset validity offsets child).value i
  makeChunked {chunks made : List ArrowArray} {t : ArrowType} :
    A.makeChunked chunks t = .ok made → made = chunks

end LakeVilla.Conform

import LakeVilla.Keys.AddEntry

/-!
# JSON values in columns

A checkpoint is a table with one column for each kind of action. `append_json` makes a JSON value
into a cell of a column, by the column's type, and `arrow_to_json` makes a cell into a JSON value. A
value of the type comes back with its members in the order of the type.
-/

namespace LakeVilla.CheckpointFile

open ByteString
open Keys (Json JsonText InInt32 InInt64)

/-! ## Columns -/

/-- The types of a checkpoint; the keys of a map are strings. -/
inductive ColumnType
  | string
  | int32
  | int64
  | bool
  | struct (fields : List (ByteString × ColumnType))
  | list (element : ColumnType)
  | map (item : ColumnType)

/-- `arrow::Type::type` -/
inductive TypeId
  | string
  | int32
  | int64
  | bool
  | struct
  | list
  | map
  deriving DecidableEq, Repr

def ColumnType.id : ColumnType → TypeId
  | .string => .string
  | .int32 => .int32
  | .int64 => .int64
  | .bool => .bool
  | .struct _ => .struct
  | .list _ => .list
  | .map _ => .map

/-- An element of an array. -/
inductive Cell
  | null
  | string (s : ByteString)
  | int (n : ℤ)
  | bool (b : Bool)
  | struct (cells : List Cell)
  | list (cells : List Cell)
  | map (entries : List (ByteString × Cell))

/-- `IsNull` -/
def Cell.isNull : Cell → Bool
  | .null => true
  | _ => false

theorem Cell.isNull_of_ne {cell : Cell} (h : cell ≠ .null) : cell.isNull = false := by
  cases cell with
  | null => exact absurd rfl h
  | _ => rfl

mutual

/-- What `append_json` appends for a value; `none` is a missing member. -/
def appendJson (json : JsonText) : ColumnType → Option Json → Cell
  | .string, value =>
    match value with
    | none | some .null => .null
    | some (.string s) => .string s
    | some value => .string (json.write value)
  | .int32, value =>
    match value with
    | some (.int n) => if InInt32 n then .int n else .null
    | _ => .null
  | .int64, value =>
    match value with
    | some (.int n) => if InInt64 n then .int n else .null
    | _ => .null
  | .bool, value =>
    match value with
    | some (.bool b) => .bool b
    | _ => .null
  | .struct fields, value =>
    match value with
    | some (.object members) => .struct (appendFields json fields members)
    | _ => .null
  | .list element, value =>
    match value with
    | some (.array items) => .list (items.map fun item ↦ appendJson json element (some item))
    | _ => .null
  | .map item, value =>
    match value with
    | some (.object members) => .map (members.map fun m ↦ (m.1, appendJson json item (some m.2)))
    | _ => .null

/-- The members of a struct, in the order of its fields. -/
def appendFields (json : JsonText) :
    List (ByteString × ColumnType) → List (ByteString × Json) → List Cell
  | [], _ => []
  | (name, type) :: fields, members =>
    appendJson json type (members.lookup name) :: appendFields json fields members

end

mutual

/-- `arrow_to_json` -/
def arrowToJson : ColumnType → Cell → Json
  | .string, .string s => .string s
  | .int32, .int n | .int64, .int n => .int n
  | .bool, .bool b => .bool b
  | .struct fields, .struct cells => .object (fieldsToJson fields cells)
  | .list element, .list cells => .array (cells.map (arrowToJson element))
  | .map item, .map entries => .object (entries.map fun e ↦ (e.1, arrowToJson item e.2))
  | _, _ => .null

/-- The members of a struct; those that are null are left out. -/
def fieldsToJson : List (ByteString × ColumnType) → List Cell → List (ByteString × Json)
  | [], _ | _, [] => []
  | (name, type) :: fields, cell :: cells =>
    match cell with
    | .null => fieldsToJson fields cells
    | cell => (name, arrowToJson type cell) :: fieldsToJson fields cells

end

/-- A value as it comes back from a column. -/
def reread (json : JsonText) (type : ColumnType) (value : Json) : Json :=
  arrowToJson type (appendJson json type (some value))

/-! ## Values of a type -/

mutual

/-- A value of the type. A struct has each field at most once; items and elements may be null. -/
def HasType : ColumnType → Json → Prop
  | .string, .string _ | .bool, .bool _ => True
  | .int32, .int n => InInt32 n
  | .int64, .int n => InInt64 n
  | .struct fields, .object members => (fields.map (·.1)).Nodup ∧ (members.map (·.1)).Nodup ∧
    (∀ m ∈ members, m.1 ∈ fields.map (·.1)) ∧ HasFields fields members
  | .list element, .array items => ∀ item ∈ items, item = .null ∨ HasType element item
  | .map item, .object members => ∀ m ∈ members, m.2 = .null ∨ HasType item m.2
  | _, _ => False

def HasFields : List (ByteString × ColumnType) → List (ByteString × Json) → Prop
  | [], _ => True
  | (name, type) :: fields, members =>
    (∀ value, members.lookup name = some value → HasType type value) ∧ HasFields fields members

end

/-- The same document, up to the order of the members. -/
inductive Same : Json → Json → Prop
  | null : Same .null .null
  | bool (b : Bool) : Same (.bool b) (.bool b)
  | int (n : ℤ) : Same (.int n) (.int n)
  | string (s : ByteString) : Same (.string s) (.string s)
  | array {items items' : List Json} : List.Forall₂ Same items items' →
    Same (.array items) (.array items')
  | object {members ordered members' : List (ByteString × Json)} : members.Perm ordered →
    ordered.map (·.1) = members'.map (·.1) →
    List.Forall₂ (fun m m' ↦ Same m.2 m'.2) ordered members' →
    Same (.object members) (.object members')

/-! ## Coming back -/

/-- What holds of a value that is written to a column and read from it. -/
structure ComesBack (json : JsonText) (type : ColumnType) (value : Json) : Prop where
  same : Same value (reread json type value)
  exact : (reread json type value).Exact
  ne_null : appendJson json type (some value) ≠ .null

variable {json : JsonText}

theorem reread_null (type : ColumnType) : reread json type .null = .null := by
  cases type <;> rfl

/-- The members of a struct, in the order of its fields. -/
def inOrder (names : List ByteString) (members : List (ByteString × Json)) :
    List (ByteString × Json) :=
  names.filterMap fun name ↦ (members.lookup name).map (Prod.mk name)

theorem inOrder_perm {names : List ByteString} {members : List (ByteString × Json)}
    (hnames : names.Nodup) (hmembers : (members.map (·.1)).Nodup)
    (hsub : ∀ m ∈ members, m.1 ∈ names) : members.Perm (inOrder names members) := by
  have hfst : ∀ name, ∀ m ∈ (members.lookup name).map (Prod.mk name), m.1 = name := by
    intro name m hm
    obtain ⟨value, -, rfl⟩ := Option.map_eq_some_iff.mp hm
    rfl
  have hnodup : (inOrder names members).Nodup :=
    hnames.filterMap fun name name' m hm hm' ↦ (hfst name m hm).symm.trans (hfst name' m hm')
  refine (List.perm_ext_iff_of_nodup hmembers.of_map hnodup).mpr fun m ↦ ?_
  obtain ⟨name, value⟩ := m
  rw [inOrder, List.mem_filterMap]
  constructor
  · intro hm
    exact ⟨name, hsub _ hm, by rw [AssocList.lookup_of_mem hmembers hm, Option.map_some]⟩
  · rintro ⟨name', -, h⟩
    obtain ⟨value', hvalue, heq⟩ := Option.map_eq_some_iff.mp h
    obtain ⟨rfl, rfl⟩ := Prod.mk.inj heq
    exact AssocList.mem_of_lookup hvalue

/-- What holds of the members of a struct. -/
structure FieldsComeBack (json : JsonText) (fields : List (ByteString × ColumnType))
    (members : List (ByteString × Json)) : Prop where
  names : (inOrder (fields.map (·.1)) members).map (·.1) =
    (fieldsToJson fields (appendFields json fields members)).map (·.1)
  same : List.Forall₂ (fun m m' ↦ Same m.2 m'.2) (inOrder (fields.map (·.1)) members)
    (fieldsToJson fields (appendFields json fields members))
  exact : ∀ m ∈ fieldsToJson fields (appendFields json fields members), m.2.Exact

theorem fieldsToJson_null {name : ByteString} {type : ColumnType}
    {fields : List (ByteString × ColumnType)} {cells : List Cell} :
    fieldsToJson ((name, type) :: fields) (.null :: cells) = fieldsToJson fields cells := by
  rw [fieldsToJson]

theorem fieldsToJson_of_ne {name : ByteString} {type : ColumnType}
    {fields : List (ByteString × ColumnType)} {cell : Cell} {cells : List Cell} (h : cell ≠ .null) :
    fieldsToJson ((name, type) :: fields) (cell :: cells) =
      (name, arrowToJson type cell) :: fieldsToJson fields cells := by
  rw [fieldsToJson]
  exact h

/-- Items of a list or a map may be null. -/
theorem ComesBack.orNull {type : ColumnType} {value : Json}
    (h : value = .null ∨ ComesBack json type value) :
    Same value (reread json type value) ∧ (reread json type value).Exact := by
  rcases h with rfl | h
  · rw [reread_null]
    exact ⟨.null, Keys.exact_null⟩
  · exact ⟨h.same, h.exact⟩

/-- A value that is neither a list nor has members comes back as it is. -/
theorem comesBack_of_eq {type : ColumnType} {value : Json} {cell : Cell}
    (hcell : appendJson json type (some value) = cell) (hvalue : arrowToJson type cell = value)
    (hne : cell ≠ .null) (hsame : Same value value) (hexact : value.Exact) :
    ComesBack json type value := by
  have hreread : reread json type value = value := by rw [reread, hcell, hvalue]
  refine ⟨?_, ?_, hcell ▸ hne⟩
  · rwa [hreread]
  · rwa [hreread]

theorem reread_array (element : ColumnType) (items : List Json) :
    reread json (.list element) (.array items) = .array (items.map (reread json element)) := by
  rw [reread, appendJson, arrowToJson, List.map_map]
  rfl

theorem reread_map (item : ColumnType) (members : List (ByteString × Json)) :
    reread json (.map item) (.object members) =
      .object (members.map fun m ↦ (m.1, reread json item m.2)) := by
  rw [reread, appendJson, arrowToJson, List.map_map]
  rfl

mutual

/-- A value of the type comes back. -/
theorem comesBack (type : ColumnType) {value : Json} (h : HasType type value) :
    ComesBack json type value := by
  cases type with
  | string =>
    cases value with
    | string s => exact ⟨.string s, Keys.exact_string s, fun h ↦ nomatch h⟩
    | _ => exact h.elim
  | bool =>
    cases value with
    | bool b => exact ⟨.bool b, Keys.exact_bool b, fun h ↦ nomatch h⟩
    | _ => exact h.elim
  | int32 | int64 =>
    cases value with
    | int n => exact comesBack_of_eq (if_pos h) rfl (fun h ↦ nomatch h) (.int n) (Keys.exact_int n)
    | _ => exact h.elim
  | struct fields =>
    cases value with
    | object members =>
      obtain ⟨hfields, hmembers, hsub, h⟩ := h
      have hback := fieldsComeBack fields h
      refine ⟨?_, Keys.exact_object hback.exact, fun h ↦ nomatch h⟩
      exact .object (inOrder_perm hfields hmembers hsub) hback.names hback.same
    | _ => exact h.elim
  | list element =>
    cases value with
    | array items =>
      have hitem : ∀ item ∈ items, Same item (reread json element item) ∧
          (reread json element item).Exact := fun item hitem ↦
        ComesBack.orNull ((h item hitem).imp_right fun h ↦ comesBack element h)
      refine ⟨?_, ?_, fun h ↦ nomatch h⟩
      · rw [reread_array]
        refine .array (List.forall₂_map_right_iff.mpr (List.forall₂_same.mpr ?_))
        exact fun item h ↦ (hitem item h).1
      · rw [reread_array]
        apply Keys.exact_array
        intro value hvalue
        obtain ⟨item, h, rfl⟩ := List.mem_map.mp hvalue
        exact (hitem item h).2
    | _ => exact h.elim
  | map item =>
    cases value with
    | object members =>
      have hitem : ∀ m ∈ members, Same m.2 (reread json item m.2) ∧
          (reread json item m.2).Exact := fun m hm ↦
        ComesBack.orNull ((h m hm).imp_right fun h ↦ comesBack item h)
      refine ⟨?_, ?_, fun h ↦ nomatch h⟩
      · rw [reread_map]
        refine .object (.refl _) (by rw [List.map_map]; rfl) ?_
        refine List.forall₂_map_right_iff.mpr (List.forall₂_same.mpr ?_)
        exact fun m hm ↦ (hitem m hm).1
      · rw [reread_map]
        apply Keys.exact_object
        intro m' hm'
        obtain ⟨m, hm, rfl⟩ := List.mem_map.mp hm'
        exact (hitem m hm).2
    | _ => exact h.elim

theorem fieldsComeBack (fields : List (ByteString × ColumnType))
    {members : List (ByteString × Json)} (h : HasFields fields members) :
    FieldsComeBack json fields members := by
  cases fields with
  | nil => exact ⟨rfl, .nil, fun _ h ↦ absurd h List.not_mem_nil⟩
  | cons field fields =>
    obtain ⟨name, type⟩ := field
    obtain ⟨hvalue, h⟩ := h
    have hback : FieldsComeBack json fields members := fieldsComeBack fields h
    cases hlookup : members.lookup name with
    | none =>
      have hmembers : inOrder (((name, type) :: fields).map (·.1)) members =
          inOrder (fields.map (·.1)) members := by
        simp [inOrder, hlookup]
      have hread : fieldsToJson ((name, type) :: fields)
          (appendFields json ((name, type) :: fields) members) =
            fieldsToJson fields (appendFields json fields members) := by
        have hnull : appendJson json type none = .null := by cases type <;> rfl
        rw [appendFields, hlookup, hnull, fieldsToJson_null]
      constructor
      · rw [hmembers, hread, hback.names]
      · rw [hmembers, hread]
        exact hback.same
      · rw [hread]
        exact hback.exact
    | some value =>
      have hvalue : ComesBack json type value := comesBack type (hvalue value hlookup)
      have hmembers : inOrder (((name, type) :: fields).map (·.1)) members =
          (name, value) :: inOrder (fields.map (·.1)) members := by
        simp [inOrder, hlookup]
      have hread : fieldsToJson ((name, type) :: fields)
          (appendFields json ((name, type) :: fields) members) =
            (name, reread json type value) ::
              fieldsToJson fields (appendFields json fields members) := by
        rw [appendFields, hlookup, fieldsToJson_of_ne hvalue.ne_null]
        rfl
      constructor
      · rw [hmembers, hread, List.map_cons, List.map_cons, hback.names]
      · rw [hmembers, hread]
        exact .cons hvalue.same hback.same
      · rw [hread]
        intro m hm
        rcases List.mem_cons.mp hm with rfl | hm
        · exact hvalue.exact
        · exact hback.exact m hm

end

end LakeVilla.CheckpointFile

import LakeVilla.Schema.DeltaSchema

/-!
# What Delta stores of a schema

`stored` is the schema that `from_delta_schema` makes of what `to_delta_schema` wrote. It is written
as the schema that it comes from, and canonical schemas are stored as they are.
-/

namespace LakeVilla.Schema

open ByteString
open Keys (Json JsonText cString cString_eq_self isSpace splitSign withSign exact_string exact_bool
  exact_array exact_object)

/-! ## The stored schema -/

/-- Delta has no empty metadata. -/
def FieldInfo.stored (f : FieldInfo) : FieldInfo :=
  { f with metadata := f.metadata.filter (· ≠ []) }

mutual

/-- The type that Delta stores. -/
def stored : ArrowType → ArrowType
  | .utf8 | .largeUtf8 => .utf8
  | .int8 => .int8
  | .int16 => .int16
  | .int32 => .int32
  | .int64 => .int64
  | .float32 => .float32
  | .float64 => .float64
  | .boolean => .boolean
  | .binary | .largeBinary | .fixedSizeBinary _ => .binary
  | .date32 => .date32
  | .timestamp _ timezone => .timestamp .micro (if timezone = [] then [] else ascii "UTC")
  | .decimal128 d => .decimal128 d
  | .dictionary values => stored values
  | .list field values | .largeList field values =>
    .list { name := ascii "element", nullable := field.nullable } (stored values)
  | .map _ keys itemField items _ =>
    .map { name := ascii "key", nullable := false } (stored keys)
      { name := ascii "value", nullable := itemField.nullable } (stored items) false
  | .struct fields => .struct (storedFields fields)
  | .null => .null
  | .other text => .other text

def storedFields : List (FieldInfo × ArrowType) → List (FieldInfo × ArrowType)
  | [] => []
  | (f, t) :: fields => (f.stored, stored t) :: storedFields fields

end

/-! ## Plain schemas -/

/-- Name and metadata have no NUL. -/
def FieldInfo.Plain (f : FieldInfo) : Prop :=
  0 ∉ f.name ∧ ∀ m ∈ f.metadata.getD [], 0 ∉ m.1 ∧ 0 ∉ m.2

mutual

/-- Names and metadata of struct fields have no NUL, and scales are at most the precision. -/
def Plain : ArrowType → Prop
  | .decimal128 d => 0 ≤ d.scale ∧ d.scale ≤ d.precision
  | .dictionary values => Plain values
  | .list _ values | .largeList _ values => Plain values
  | .map _ keys _ items _ => Plain keys ∧ Plain items
  | .struct fields => PlainFields fields
  | _ => True

def PlainFields : List (FieldInfo × ArrowType) → Prop
  | [] => True
  | (f, t) :: fields => f.Plain ∧ Plain t ∧ PlainFields fields

end

/-! ## Reading back -/

theorem Except.bind_eq_ok {ε α β : Type} {x : Except ε α} {f : α → Except ε β} {b : β} :
    x >>= f = .ok b ↔ ∃ a, x = .ok a ∧ f a = .ok b := by
  cases x with
  | error e => exact iff_of_false (fun h ↦ nomatch h) fun ⟨_, h, _⟩ ↦ nomatch h
  | ok a =>
    constructor
    · exact fun h ↦ ⟨a, rfl, h⟩
    · rintro ⟨a', h, hf⟩
      obtain rfl := Except.ok.inj h
      exact hf

/-! ## Decimal types -/

/-- A number that no digit follows is scanned. -/
theorem scanInt_signedText (negative : Bool) (n : ℕ) {c : Byte} (hc : isDigit c = false)
    (rest : ByteString) :
    scanInt (signedText negative n ++ c :: rest) = some (withSign negative n, c :: rest) := by
  obtain ⟨first, text, hdigits, hfirst⟩ := Keys.decimal_head (n := n)
  obtain ⟨hspace, h45, h43, -⟩ := Keys.of_isDigit hfirst
  have hsplit : splitSign ((signedText negative n ++ c :: rest).dropWhile isSpace) =
      (negative, decimal n ++ c :: rest) := by
    cases negative with
    | true => rfl
    | false =>
      rw [signedText, if_neg (by simp), List.nil_append, hdigits, List.cons_append,
        List.dropWhile_cons, hspace]
      unfold splitSign
      split
      · next h => exact absurd (List.cons.inj h).1 h45
      · next h => exact absurd (List.cons.inj h).1 h43
      · rfl
  have hall : ∀ c ∈ decimal n, isDigit c = true := fun _ h ↦ isDigit_of_mem_decimal h
  have htake : (decimal n ++ c :: rest).takeWhile isDigit = decimal n := by
    rw [List.takeWhile_append_of_pos hall, List.takeWhile_cons_of_neg (by simp [hc]),
      List.append_nil]
  have hdrop : (decimal n ++ c :: rest).dropWhile isDigit = c :: rest := by
    rw [List.dropWhile_append_of_pos hall, List.dropWhile_cons_of_neg (by simp [hc])]
  rw [scanInt, hsplit]
  simp only [htake, hdrop, if_neg (decimal_ne_nil n), ofDecimal_decimal]

theorem after_append (start text : ByteString) : after start (start ++ text) = some text := by
  rw [after, if_pos (List.isPrefixOf_iff_prefix.mpr (List.prefix_append _ _)), List.drop_left]

/-- Both numbers of a decimal type are read back. -/
theorem scanDecimal_decimalName (d : Decimal128) :
    scanDecimal (decimalName d) = some ((d.precision : ℤ), d.scale) := by
  have hprecision := scanInt_signedText false d.precision (c := 44) (by decide)
    (toText d.scale ++ ascii ")")
  have hscale := scanInt_signedText (d.scale < 0) d.scale.natAbs (c := 41) (by decide) []
  rw [Keys.withSign_natAbs] at hscale
  have hcomma : after (ascii ",") ((44 :: (toText d.scale ++ ascii ")")).dropWhile isSpace) =
      some (toText d.scale ++ ascii ")") := after_append ..
  rw [scanDecimal, decimalName, after_append]
  refine (congrArg (Option.bind · _) hprecision).trans ?_
  simp only [Option.bind_some, hcomma, Option.bind_eq_bind]
  exact congrArg (Option.bind · _) hscale

theorem decimalName_ne (d : Decimal128) {text : ByteString}
    (h : ¬(ascii "decimal(").isPrefixOf text = true) : decimalName d ≠ text := by
  rintro rfl
  exact h (List.isPrefixOf_iff_prefix.mpr (List.prefix_append _ _))

theorem primitive_decimalName (d : Decimal128) (hscale : 0 ≤ d.scale)
    (hle : d.scale ≤ d.precision) (context : ByteString) :
    primitive (decimalName d) context = .ok (.decimal128 d) := by
  have hchar : ¬((ascii "char(").isPrefixOf (decimalName d) = true ∨
      (ascii "varchar(").isPrefixOf (decimalName d) = true) := by
    rintro (h | h) <;> exact nomatch h
  have hrange : ¬((d.precision : ℤ) < 1 ∨ 38 < (d.precision : ℤ) ∨ d.scale < 0 ∨
      (d.precision : ℤ) < d.scale) := by
    have hone := d.one_le
    have hmax := d.le_max
    omega
  rw [primitive]
  iterate 14 rw [if_neg (decimalName_ne d (by decide))]
  rw [if_neg hchar]
  simp only [scanDecimal_decimalName, dif_neg hrange]
  rfl

theorem zero_notMem_decimalName (d : Decimal128) : 0 ∉ decimalName d := by
  intro h
  have hdecimal : ∀ n, (0 : Byte) ∉ decimal n := fun n hn ↦
    Bool.false_ne_true (isDigit_of_mem_decimal hn)
  rw [decimalName, toText, signedText] at h
  simp only [List.mem_append, hdecimal, or_false, false_or] at h
  rcases h with h | h | h | h
  · exact absurd h (by decide)
  · exact absurd h (by decide)
  · split at h
    · exact absurd h (by decide)
    · exact absurd h List.not_mem_nil
  · exact absurd h (by decide)

section Objects

variable {json : JsonText} {context : ByteString}

theorem parseType_arrayObject {element : Json} {t : ArrowType}
    (h : parseType json element (context ++ ascii ".element") = .ok t) (containsNull : Bool) :
    parseType json (arrayObject element containsNull) context =
      .ok (.list { name := ascii "element", nullable := containsNull } t) := by
  rw [arrayObject, parseType]
  change (do
    let t ← parseType json element (context ++ ascii ".element")
    return ArrowType.list { name := ascii "element", nullable := containsNull } t) = _
  rw [h]
  rfl

theorem parseType_mapObject {key value : Json} {k v : ArrowType}
    (hk : parseType json key (context ++ ascii ".key") = .ok k)
    (hv : parseType json value (context ++ ascii ".value") = .ok v) (valueContainsNull : Bool) :
    parseType json (mapObject key value valueContainsNull) context =
      .ok (.map { name := ascii "key", nullable := false } k
        { name := ascii "value", nullable := valueContainsNull } v false) := by
  rw [mapObject, parseType]
  change (do
    let k ← parseType json key (context ++ ascii ".key")
    let v ← parseType json value (context ++ ascii ".value")
    return ArrowType.map { name := ascii "key", nullable := false } k
      { name := ascii "value", nullable := valueContainsNull } v false) = _
  rw [hk, hv]
  rfl

theorem parseType_structObject {objects : List Json} {fields : List (FieldInfo × ArrowType)}
    (h : parseFields json objects (context ++ ascii ".") = .ok fields) :
    parseType json (structObject objects) context = .ok (.struct fields) := by
  rw [structObject, parseType]
  change (do return ArrowType.struct (← parseFields json objects (context ++ ascii "."))) = _
  rw [h]
  rfl

/-- The metadata of a field is read back. -/
theorem parseMetadata_fieldObject {f : FieldInfo} (h : f.Plain) (type : Json) :
    parseMetadata json
      [(ascii "name", .string (cString f.name)), (ascii "type", type),
        (ascii "nullable", .bool f.nullable),
        (ascii "metadata", .object (metadataMembers f.metadata))] = f.stored.metadata := by
  change (if (metadataMembers f.metadata).isEmpty then none else some _) = _
  unfold FieldInfo.stored
  cases hm : f.metadata with
  | none => rfl
  | some entries =>
    cases entries with
    | nil => rfl
    | cons m entries =>
      have hplain : ∀ e ∈ m :: entries, 0 ∉ e.1 ∧ 0 ∉ e.2 := by
        have h := h.2
        rwa [hm] at h
      rw [if_neg (by simp [metadataMembers])]
      refine congrArg some ?_
      rw [metadataMembers, Option.getD_some, List.map_map]
      refine (List.map_congr_left fun e he ↦ ?_).trans (List.map_id _)
      obtain ⟨hname, hvalue⟩ := hplain e he
      simp [cString_eq_self hname, cString_eq_self hvalue]

theorem parseFields_fieldObject {f : FieldInfo} (hf : f.Plain) {type : Json} {t : ArrowType}
    {pre : ByteString} {objects : List Json} {fields : List (FieldInfo × ArrowType)}
    (ht : parseType json type (pre ++ f.name) = .ok t)
    (hfields : parseFields json objects pre = .ok fields) :
    parseFields json (fieldObject f type :: objects) pre = .ok ((f.stored, t) :: fields) := by
  have hname : cString (cString f.name) = f.name := by
    rw [cString_eq_self hf.1, cString_eq_self hf.1]
  have hmetadata : parseMetadata json
      [(ascii "name", .string (cString f.name)), (ascii "type", type),
        (ascii "nullable", .bool f.nullable),
        (ascii "metadata", .object (metadataMembers f.metadata))] = f.stored.metadata :=
    parseMetadata_fieldObject hf type
  rw [fieldObject, parseFields]
  change (do
    let t ← parseType json type (pre ++ cString (cString f.name))
    let rest ← parseFields json objects pre
    let info : FieldInfo :=
      { name := cString (cString f.name)
        nullable := f.nullable
        metadata := parseMetadata json
          [(ascii "name", .string (cString f.name)), (ascii "type", type),
            (ascii "nullable", .bool f.nullable),
            (ascii "metadata", .object (metadataMembers f.metadata))] }
    return (info, t) :: rest) = _
  rw [hname, ht, hfields, hmetadata]
  rfl

end Objects

/-! ## Writing again -/

theorem exact_arrayObject {element : Json} (h : element.Exact) (containsNull : Bool) :
    (arrayObject element containsNull).Exact := by
  apply exact_object
  simp [h, exact_string, exact_bool]

theorem exact_mapObject {key value : Json} (hkey : key.Exact) (hvalue : value.Exact)
    (valueContainsNull : Bool) : (mapObject key value valueContainsNull).Exact := by
  apply exact_object
  simp [hkey, hvalue, exact_string, exact_bool]

theorem exact_structObject {objects : List Json} (h : ∀ object ∈ objects, object.Exact) :
    (structObject objects).Exact := by
  apply exact_object
  simp [exact_array h, exact_string]

theorem exact_fieldObject (f : FieldInfo) {type : Json} (h : type.Exact) :
    (fieldObject f type).Exact := by
  have hmetadata : (Json.object (metadataMembers f.metadata)).Exact := by
    apply exact_object
    intro m hm
    obtain ⟨m, -, rfl⟩ := List.mem_map.mp hm
    exact exact_string _
  apply exact_object
  simp [h, hmetadata, exact_string, exact_bool]

@[simp] theorem FieldInfo.stored_name (f : FieldInfo) : f.stored.name = f.name := rfl

theorem fieldObject_stored (f : FieldInfo) (type : Json) :
    fieldObject f.stored type = fieldObject f type := by
  have hmetadata : metadataMembers f.stored.metadata = metadataMembers f.metadata := by
    unfold FieldInfo.stored
    cases f.metadata with
    | none => rfl
    | some entries =>
      cases entries with
      | nil => rfl
      | cons m entries => rfl
  rw [fieldObject, fieldObject, hmetadata]
  rfl

/-- What is checked of a name does not depend on where the field is. -/
theorem checkName_congr {pre : ByteString} {names : List ByteString} {name : ByteString}
    (h : checkName pre names name = .ok ()) (pre' : ByteString) :
    checkName pre' names name = .ok () := by
  unfold checkName at h ⊢
  split_ifs at h ⊢
  rfl

/-- `type` is stored as the document `value`. -/
structure StoredAs (json : JsonText) (type : ArrowType) (value : Json) (ntz : Bool) : Prop where
  exact : value.Exact
  parse (context : ByteString) : parseType json value context = .ok (stored type)
  convert (context : ByteString) : convertType context (stored type) = .ok (value, ntz)

structure FieldsStoredAs (json : JsonText) (names : List ByteString)
    (fields : List (FieldInfo × ArrowType)) (objects : List Json) (ntz : Bool) : Prop where
  exact : ∀ object ∈ objects, object.Exact
  parse (pre : ByteString) : parseFields json objects pre = .ok (storedFields fields)
  convert (pre : ByteString) :
    convertFields pre names (storedFields fields) = .ok (objects, ntz)

variable {json : JsonText}

theorem StoredAs.list {values : ArrowType} {element : Json} {ntz : Bool}
    (h : StoredAs json values element ntz) (field : FieldInfo) :
    StoredAs json (.list field values) (arrayObject element field.nullable) ntz := by
  refine ⟨exact_arrayObject h.exact _, fun context ↦ ?_, fun context ↦ ?_⟩
  · exact parseType_arrayObject (h.parse _) _
  · rw [stored, convertType, h.convert]
    rfl

mutual

/-- A type that is converted is stored. -/
theorem storedAs_of_convertType (type : ArrowType) {context : ByteString} {value : Json}
    {ntz : Bool} (h : convertType context type = .ok (value, ntz)) (hplain : Plain type) :
    StoredAs json type value ntz := by
  cases type with
  | utf8 | largeUtf8 | int8 | int16 | int32 | int64 | float32 | float64 | boolean | binary
  | largeBinary | fixedSizeBinary | date32 =>
    rw [convertType] at h
    cases h
    refine ⟨exact_string _, fun context ↦ ?_, fun context ↦ ?_⟩
    · rw [parseType]
      rfl
    · rw [stored, convertType]
  | timestamp unit timezone =>
    rw [convertType] at h
    split_ifs at h with htimezone
    · cases h
      refine ⟨exact_string _, fun context ↦ ?_, fun context ↦ ?_⟩
      · rw [parseType, stored, if_pos htimezone]
        rfl
      · rw [stored, if_pos htimezone, convertType, if_pos rfl]
    · cases h
      refine ⟨exact_string _, fun context ↦ ?_, fun context ↦ ?_⟩
      · rw [parseType, stored, if_neg htimezone]
        rfl
      · rw [stored, if_neg htimezone, convertType, if_neg (by decide)]
  | decimal128 d =>
    obtain ⟨hscale, hle⟩ := hplain
    have hconvert : ∀ context, convertType context (.decimal128 d) =
        .ok (.string (decimalName d), false) := by
      intro context
      rw [convertType, if_neg d.le_max.not_gt]
    rw [hconvert] at h
    cases h
    refine ⟨exact_string _, fun context ↦ ?_, hconvert⟩
    rw [parseType, cString_eq_self (zero_notMem_decimalName d)]
    exact primitive_decimalName d hscale hle context
  | dictionary values =>
    rw [convertType] at h
    have hvalues := storedAs_of_convertType values h hplain
    exact ⟨hvalues.exact, hvalues.parse, hvalues.convert⟩
  | list field values | largeList field values =>
    rw [convertType] at h
    obtain ⟨⟨element, ntz'⟩, hvalues, hok⟩ := Except.bind_eq_ok.mp h
    cases hok
    have hvalues := storedAs_of_convertType values hvalues hplain
    have hlist := hvalues.list field
    exact ⟨hlist.exact, hlist.parse, hlist.convert⟩
  | map keyField keys itemField items keysSorted =>
    rw [convertType] at h
    obtain ⟨⟨key, keyNtz⟩, hkeys, h⟩ := Except.bind_eq_ok.mp h
    obtain ⟨⟨item, itemNtz⟩, hitems, hok⟩ := Except.bind_eq_ok.mp h
    cases hok
    have hkeys := storedAs_of_convertType keys hkeys hplain.1
    have hitems := storedAs_of_convertType items hitems hplain.2
    refine ⟨exact_mapObject hkeys.exact hitems.exact _, fun context ↦ ?_, fun context ↦ ?_⟩
    · exact parseType_mapObject (hkeys.parse _) (hitems.parse _) _
    · rw [stored, convertType, hkeys.convert]
      change (do
        let (value, valueNtz) ← convertType (context ++ ascii ".value") (stored items)
        return (mapObject key value itemField.nullable, keyNtz || valueNtz)) = _
      rw [hitems.convert]
      rfl
  | struct fields =>
    rw [convertType] at h
    split_ifs at h with hempty
    obtain ⟨⟨objects, ntz'⟩, hfields, hok⟩ := Except.bind_eq_ok.mp h
    cases hok
    have hfields := fieldsStoredAs_of_convertFields fields hfields hplain
    have hempty' : ¬(storedFields fields).isEmpty = true := by
      cases fields with
      | nil => exact absurd rfl hempty
      | cons field fields => exact Bool.false_ne_true
    refine ⟨exact_structObject hfields.exact, fun context ↦ ?_, fun context ↦ ?_⟩
    · exact parseType_structObject (hfields.parse _)
    · rw [stored, convertType, if_neg hempty', hfields.convert]
      rfl
  | null => cases h
  | other text => cases h

theorem fieldsStoredAs_of_convertFields (fields : List (FieldInfo × ArrowType)) {pre : ByteString}
    {names : List ByteString} {objects : List Json} {ntz : Bool}
    (h : convertFields pre names fields = .ok (objects, ntz)) (hplain : PlainFields fields) :
    FieldsStoredAs json names fields objects ntz := by
  cases fields with
  | nil =>
    cases h
    refine ⟨fun _ h ↦ absurd h List.not_mem_nil, fun pre ↦ ?_, fun pre ↦ ?_⟩
    · rw [parseFields]
      rfl
    · rfl
  | cons field fields =>
    obtain ⟨f, t⟩ := field
    obtain ⟨hf, ht, hplain⟩ := hplain
    rw [convertFields] at h
    obtain ⟨⟨⟩, hname, h⟩ := Except.bind_eq_ok.mp h
    obtain ⟨⟨type, typeNtz⟩, htype, h⟩ := Except.bind_eq_ok.mp h
    obtain ⟨⟨rest, restNtz⟩, hrest, hok⟩ := Except.bind_eq_ok.mp h
    cases hok
    have htype := storedAs_of_convertType t htype ht
    have hrest := fieldsStoredAs_of_convertFields fields hrest hplain
    refine ⟨?_, fun pre ↦ ?_, fun pre ↦ ?_⟩
    · intro object hobject
      rcases List.mem_cons.mp hobject with rfl | hobject
      · exact exact_fieldObject f htype.exact
      · exact hrest.exact object hobject
    · exact parseFields_fieldObject hf (htype.parse _) (hrest.parse _)
    · rw [storedFields, convertFields, FieldInfo.stored_name, checkName_congr hname]
      change (do
        let (type, ntz) ← convertType (pre ++ f.name) (stored t)
        let (objects, restNtz) ←
          convertFields pre (f.name.map Keys.DeltaLogEntry.toLower :: names) (storedFields fields)
        return (fieldObject f.stored type :: objects, ntz || restNtz)) = _
      rw [htype.convert]
      change (do
        let (objects, restNtz) ←
          convertFields pre (f.name.map Keys.DeltaLogEntry.toLower :: names) (storedFields fields)
        return (fieldObject f.stored type :: objects, typeNtz || restNtz)) = _
      rw [hrest.convert, fieldObject_stored]
      rfl

end

/-! ## Canonical schemas -/

mutual

/-- The types that Delta reads back as they are, up to what `Bare` says. -/
def Canonical : ArrowType → Prop
  | .largeUtf8 | .largeBinary | .fixedSizeBinary _ | .dictionary _ | .largeList _ _ => False
  | .timestamp unit timezone => unit = .micro ∧ (timezone = [] ∨ timezone = ascii "UTC")
  | .list field values => field.name = ascii "element" ∧ Canonical values
  | .map _ keys itemField items _ =>
    itemField.name = ascii "value" ∧ Canonical keys ∧ Canonical items
  | .struct fields => CanonicalFields fields
  | _ => True

/-- Metadata is absent or not empty, with distinct keys. -/
def CanonicalFields : List (FieldInfo × ArrowType) → Prop
  | [] => True
  | (f, t) :: fields =>
    (∀ m ∈ f.metadata, m ≠ [] ∧ (m.map (·.1)).Nodup) ∧ Canonical t ∧ CanonicalFields fields

end

mutual

/-- Nothing is said of lists and maps that Delta does not keep: metadata of their fields, the field
of the keys, and that the keys are sorted. -/
def Bare : ArrowType → Prop
  | .dictionary values => Bare values
  | .list field values | .largeList field values => field.metadata = none ∧ Bare values
  | .map keyField keys itemField items keysSorted =>
    keyField = { name := ascii "key", nullable := false } ∧ itemField.metadata = none ∧
      keysSorted = false ∧ Bare keys ∧ Bare items
  | .struct fields => BareFields fields
  | _ => True

def BareFields : List (FieldInfo × ArrowType) → Prop
  | [] => True
  | (_, t) :: fields => Bare t ∧ BareFields fields

end

theorem FieldInfo.stored_eq_self {f : FieldInfo} (h : ∀ m ∈ f.metadata, m ≠ []) :
    f.stored = f := by
  obtain ⟨name, nullable, metadata⟩ := f
  cases metadata with
  | none => rfl
  | some m => rw [FieldInfo.stored, Option.filter_some, if_pos (decide_eq_true (h m rfl))]

mutual

/-- A canonical type is stored as it is. -/
theorem stored_eq_self (type : ArrowType) (h : Canonical type) (hbare : Bare type) :
    stored type = type := by
  cases type with
  | utf8 | int8 | int16 | int32 | int64 | float32 | float64 | boolean | binary | date32
  | decimal128 | null | other => rfl
  | largeUtf8 | largeBinary | fixedSizeBinary | dictionary | largeList => exact h.elim
  | timestamp unit timezone =>
    obtain ⟨rfl, rfl | rfl⟩ := h
    · rfl
    · rfl
  | list field values =>
    obtain ⟨name, nullable, metadata⟩ := field
    obtain ⟨rfl, h⟩ := h
    obtain ⟨rfl, hbare⟩ := hbare
    rw [stored, stored_eq_self values h hbare]
  | map keyField keys itemField items keysSorted =>
    obtain ⟨name, nullable, metadata⟩ := itemField
    obtain ⟨rfl, hkeys, hitems⟩ := h
    obtain ⟨rfl, rfl, rfl, hkeys', hitems'⟩ := hbare
    rw [stored, stored_eq_self keys hkeys hkeys', stored_eq_self items hitems hitems']
  | struct fields => rw [stored, storedFields_eq_self fields h hbare]

theorem storedFields_eq_self (fields : List (FieldInfo × ArrowType)) (h : CanonicalFields fields)
    (hbare : BareFields fields) : storedFields fields = fields := by
  cases fields with
  | nil => rfl
  | cons field fields =>
    obtain ⟨f, t⟩ := field
    obtain ⟨hf, ht, h⟩ := h
    rw [storedFields, FieldInfo.stored_eq_self fun m hm ↦ (hf m hm).1,
      stored_eq_self t ht hbare.1, storedFields_eq_self fields h hbare.2]

end

end LakeVilla.Schema

import LakeVilla.Schema.Stored

/-!
# Schemas that are read again

`to_delta_schema` accepts every decimal type that Arrow has. `from_delta_schema` accepts it only if
its scale lies between zero and its precision. Nothing else of an accepted schema is rejected, also
no name that a NUL cuts off.
-/

namespace LakeVilla.Schema

open ByteString
open Keys (Json JsonText cString cString_eq_self exact_string)

/-! ## Scales -/

/-- Delta's decimals have a scale from zero to the precision. -/
def Decimal128.ScaleFits (d : Decimal128) : Prop := 0 ≤ d.scale ∧ d.scale ≤ d.precision

instance (d : Decimal128) : Decidable d.ScaleFits := inferInstanceAs (Decidable (_ ∧ _))

mutual

/-- All decimals of the type have a scale that Delta reads. -/
def ScalesFit : ArrowType → Prop
  | .decimal128 d => d.ScaleFits
  | .dictionary values => ScalesFit values
  | .list _ values | .largeList _ values => ScalesFit values
  | .map _ keys _ items _ => ScalesFit keys ∧ ScalesFit items
  | .struct fields => FieldsScalesFit fields
  | _ => True

def FieldsScalesFit : List (FieldInfo × ArrowType) → Prop
  | [] => True
  | (_, t) :: fields => ScalesFit t ∧ FieldsScalesFit fields

end

variable {json : JsonText} {context pre : ByteString}

theorem zero_notMem_cString (text : ByteString) : 0 ∉ cString text := by
  intro h
  simpa using List.mem_takeWhile_imp h

theorem primitive_decimalName_error {d : Decimal128} (h : ¬d.ScaleFits) (context : ByteString) :
    primitive (decimalName d) context = .error (context ++ ascii ": invalid " ++ decimalName d) := by
  have hchar : ¬((ascii "char(").isPrefixOf (decimalName d) = true ∨
      (ascii "varchar(").isPrefixOf (decimalName d) = true) := by
    rintro (h | h) <;> exact nomatch h
  have hrange : (d.precision : ℤ) < 1 ∨ 38 < (d.precision : ℤ) ∨ d.scale < 0 ∨
      (d.precision : ℤ) < d.scale := by
    unfold Decimal128.ScaleFits at h
    omega
  rw [primitive]
  iterate 14 rw [if_neg (decimalName_ne d (by decide))]
  rw [if_neg hchar]
  simp only [scanDecimal_decimalName, dif_pos hrange]

/-- **A decimal type is read if its scale fits.** -/
theorem primitive_decimalName_iff (d : Decimal128) (context : ByteString) :
    (∃ t, primitive (decimalName d) context = .ok t) ↔ d.ScaleFits := by
  constructor
  · rintro ⟨t, ht⟩
    by_contra h
    rw [primitive_decimalName_error h] at ht
    cases ht
  · exact fun h ↦ ⟨_, primitive_decimalName d h.1 h.2 context⟩

/-! ## Documents -/

theorem parseType_arrayObject_iff (element : Json) (containsNull : Bool) :
    (∃ t, parseType json (arrayObject element containsNull) context = .ok t) ↔
      ∃ t, parseType json element (context ++ ascii ".element") = .ok t := by
  constructor
  · rintro ⟨t, ht⟩
    rw [arrayObject, parseType] at ht
    obtain ⟨e, he, -⟩ := Except.bind_eq_ok.mp ht
    exact ⟨e, he⟩
  · rintro ⟨e, he⟩
    exact ⟨_, parseType_arrayObject he containsNull⟩

theorem parseType_mapObject_iff (key value : Json) (valueContainsNull : Bool) :
    (∃ t, parseType json (mapObject key value valueContainsNull) context = .ok t) ↔
      (∃ t, parseType json key (context ++ ascii ".key") = .ok t) ∧
        ∃ t, parseType json value (context ++ ascii ".value") = .ok t := by
  constructor
  · rintro ⟨t, ht⟩
    rw [mapObject, parseType] at ht
    obtain ⟨k, hk, ht⟩ := Except.bind_eq_ok.mp ht
    obtain ⟨v, hv, -⟩ := Except.bind_eq_ok.mp ht
    exact ⟨⟨k, hk⟩, v, hv⟩
  · rintro ⟨⟨k, hk⟩, v, hv⟩
    exact ⟨_, parseType_mapObject hk hv valueContainsNull⟩

theorem parseType_structObject_iff (objects : List Json) :
    (∃ t, parseType json (structObject objects) context = .ok t) ↔
      ∃ fields, parseFields json objects (context ++ ascii ".") = .ok fields := by
  constructor
  · rintro ⟨t, ht⟩
    rw [structObject, parseType] at ht
    obtain ⟨fields, hfields, -⟩ := Except.bind_eq_ok.mp ht
    exact ⟨fields, hfields⟩
  · rintro ⟨fields, hfields⟩
    exact ⟨_, parseType_structObject hfields⟩

/-- Of a field only the type can be rejected. -/
theorem parseFields_fieldObject_iff (f : FieldInfo) (type : Json) (objects : List Json) :
    (∃ fields, parseFields json (fieldObject f type :: objects) pre = .ok fields) ↔
      (∃ t, parseType json type (pre ++ cString (cString f.name)) = .ok t) ∧
        ∃ fields, parseFields json objects pre = .ok fields := by
  constructor
  · rintro ⟨fields, h⟩
    rw [fieldObject, parseFields] at h
    obtain ⟨t, ht, h⟩ := Except.bind_eq_ok.mp h
    obtain ⟨rest, hrest, -⟩ := Except.bind_eq_ok.mp h
    exact ⟨⟨t, ht⟩, rest, hrest⟩
  · rintro ⟨⟨t, ht⟩, rest, hrest⟩
    rw [fieldObject, parseFields]
    exact ⟨_, Except.bind_eq_ok.mpr ⟨t, ht, Except.bind_eq_ok.mpr ⟨rest, hrest, rfl⟩⟩⟩

/-! ## Schemas -/

/-- The document of a type is read, in every context, if and only if `fits`. -/
structure ReadIff (json : JsonText) (value : Json) (fits : Prop) : Prop where
  exact : value.Exact
  parse (context : ByteString) : (∃ t, parseType json value context = .ok t) ↔ fits

structure FieldsReadIff (json : JsonText) (objects : List Json) (fits : Prop) : Prop where
  exact : ∀ object ∈ objects, object.Exact
  parse (pre : ByteString) : (∃ fields, parseFields json objects pre = .ok fields) ↔ fits

theorem ReadIff.primitive {name : ByteString} {fits : Prop} (hname : 0 ∉ name)
    (h : ∀ context, (∃ t, primitive name context = .ok t) ↔ fits) :
    ReadIff json (.string name) fits := by
  refine ⟨exact_string _, fun context ↦ ?_⟩
  rw [parseType, cString_eq_self hname]
  exact h context

theorem ReadIff.array {element : Json} {fits : Prop} (h : ReadIff json element fits)
    (containsNull : Bool) : ReadIff json (arrayObject element containsNull) fits :=
  ⟨exact_arrayObject h.exact _, fun _ ↦ (parseType_arrayObject_iff _ _).trans (h.parse _)⟩

mutual

/-- **A type that is converted is read again if and only if its scales fit.** -/
theorem readIff_of_convertType (type : ArrowType) {context : ByteString} {value : Json}
    {ntz : Bool} (h : convertType context type = .ok (value, ntz)) :
    ReadIff json value (ScalesFit type) := by
  cases type with
  | utf8 | largeUtf8 | int8 | int16 | int32 | int64 | float32 | float64 | boolean | binary
  | largeBinary | fixedSizeBinary | date32 =>
    rw [convertType] at h
    cases h
    exact .primitive (by decide) fun _ ↦ iff_of_true ⟨_, rfl⟩ trivial
  | timestamp unit timezone =>
    rw [convertType] at h
    split_ifs at h
    · cases h
      exact .primitive (by decide) fun _ ↦ iff_of_true ⟨_, rfl⟩ trivial
    · cases h
      exact .primitive (by decide) fun _ ↦ iff_of_true ⟨_, rfl⟩ trivial
  | decimal128 d =>
    rw [convertType, if_neg (Nat.not_lt.mpr d.le_max)] at h
    cases h
    exact .primitive (zero_notMem_decimalName d) (primitive_decimalName_iff d)
  | dictionary values =>
    rw [convertType] at h
    exact readIff_of_convertType values h
  | list field values | largeList field values =>
    rw [convertType] at h
    obtain ⟨⟨element, ntz'⟩, helement, hok⟩ := Except.bind_eq_ok.mp h
    cases hok
    exact (readIff_of_convertType values helement).array _
  | map keyField keys itemField items keysSorted =>
    rw [convertType] at h
    obtain ⟨⟨key, keyNtz⟩, hkey, h⟩ := Except.bind_eq_ok.mp h
    obtain ⟨⟨item, itemNtz⟩, hitem, hok⟩ := Except.bind_eq_ok.mp h
    cases hok
    have hkeys := readIff_of_convertType keys hkey
    have hitems := readIff_of_convertType items hitem
    refine ⟨exact_mapObject hkeys.exact hitems.exact _, fun context ↦ ?_⟩
    exact (parseType_mapObject_iff _ _ _).trans (and_congr (hkeys.parse _) (hitems.parse _))
  | struct fields =>
    rw [convertType] at h
    split_ifs at h
    obtain ⟨⟨objects, ntz'⟩, hfields, hok⟩ := Except.bind_eq_ok.mp h
    cases hok
    have hfields := fieldsReadIff_of_convertFields fields hfields
    refine ⟨exact_structObject hfields.exact, fun context ↦ ?_⟩
    exact (parseType_structObject_iff _).trans (hfields.parse _)
  | null => cases h
  | other text => cases h

theorem fieldsReadIff_of_convertFields (fields : List (FieldInfo × ArrowType)) {pre : ByteString}
    {names : List ByteString} {objects : List Json} {ntz : Bool}
    (h : convertFields pre names fields = .ok (objects, ntz)) :
    FieldsReadIff json objects (FieldsScalesFit fields) := by
  cases fields with
  | nil =>
    cases h
    refine ⟨fun _ h ↦ absurd h List.not_mem_nil, fun pre ↦ ?_⟩
    rw [parseFields]
    exact iff_of_true ⟨[], rfl⟩ trivial
  | cons field fields =>
    obtain ⟨f, t⟩ := field
    rw [convertFields] at h
    obtain ⟨⟨⟩, -, h⟩ := Except.bind_eq_ok.mp h
    obtain ⟨⟨type, typeNtz⟩, htype, h⟩ := Except.bind_eq_ok.mp h
    obtain ⟨⟨rest, restNtz⟩, hrest, hok⟩ := Except.bind_eq_ok.mp h
    cases hok
    have htype := readIff_of_convertType t htype
    have hrest := fieldsReadIff_of_convertFields fields hrest
    refine ⟨fun object hobject ↦ ?_, fun pre ↦ ?_⟩
    · rcases List.mem_cons.mp hobject with rfl | hobject
      · exact exact_fieldObject f htype.exact
      · exact hrest.exact object hobject
    · exact (parseFields_fieldObject_iff _ _ _).trans (and_congr (htype.parse _) (hrest.parse _))

end

end LakeVilla.Schema

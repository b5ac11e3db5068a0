import LakeVilla.Schema.Stored

/-!
# Schema conversion round trip

The schema of a table is written to the log by one process and read by another. Whatever
`to_delta_schema` accepts is read back, as a schema that is written in the same way. Delta has no
place for some of what Arrow says of lists and maps; all else of a canonical schema comes back.
-/

namespace LakeVilla.Schema

open ByteString
open Keys (Json JsonText cString cString_eq_self)

/-! ## Reading a schema back -/

/-- The schema that is read back. -/
def ArrowSchema.stored (schema : ArrowSchema) : ArrowSchema :=
  { fields := storedFields schema.fields }

def ArrowSchema.Canonical (schema : ArrowSchema) : Prop := CanonicalFields schema.fields

def ArrowSchema.Bare (schema : ArrowSchema) : Prop :=
  schema.metadata = none ∧ BareFields schema.fields

theorem ArrowSchema.stored_eq_self {schema : ArrowSchema} (h : schema.Canonical)
    (hbare : schema.Bare) : schema.stored = schema := by
  obtain ⟨fields, metadata⟩ := schema
  obtain ⟨rfl, hbare⟩ := hbare
  rw [ArrowSchema.stored, storedFields_eq_self fields h hbare]

section RoundTrip

variable {json : JsonText} {schema : ArrowSchema} {delta : DeltaSchema}

/-- What is written is the text of a document of fields. -/
theorem toDeltaSchema_ok (h : toDeltaSchema json schema = .ok delta) :
    schema.fields ≠ [] ∧ ∃ objects ntz, convertFields [] [] schema.fields = .ok (objects, ntz) ∧
      delta.schemaString = cString (json.write (structObject objects)) ∧
      delta.features = if ntz then [ascii "timestampNtz"] else [] := by
  rw [toDeltaSchema] at h
  split_ifs at h with hempty
  obtain ⟨⟨objects, ntz⟩, hfields, hok⟩ := Except.bind_eq_ok.mp h
  cases hok
  exact ⟨fun h ↦ hempty (List.isEmpty_iff.mpr h), objects, ntz, hfields, rfl, rfl⟩

/-- A document of fields is read. -/
theorem fromDeltaSchema_write {objects : List Json}
    (hfaithful : json.Faithful (structObject objects))
    (hexact : ∀ object ∈ objects, object.Exact) {fields : List (FieldInfo × ArrowType)}
    (hfields : parseFields json objects [] = .ok fields) :
    fromDeltaSchema json (cString (json.write (structObject objects))) =
      .ok { fields := fields } := by
  obtain ⟨value, hparse, hreads⟩ := hfaithful.parse_write
  obtain rfl := exact_structObject hexact hreads
  rw [fromDeltaSchema, cString_eq_self hfaithful.nul_not_mem, hparse]
  change (do return ({ fields := ← parseFields json objects [] } : ArrowSchema)) = _
  rw [hfields]
  rfl

/-- The schema that is read back is written in the same way. -/
theorem toDeltaSchema_stored {objects : List Json} {ntz : Bool} (hne : schema.fields ≠ [])
    (hfields : convertFields [] [] schema.fields = .ok (objects, ntz))
    (hstored : convertFields [] [] (storedFields schema.fields) = .ok (objects, ntz)) :
    toDeltaSchema json schema.stored = toDeltaSchema json schema := by
  have hempty : ∀ {fields : List (FieldInfo × ArrowType)}, fields ≠ [] →
      ¬fields.isEmpty = true := fun h h' ↦ h (List.isEmpty_iff.mp h')
  have hne' : schema.stored.fields ≠ [] := by
    obtain ⟨fields, metadata⟩ := schema
    obtain ⟨field, fields, rfl⟩ := List.exists_cons_of_ne_nil hne
    exact List.cons_ne_nil _ _
  rw [toDeltaSchema, toDeltaSchema, if_neg (hempty hne), if_neg (hempty hne'), hfields]
  rw [show schema.stored.fields = storedFields schema.fields from rfl, hstored]

/-- An accepted schema without NUL is read back, and what is read is written in the same way; a
canonical schema is returned if it says nothing that Delta does not keep. -/
theorem schema_round_trip (h : toDeltaSchema json schema = .ok delta)
    (hplain : PlainFields schema.fields)
    (hfaithful : ∀ objects ntz, convertFields [] [] schema.fields = .ok (objects, ntz) →
      json.Faithful (structObject objects)) :
    ∃ schema', fromDeltaSchema json delta.schemaString = .ok schema' ∧
      toDeltaSchema json schema' = .ok delta ∧
      (schema.Canonical → schema.Bare → schema' = schema) := by
  obtain ⟨hne, objects, ntz, hfields, hstring, -⟩ := toDeltaSchema_ok h
  have hstored : FieldsStoredAs json [] schema.fields objects ntz :=
    fieldsStoredAs_of_convertFields schema.fields hfields hplain
  refine ⟨schema.stored, ?_, ?_, ArrowSchema.stored_eq_self⟩
  · rw [hstring]
    exact fromDeltaSchema_write (hfaithful objects ntz hfields) hstored.exact (hstored.parse [])
  · rw [toDeltaSchema_stored hne hfields (hstored.convert []), h]

end RoundTrip

/-! ## A schema with a map -/

/-- A key, a price and labels, whose keys may be marked as sorted. -/
def sampleSchema (keysSorted : Bool) : ArrowSchema where
  fields :=
    [({ name := ascii "id", nullable := false }, .utf8),
      ({ name := ascii "price", metadata := some [(ascii "unit", ascii "cent")] },
        .decimal128 ⟨10, 2, Decimal128.one_le_ten, Decimal128.ten_le_max⟩),
      ({ name := ascii "labels" },
        .map { name := ascii "key", nullable := false } .utf8 { name := ascii "value" }
          (.list { name := ascii "element", nullable := false } .int32) keysSorted)]

def sampleObjects : List Json :=
  [fieldObject { name := ascii "id", nullable := false } (.string (ascii "string")),
    fieldObject { name := ascii "price", metadata := some [(ascii "unit", ascii "cent")] }
      (.string (ascii "decimal(10,2)")),
    fieldObject { name := ascii "labels" }
      (mapObject (.string (ascii "string")) (arrayObject (.string (ascii "integer")) false) true)]

def sampleString : ByteString :=
  ascii "\x7b\"type\":\"struct\",\"fields\":[\x7b\"name\":\"id\",\"type\":\"string\"," ++
    ascii "\"nullable\":false,\"metadata\":\x7b\x7d\x7d,\x7b\"name\":\"price\"," ++
    ascii "\"type\":\"decimal(10,2)\",\"nullable\":true," ++
    ascii "\"metadata\":\x7b\"unit\":\"cent\"\x7d\x7d," ++
    ascii "\x7b\"name\":\"labels\",\"type\":\x7b\"type\":\"map\",\"keyType\":\"string\"," ++
    ascii "\"valueType\":\x7b\"type\":\"array\",\"elementType\":\"integer\"," ++
    ascii "\"containsNull\":false\x7d,\"valueContainsNull\":true\x7d,\"nullable\":true," ++
    ascii "\"metadata\":\x7b\x7d\x7d]\x7d"

/-- rapidjson, for the document of the sample. -/
def sampleJson : JsonText where
  write _ := sampleString
  parse _ := some (structObject sampleObjects)

def sampleDelta : DeltaSchema where
  schemaString := sampleString
  features := []

theorem sampleJson_faithful : sampleJson.Faithful (structObject sampleObjects) where
  parse_write := ⟨_, rfl, .refl _⟩
  nul_not_mem := by decide +kernel
  write_ne_nil := List.cons_ne_nil _ _

theorem convertFields_sampleSchema (keysSorted : Bool) :
    convertFields [] [] (sampleSchema keysSorted).fields = .ok (sampleObjects, false) := rfl

theorem toDeltaSchema_sampleSchema (keysSorted : Bool) :
    toDeltaSchema sampleJson (sampleSchema keysSorted) = .ok sampleDelta := by
  have hne : ¬(sampleSchema keysSorted).fields.isEmpty = true := Bool.false_ne_true
  rw [toDeltaSchema, if_neg hne, convertFields_sampleSchema]
  change (.ok ⟨cString (sampleJson.write (structObject sampleObjects)), []⟩ :
    Except ByteString DeltaSchema) = _
  rw [cString_eq_self sampleJson_faithful.nul_not_mem]
  rfl

theorem sampleSchema_canonical (keysSorted : Bool) : (sampleSchema keysSorted).Canonical := by
  simp [ArrowSchema.Canonical, sampleSchema, CanonicalFields, Canonical]

theorem sampleSchema_plain (keysSorted : Bool) : PlainFields (sampleSchema keysSorted).fields := by
  refine ⟨⟨by decide, by simp⟩, trivial, ⟨by decide, ?_⟩, ?_, ⟨by decide, by simp⟩, ?_, trivial⟩
  · decide
  · exact ⟨by decide, by decide⟩
  · exact ⟨trivial, trivial⟩

theorem schema_round_trip_sample :
    ∃ schema', fromDeltaSchema sampleJson sampleString = .ok schema' ∧
      toDeltaSchema sampleJson schema' = .ok sampleDelta ∧ schema' = sampleSchema false := by
  obtain ⟨schema', hread, hwrite, heq⟩ := schema_round_trip (toDeltaSchema_sampleSchema false)
    (sampleSchema_plain false) fun objects ntz h ↦ by
      rw [convertFields_sampleSchema] at h
      cases h
      exact sampleJson_faithful
  exact ⟨schema', hread, hwrite, heq (sampleSchema_canonical false)
    ⟨rfl, trivial, trivial, ⟨rfl, rfl, rfl, trivial, rfl, trivial⟩, trivial⟩⟩

/-- The keys of a map are not sorted when the schema is read back. -/
theorem sorted_keys_forgotten :
    (sampleSchema true).Canonical ∧ PlainFields (sampleSchema true).fields ∧
      sampleJson.Faithful (structObject sampleObjects) ∧
      toDeltaSchema sampleJson (sampleSchema true) = .ok sampleDelta ∧
      fromDeltaSchema sampleJson sampleString = .ok (sampleSchema false) ∧
      sampleSchema false ≠ sampleSchema true := by
  refine ⟨sampleSchema_canonical true, sampleSchema_plain true, sampleJson_faithful,
    toDeltaSchema_sampleSchema true, ?_, fun h ↦ ?_⟩
  · have hstored : FieldsStoredAs sampleJson [] (sampleSchema true).fields sampleObjects false :=
      fieldsStoredAs_of_convertFields _ (convertFields_sampleSchema true) (sampleSchema_plain true)
    have hread := fromDeltaSchema_write sampleJson_faithful hstored.exact (hstored.parse [])
    rwa [cString_eq_self sampleJson_faithful.nul_not_mem] at hread
  · injection h with hfields
    simp at hfields

end LakeVilla.Schema

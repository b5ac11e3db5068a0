import LakeVilla.Keys.AddEntry

/-!
# Arrow schemas and Delta schemas

`to_delta_schema` writes an Arrow schema as the JSON text of `metaData.schemaString`, and
`from_delta_schema` reads such a text. Delta has fewer types than Arrow, and keeps less of the
fields of lists and maps.

rapidjson is a parameter, as for the add action.
-/

namespace LakeVilla.Schema

open ByteString
open Keys (Json JsonText cString isSpace splitSign withSign)

/-! ## Arrow types -/

inductive TimeUnit
  | second
  | milli
  | micro
  | nano
  deriving DecidableEq, Repr

/-- Precision and scale of a `Decimal128Type`; Arrow builds no type with another precision. -/
structure Decimal128 where
  precision : ℕ
  scale : ℤ
  one_le : 1 ≤ precision
  le_max : precision ≤ 38
  deriving DecidableEq

theorem Decimal128.one_le_ten : 1 ≤ 10 := by decide

theorem Decimal128.ten_le_max : 10 ≤ 38 := by decide

/-- What an `arrow::Field` holds beside its type. -/
structure FieldInfo where
  name : ByteString
  nullable : Bool := true
  metadata : Option (List (ByteString × ByteString)) := none
  deriving DecidableEq

inductive ArrowType
  | utf8
  | largeUtf8
  | int8
  | int16
  | int32
  | int64
  | float32
  | float64
  | boolean
  | binary
  | largeBinary
  | fixedSizeBinary (width : ℕ)
  | date32
  | timestamp (unit : TimeUnit) (timezone : ByteString)
  | decimal128 (d : Decimal128)
  | dictionary (values : ArrowType)
  | list (field : FieldInfo) (values : ArrowType)
  | largeList (field : FieldInfo) (values : ArrowType)
  | map (keyField : FieldInfo) (keys : ArrowType) (itemField : FieldInfo) (items : ArrowType)
    (keysSorted : Bool)
  | struct (fields : List (FieldInfo × ArrowType))
  | null
  /-- any other type, by its `ToString` -/
  | other (text : ByteString)

structure ArrowSchema where
  fields : List (FieldInfo × ArrowType)
  metadata : Option (List (ByteString × ByteString)) := none

/-! ## `to_delta_schema` -/

/-- The characters that are invalid in names: space, comma, semicolon, braces, parentheses, newline,
tab and the equals sign. -/
def invalidCharacters : List Byte := [32, 44, 59, 123, 125, 40, 41, 10, 9, 61]

/-- The name of a decimal type -/
def decimalName (d : Decimal128) : ByteString :=
  ascii "decimal(" ++ (decimal d.precision ++ (ascii "," ++ (toText d.scale ++ ascii ")")))

def metadataMembers (metadata : Option (List (ByteString × ByteString))) :
    List (ByteString × Json) :=
  (metadata.getD []).map fun m ↦ (cString m.1, .string (cString m.2))

/-- The JSON object of a field. -/
def fieldObject (f : FieldInfo) (type : Json) : Json :=
  .object
    [(ascii "name", .string (cString f.name)), (ascii "type", type),
      (ascii "nullable", .bool f.nullable),
      (ascii "metadata", .object (metadataMembers f.metadata))]

def arrayObject (element : Json) (containsNull : Bool) : Json :=
  .object
    [(ascii "type", .string (ascii "array")), (ascii "elementType", element),
      (ascii "containsNull", .bool containsNull)]

def mapObject (key value : Json) (valueContainsNull : Bool) : Json :=
  .object
    [(ascii "type", .string (ascii "map")), (ascii "keyType", key), (ascii "valueType", value),
      (ascii "valueContainsNull", .bool valueContainsNull)]

def structObject (fields : List Json) : Json :=
  .object [(ascii "type", .string (ascii "struct")), (ascii "fields", .array fields)]

/-- What is checked of the name of a field; `names` are the earlier names in lower case. -/
def checkName (pre : ByteString) (names : List ByteString) (name : ByteString) :
    Except ByteString Unit :=
  if name = [] then .error (pre ++ ascii "<empty>: empty column name")
  else if name.any (· ∈ invalidCharacters) then
    .error (pre ++ name ++ ascii ": invalid character among ' ,;\x7b\x7d()\\n\\t=' (needs " ++
      ascii "column mapping, which LakeVilla does not support)")
  else if name.map Keys.DeltaLogEntry.toLower ∈ names then
    .error (pre ++ name ++ ascii ": duplicate column name")
  else .ok ()

mutual

/-- `Converter::type`: the JSON value, and whether the feature `timestampNtz` is needed. -/
def convertType (context : ByteString) : ArrowType → Except ByteString (Json × Bool)
  | .utf8 | .largeUtf8 => .ok (.string (ascii "string"), false)
  | .int8 => .ok (.string (ascii "byte"), false)
  | .int16 => .ok (.string (ascii "short"), false)
  | .int32 => .ok (.string (ascii "integer"), false)
  | .int64 => .ok (.string (ascii "long"), false)
  | .float32 => .ok (.string (ascii "float"), false)
  | .float64 => .ok (.string (ascii "double"), false)
  | .boolean => .ok (.string (ascii "boolean"), false)
  | .binary | .largeBinary | .fixedSizeBinary _ => .ok (.string (ascii "binary"), false)
  | .date32 => .ok (.string (ascii "date"), false)
  | .timestamp _ timezone =>
    if timezone = [] then .ok (.string (ascii "timestamp_ntz"), true)
    else .ok (.string (ascii "timestamp"), false)
  | .decimal128 d =>
    if 38 < d.precision then .error (context ++ ascii ": decimal precision above 38")
    else .ok (.string (decimalName d), false)
  | .dictionary values => convertType context values
  | .list field values | .largeList field values => do
    let (element, ntz) ← convertType (context ++ ascii ".element") values
    return (arrayObject element field.nullable, ntz)
  | .map _ keys itemField items _ => do
    let (key, keyNtz) ← convertType (context ++ ascii ".key") keys
    let (value, valueNtz) ← convertType (context ++ ascii ".value") items
    return (mapObject key value itemField.nullable, keyNtz || valueNtz)
  | .struct fields =>
    if fields.isEmpty then .error (context ++ ascii ".: struct without fields")
    else do
      let (objects, ntz) ← convertFields (context ++ ascii ".") [] fields
      return (structObject objects, ntz)
  | .null => .error (context ++ ascii ": Arrow type null has no Delta equivalent")
  | .other text =>
    .error (context ++ ascii ": Arrow type " ++ text ++ ascii " has no Delta equivalent")

/-- The loop of `Converter::fields`. -/
def convertFields (pre : ByteString) (names : List ByteString) :
    List (FieldInfo × ArrowType) → Except ByteString (List Json × Bool)
  | [] => .ok ([], false)
  | (f, t) :: fields => do
    checkName pre names f.name
    let (type, ntz) ← convertType (pre ++ f.name) t
    let (objects, restNtz) ←
      convertFields pre (f.name.map Keys.DeltaLogEntry.toLower :: names) fields
    return (fieldObject f type :: objects, ntz || restNtz)

end

structure DeltaSchema where
  schemaString : ByteString
  features : List ByteString
  deriving DecidableEq

/-- `to_delta_schema` -/
def toDeltaSchema (json : JsonText) (schema : ArrowSchema) : Except ByteString DeltaSchema :=
  if schema.fields.isEmpty then .error (ascii "the schema has no columns")
  else do
    let (objects, ntz) ← convertFields [] [] schema.fields
    return {
      schemaString := cString (json.write (structObject objects))
      features := if ntz then [ascii "timestampNtz"] else [] }

/-! ## `from_delta_schema` -/

/-- `%d` of `sscanf`: white space, a sign and digits. -/
def scanInt (text : ByteString) : Option (ℤ × ByteString) :=
  let (negative, text) := splitSign (text.dropWhile isSpace)
  let digits := text.takeWhile isDigit
  if digits = [] then none
  else some (withSign negative (ofDecimal digits), text.dropWhile isDigit)

/-- What follows a text. -/
def after (start text : ByteString) : Option ByteString :=
  if start.isPrefixOf text then some (text.drop start.length) else none

/-- `sscanf` with `decimal(%d ,%d )`, if it assigns both numbers -/
def scanDecimal (name : ByteString) : Option (ℤ × ℤ) := do
  let text ← after (ascii "decimal(") name
  let (precision, text) ← scanInt text
  let text ← after (ascii ",") (text.dropWhile isSpace)
  let (scale, _) ← scanInt text
  return (precision, scale)

/-- `Parser::primitive` -/
def primitive (name context : ByteString) : Except ByteString ArrowType :=
  if name = ascii "string" then .ok .utf8
  else if name = ascii "long" then .ok .int64
  else if name = ascii "integer" then .ok .int32
  else if name = ascii "short" then .ok .int16
  else if name = ascii "byte" then .ok .int8
  else if name = ascii "float" then .ok .float32
  else if name = ascii "double" then .ok .float64
  else if name = ascii "boolean" then .ok .boolean
  else if name = ascii "binary" then .ok .binary
  else if name = ascii "date" then .ok .date32
  else if name = ascii "timestamp" then .ok (.timestamp .micro (ascii "UTC"))
  else if name = ascii "timestamp_ntz" then .ok (.timestamp .micro [])
  else if name = ascii "void" then .ok .null
  else if name = ascii "decimal" then
    .ok (.decimal128 ⟨10, 0, Decimal128.one_le_ten, Decimal128.ten_le_max⟩)
  -- CHAR/VARCHAR are strings (Spark keeps the length in the metadata)
  else if (ascii "char(").isPrefixOf name ∨ (ascii "varchar(").isPrefixOf name then .ok .utf8
  else
    match scanDecimal name with
    | some (precision, scale) =>
      if h : precision < 1 ∨ 38 < precision ∨ scale < 0 ∨ precision < scale then
        .error (context ++ ascii ": invalid " ++ name)
      else .ok (.decimal128 ⟨precision.toNat, scale, by omega, by omega⟩)
    | none => .error (context ++ ascii ": unsupported Delta type " ++ name)

/-- `Parser::flag`: true unless there is `false`. -/
def flag (members : List (ByteString × Json)) (name : ByteString) : Bool :=
  match members.lookup name with
  | some (.bool b) => b
  | _ => true

/-- The metadata of a field: `nullptr` if there is none. -/
def parseMetadata (json : JsonText) (members : List (ByteString × Json)) :
    Option (List (ByteString × ByteString)) :=
  match members.lookup (ascii "metadata") with
  | some (.object entries) =>
    if entries.isEmpty then none
    else some <| entries.map fun e ↦
      (cString e.1, match e.2 with
        | .string s => cString s
        | value => json.write value)
  | _ => none

theorem sizeOf_lookup {members : List (ByteString × Json)} {name : ByteString} {v : Json}
    (h : members.lookup name = some v) : sizeOf v < sizeOf (Json.object members) := by
  have hmem := List.sizeOf_lt_of_mem (AssocList.mem_of_lookup h)
  simp only [Prod.mk.sizeOf_spec, Json.object.sizeOf_spec] at hmem ⊢
  omega

mutual

/-- `Parser::type` -/
def parseType (json : JsonText) (value : Json) (context : ByteString) :
    Except ByteString ArrowType :=
  match value with
  | .string name => primitive (cString name) context
  | .object members =>
    match members.lookup (ascii "type") with
    | some (.string kind) =>
      if cString kind = ascii "struct" then
        match _h : members.lookup (ascii "fields") with
        | some (.array fields) => do
          return .struct (← parseFields json fields (context ++ ascii "."))
        | _ => .error (context ++ ascii ".: struct without fields")
      else if cString kind = ascii "array" then
        match _h : members.lookup (ascii "elementType") with
        | some elementType => do
          let element ← parseType json elementType (context ++ ascii ".element")
          return .list { name := ascii "element", nullable := flag members (ascii "containsNull") }
            element
        | none => .error (context ++ ascii ": unsupported Delta type " ++ cString kind)
      else if cString kind = ascii "map" then
        match _hk : members.lookup (ascii "keyType"), _hv : members.lookup (ascii "valueType") with
        | some keyType, some valueType => do
          let key ← parseType json keyType (context ++ ascii ".key")
          let item ← parseType json valueType (context ++ ascii ".value")
          return .map { name := ascii "key", nullable := false } key
            { name := ascii "value", nullable := flag members (ascii "valueContainsNull") } item
            false
        | _, _ => .error (context ++ ascii ": unsupported Delta type " ++ cString kind)
      else .error (context ++ ascii ": unsupported Delta type " ++ cString kind)
    | _ => .error (context ++ ascii ": invalid type " ++ json.write value)
  | _ => .error (context ++ ascii ": invalid type " ++ json.write value)
termination_by sizeOf value
decreasing_by
  · have hlt := sizeOf_lookup _h
    simp only [Json.array.sizeOf_spec] at hlt
    omega
  · exact sizeOf_lookup _h
  · exact sizeOf_lookup _hk
  · exact sizeOf_lookup _hv

/-- The loop of `Parser::fields`. -/
def parseFields (json : JsonText) (fields : List Json) (pre : ByteString) :
    Except ByteString (List (FieldInfo × ArrowType)) :=
  match fields with
  | [] => .ok []
  | .object members :: fields =>
    match members.lookup (ascii "name"), _h : members.lookup (ascii "type") with
    | some (.string name), some typeValue => do
      let type ← parseType json typeValue (pre ++ cString name)
      let rest ← parseFields json fields pre
      let info : FieldInfo :=
        { name := cString name
          nullable := flag members (ascii "nullable")
          metadata := parseMetadata json members }
      return (info, type) :: rest
    | _, _ => .error (pre ++ ascii ": invalid field " ++ json.write (.object members))
  | field :: _ => .error (pre ++ ascii ": invalid field " ++ json.write field)
termination_by sizeOf fields
decreasing_by
  · have hlt := sizeOf_lookup _h
    simp only [List.cons.sizeOf_spec]
    omega
  · simp only [List.cons.sizeOf_spec]
    omega

end

/-- `from_delta_schema` -/
def fromDeltaSchema (json : JsonText) (schemaString : ByteString) : Except ByteString ArrowSchema :=
  match json.parse schemaString with
  | some (.object members) =>
    match members.lookup (ascii "fields") with
    | some (.array fields) => do return { fields := ← parseFields json fields [] }
    | _ => .error (ascii ": struct without fields")
  | _ => .error (ascii "schemaString is not a JSON object")

end LakeVilla.Schema

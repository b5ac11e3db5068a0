import LakeVilla.Conform.Arrays
import LakeVilla.Tables.CreateTable

/-!
# Conversion to the schema of a table

`conform_to_schema` converts the columns of a table to the types of a schema: structs by the names
of their fields, maps by position, lists with their offsets as they are, and all else by Arrow.
-/

namespace LakeVilla.Conform

open ByteString
open Schema (ArrowType ArrowSchema FieldInfo TimeUnit)
open Tables (lower)

/-! ## Fields -/

/-- `kPhysicalName` -/
def physicalName : ByteString := ascii "delta.columnMapping.physicalName"

/-- `file_name`: the column name of a schema field in the data files. -/
def fileName (f : FieldInfo) (physicalNames : Bool) : ByteString :=
  match f.metadata with
  | some metadata =>
    if physicalNames then (metadata.lookup physicalName).getD f.name else f.name
  | none => f.name

/-- `find_field`: the exact name first. -/
def findField (fields : List (FieldInfo × ArrowType)) (name : ByteString) : Option ℕ :=
  match fields.findIdx? (·.1.name = name) with
  | some i => some i
  | none => fields.findIdx? (lower ·.1.name = lower name)

/-! ## Arrays -/

/-- `Status::WithMessage` -/
def Fault.withMessage (pre : ByteString) : Fault → Fault
  | .undefined => .undefined
  | .invalid message => .invalid (pre ++ message)
  | .typeError message => .typeError (pre ++ message)

def Fault.message : Fault → ByteString
  | .undefined => []
  | .invalid message | .typeError message => message

def Value.time : Value → Option ℤ
  | .scalar (.int n) => some n
  | _ => none

def Value.ofTime : Option ℤ → Value
  | some n => .scalar (.int n)
  | none => .null

/-- The conversions that are left to Arrow. -/
def castSafe (A : Library) (context : ByteString) (type : ArrowType) (source : ArrowArray) :
    Except Fault ArrowArray :=
  match A.cast source type with
  | .ok a => .ok a
  | .error e => .error <| .typeError <|
    context ++ ascii ": cannot convert " ++ A.toString source.type ++ ascii " to " ++
      A.toString type ++ ascii " (" ++ e.message ++ ascii ")"

/-- `convert_timestamps`, if the source has timestamps. -/
def conformTimestamps (A : Library) (context : ByteString) (unit : TimeUnit)
    (timezone : ByteString) : ArrowArray → Except Fault ArrowArray
  | .plain (.timestamp source _) values => do
    let times ← convertTimestamps source unit context (values.map Value.time)
    return .plain (.timestamp unit timezone) (times.map Value.ofTime)
  | source => castSafe A context (.timestamp unit timezone) source

/-- The length of the children of a struct, which are not sliced by its offset. -/
def childLength (length offset : ℕ) : List ArrowArray → ℕ
  | [] => offset + length
  | child :: _ => child.length

/-- A child of `conform_struct`: nulls if the source has none. -/
def structChild (A : Library) (type : ArrowType) (length : ℕ) (children : List ArrowArray)
    (convert : ArrowArray → Except Fault ArrowArray) : Option ℕ → Except Fault ArrowArray
  | none => A.makeArrayOfNull type length
  | some i =>
    match children[i]? with
    | some child => convert child
    | none => .error .undefined

/-- The list that `conform_list` converts, with 32-bit offsets. -/
def asList (A : Library) (context : ByteString) (source : ArrowArray) :
    Option (Except Fault ArrowArray) :=
  match source.type with
  | .list _ _ => some (.ok source)
  | .largeList f t =>
    some ((A.cast source (.list f t)).mapError (.withMessage (context ++ ascii ": ")))
  | _ => none

mutual

/-- `conform_array` -/
def conformArray (A : Library) (physicalNames : Bool) (context : ByteString) (type : ArrowType)
    (source : ArrowArray) : Except Fault ArrowArray :=
  if A.equals source.type type then .ok source
  else if source.type matches .null then A.makeArrayOfNull type source.length
  else
    match type with
    | .timestamp unit timezone => conformTimestamps A context unit timezone source
    | .struct fields =>
      match source with
      | .struct sourceFields length offset validity children => do
        let converted ← conformFields A physicalNames context sourceFields
          (childLength length offset children) children fields
        return .struct fields length offset validity converted
      | _ => castSafe A context (.struct fields) source
    | .list f t =>
      match asList A context source with
      | some result => do
        match ← result with
        | .list _ length offset validity offsets child =>
          let values ← conformArray A physicalNames (context ++ ascii ".element") t child
          return .list (.list f t) length offset validity offsets values
        | _ => .error .undefined
      | none => castSafe A context (.list f t) source
    | .map keyField keys itemField items keysSorted =>
      match source with
      | .list (.map _ _ _ _ _) length offset validity offsets
          (.struct _ entries entriesOffset entriesValidity children) => do
        let total := childLength entries entriesOffset children
        let position (i : ℕ) := if i < children.length then some i else none
        let key ← structChild A keys total children
          (conformArray A physicalNames (context ++ ascii "." ++ keyField.name) keys) (position 0)
        let item ← structChild A items total children
          (conformArray A physicalNames (context ++ ascii "." ++ itemField.name) items)
          (position 1)
        return .list (.map keyField keys itemField items keysSorted) length offset validity offsets
          (.struct [(keyField, keys), (itemField, items)] entries entriesOffset entriesValidity
            [key, item])
      | _ => castSafe A context (.map keyField keys itemField items keysSorted) source
    | type => castSafe A context type source

/-- The loop of `conform_struct`. -/
def conformFields (A : Library) (physicalNames : Bool) (context : ByteString)
    (sourceFields : List (FieldInfo × ArrowType)) (length : ℕ) (children : List ArrowArray) :
    List (FieldInfo × ArrowType) → Except Fault (List ArrowArray)
  | [] => .ok []
  | (f, t) :: fields => do
    let child ← structChild A t length children
      (conformArray A physicalNames (context ++ ascii "." ++ f.name) t)
      (findField sourceFields (fileName f physicalNames))
    let rest ← conformFields A physicalNames context sourceFields length children fields
    return child :: rest

end

/-! ## Tables -/

structure ArrowTable where
  fields : List (FieldInfo × ArrowType)
  /-- the chunks of each column -/
  columns : List (List ArrowArray)
  rows : ℕ

structure ConformOptions where
  physicalNames : Bool := false
  partitionValues : Option (List (ByteString × Option ByteString)) := none
  rejectExtraColumns : Bool := false

/-- The value of a partition column; of several entries the last one counts. -/
def ConformOptions.partitionValue (options : ConformOptions) (name : ByteString) :
    Option (Option ByteString) :=
  (options.partitionValues.getD []).foldl
    (fun value entry ↦ if lower entry.1 = lower name then some entry.2 else value) none

/-- The column of the table that a field of the schema takes. -/
def ConformOptions.columnOf (options : ConformOptions) (table : ArrowTable) (f : FieldInfo) :
    Option ℕ :=
  match options.partitionValue f.name with
  | some _ => none
  | none => findField table.fields (fileName f options.physicalNames)

/-- A column before it is checked for nulls. -/
def conformColumn (A : Library) (options : ConformOptions) (table : ArrowTable) (f : FieldInfo)
    (t : ArrowType) : Except Fault (List ArrowArray) :=
  match options.partitionValue f.name with
  | some none => do return [← A.makeArrayOfNull t table.rows]
  | some (some text) =>
    match A.parseScalar t text with
    | none => .error <| .invalid <|
      ascii "partition column " ++ f.name ++ ascii ": cannot parse '" ++ text ++ ascii "' as " ++
        A.toString t
    | some scalar => do return [← A.makeArrayFromScalar t scalar table.rows]
  | none =>
    match findField table.fields (fileName f options.physicalNames) with
    | none =>
      if !f.nullable then .error <| .invalid <|
        ascii "column " ++ f.name ++ ascii " is NOT NULL but missing in the file"
      else do return [← A.makeArrayOfNull t table.rows]
    | some i => do
      let chunks ← (table.columns.getD i []).mapM
        (conformArray A options.physicalNames (ascii "column " ++ f.name) t)
      A.makeChunked chunks t

/-- The loop over the fields of the schema. -/
def conformColumns (A : Library) (options : ConformOptions) (table : ArrowTable) :
    List (FieldInfo × ArrowType) → Except Fault (List (List ArrowArray))
  | [] => .ok []
  | (f, t) :: fields => do
    let column ← conformColumn A options table f t
    if !f.nullable ∧ 0 < (column.map ArrowArray.nullCount).sum then
      .error (.invalid (ascii "column " ++ f.name ++ ascii " is NOT NULL but contains nulls"))
    else
      let rest ← conformColumns A options table fields
      return column :: rest

/-- Columns that no field of the schema takes. -/
def extraColumn (options : ConformOptions) (table : ArrowTable) (schema : ArrowSchema) :
    Option ℕ :=
  (List.range table.fields.length).find? fun i ↦
    schema.fields.all fun f ↦ options.columnOf table f.1 ≠ some i

/-- `conform_to_schema` -/
def conformToSchema (A : Library) (table : Option ArrowTable) (schema : ArrowSchema)
    (options : ConformOptions) : Except Fault ArrowTable :=
  match table with
  | none => .error (.invalid (ascii "no table"))
  | some table => do
    let columns ← conformColumns A options table schema.fields
    match options.rejectExtraColumns, extraColumn options table schema with
    | true, some i =>
      .error (.invalid (ascii "column " ++ ((table.fields.map (·.1.name)).getD i []) ++
        ascii " is not part of the table schema"))
    | _, _ => return ⟨schema.fields, columns, table.rows⟩

/-- `conform_for_write`; `schema` is what `table_schema` gives, if the table has metadata. -/
def conformForWrite (A : Library) (schema : Except ByteString (Option Tables.TableSchema))
    (rows : Option ArrowTable) : Option ArrowTable :=
  match schema, rows with
  | .error _, _ => none
  | .ok none, rows => rows
  | .ok (some _), none => none
  | .ok (some schema), some rows =>
    -- no data files of tables with partition columns or column mapping
    if schema.partitionColumns ≠ [] ∨ schema.columnMapping then none
    else
      match conformToSchema A (some rows) schema.schema { rejectExtraColumns := true } with
      | .ok conformed => some conformed
      | .error _ => none

end LakeVilla.Conform

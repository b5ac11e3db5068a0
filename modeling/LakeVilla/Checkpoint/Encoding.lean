import LakeVilla.Checkpoint.Columns

/-!
# Checkpoint files

`generateCheckpoint` builds one JSON object for each action and appends all of them to every column
of the checkpoint schema; `readDLCheckpointContent` reads the columns of the table with code of its
own for each action. Partition values, tags, `protocol` and `metaData` are texts of JSON objects.

rapidjson and Parquet are parameters.
-/

namespace LakeVilla.CheckpointFile

open ByteString
open Keys (Json JsonText cString)

/-! ## The content of a checkpoint -/

/-- An add action -/
structure CheckpointEntry where
  path : ByteString
  stats : ByteString := []
  size : ℤ := -1
  modificationTime : ℤ := -1
  partitionValues : ByteString := []
  tags : ByteString := []
  deriving DecidableEq

/-- A remove action -/
structure CheckpointRemove where
  path : ByteString
  deletionTimestamp : ℤ := 0
  size : ℤ := -1
  partitionValues : ByteString := []
  deriving DecidableEq

structure CheckpointTxn where
  appId : ByteString
  version : ℤ := 0
  /-- -1: absent -/
  lastUpdated : ℤ := -1
  deriving DecidableEq

structure CheckpointDomain where
  domain : ByteString
  configuration : ByteString
  deriving DecidableEq

structure CheckpointContent where
  adds : List CheckpointEntry := []
  removes : List CheckpointRemove := []
  txns : List CheckpointTxn := []
  domains : List CheckpointDomain := []
  protocol : ByteString := []
  metadata : ByteString := []
  unsupported : ByteString := []
  deriving DecidableEq

/-! ## `checkpoint_schema` -/

def stringMap : ColumnType := .map .string

def stringList : ColumnType := .list .string

def protocolFields : List (ByteString × ColumnType) :=
  [(ascii "minReaderVersion", .int32), (ascii "minWriterVersion", .int32),
    (ascii "readerFeatures", stringList), (ascii "writerFeatures", stringList)]

def metadataFields : List (ByteString × ColumnType) :=
  [(ascii "id", .string), (ascii "name", .string), (ascii "description", .string),
    (ascii "format", .struct [(ascii "provider", .string), (ascii "options", stringMap)]),
    (ascii "schemaString", .string), (ascii "partitionColumns", stringList),
    (ascii "configuration", stringMap), (ascii "createdTime", .int64)]

def addFields : List (ByteString × ColumnType) :=
  [(ascii "path", .string), (ascii "partitionValues", stringMap), (ascii "size", .int64),
    (ascii "modificationTime", .int64), (ascii "dataChange", .bool), (ascii "stats", .string),
    (ascii "tags", stringMap)]

def removeFields : List (ByteString × ColumnType) :=
  [(ascii "path", .string), (ascii "deletionTimestamp", .int64), (ascii "dataChange", .bool),
    (ascii "extendedFileMetadata", .bool), (ascii "partitionValues", stringMap),
    (ascii "size", .int64)]

def txnFields : List (ByteString × ColumnType) :=
  [(ascii "appId", .string), (ascii "version", .int64), (ascii "lastUpdated", .int64)]

def domainFields : List (ByteString × ColumnType) :=
  [(ascii "domain", .string), (ascii "configuration", .string), (ascii "removed", .bool)]

def checkpointSchema : List (ByteString × ColumnType) :=
  [(ascii "txn", .struct txnFields), (ascii "add", .struct addFields),
    (ascii "remove", .struct removeFields), (ascii "metaData", .struct metadataFields),
    (ascii "protocol", .struct protocolFields), (ascii "domainMetadata", .struct domainFields)]

/-! ## `generateCheckpoint` -/

/-- A column with its cells in chunks. -/
structure Column where
  type : ColumnType
  chunks : List (List Cell)

abbrev Table := List (ByteString × Column)

def actionRow (action : ByteString) (value : Json) : Json := .object [(action, value)]

/-- `add_action_row` -/
def textRow (json : JsonText) (action text : ByteString) : Except ByteString Json :=
  match json.parse (cString text) with
  | some (.object members) => .ok (actionRow action (.object members))
  | _ => .error (ascii "invalid " ++ action ++ ascii " JSON")

/-- `json_object` -/
def jsonObject (json : JsonText) (text : ByteString) : Except ByteString Json :=
  if text = [] then .ok (.object [])
  else
    match json.parse (cString text) with
    | some (.object members) => .ok (.object members)
    | _ => .error (ascii "invalid JSON object " ++ text)

def txnRow (txn : CheckpointTxn) : Json :=
  actionRow (ascii "txn") <| .object <|
    [(ascii "appId", .string (cString txn.appId)), (ascii "version", .int txn.version)] ++
      if 0 ≤ txn.lastUpdated then [(ascii "lastUpdated", .int txn.lastUpdated)] else []

def domainRow (domain : CheckpointDomain) : Json :=
  actionRow (ascii "domainMetadata") <| .object
    [(ascii "domain", .string (cString domain.domain)),
      (ascii "configuration", .string (cString domain.configuration)),
      (ascii "removed", .bool false)]

/-- With partition values and size if the size is known. -/
def removeRow (json : JsonText) (remove : CheckpointRemove) : Except ByteString Json := do
  let extended ← if 0 ≤ remove.size then do
      let partitionValues ← jsonObject json remove.partitionValues
      pure [(ascii "partitionValues", partitionValues), (ascii "size", .int remove.size)]
    else pure []
  return actionRow (ascii "remove") <| .object <|
    [(ascii "path", .string (cString remove.path)),
      (ascii "deletionTimestamp", .int remove.deletionTimestamp),
      (ascii "dataChange", .bool false),
      (ascii "extendedFileMetadata", .bool (0 ≤ remove.size))] ++ extended

def addRow (json : JsonText) (now : ℤ) (add : CheckpointEntry) : Except ByteString Json := do
  let partitionValues ← jsonObject json add.partitionValues
  let tags ← if add.tags = [] then pure [] else do
    let tags ← jsonObject json add.tags
    pure [(ascii "tags", tags)]
  return actionRow (ascii "add") <| .object <|
    [(ascii "path", .string (cString add.path)), (ascii "partitionValues", partitionValues),
      (ascii "size", .int (if add.size < 0 then 0 else add.size)),
      (ascii "modificationTime",
        .int (if add.modificationTime < 0 then now else add.modificationTime)),
      (ascii "dataChange", .bool false)] ++ tags ++
      if add.stats = [] then [] else [(ascii "stats", .string (cString add.stats))]

/-- The rows of a checkpoint, each with one action. -/
def checkpointRows (json : JsonText) (now : ℤ) (content : CheckpointContent) :
    Except ByteString (List Json) := do
  let protocol ← textRow json (ascii "protocol") content.protocol
  let metadata ← textRow json (ascii "metaData") content.metadata
  let removes ← content.removes.mapM (removeRow json)
  let adds ← content.adds.mapM (addRow json now)
  return protocol :: metadata :: content.txns.map txnRow ++ content.domains.map domainRow ++
    removes ++ adds

/-- One cell of a column for each row. -/
def columnOf (json : JsonText) (rows : List Json) (name : ByteString) (type : ColumnType) :
    Column where
  type := type
  chunks := [rows.map fun row ↦ appendJson json type (row.member name)]

/-- The table of a checkpoint. -/
def checkpointTable (json : JsonText) (now : ℤ) (content : CheckpointContent) :
    Except ByteString Table := do
  let rows ← checkpointRows json now content
  return checkpointSchema.map fun field ↦ (field.1, columnOf json rows field.1 field.2)

/-- `encodeAsParquet_str` and `readParquetAsTable`. -/
structure Parquet where
  encode : Table → ByteString
  decode : ByteString → Option Table

/-- The error is the message of an exception. -/
def generateCheckpoint (parquet : Parquet) (json : JsonText) (now : ℤ)
    (content : CheckpointContent) : Except ByteString ByteString := do
  let table ← checkpointTable json now content
  return parquet.encode table

/-! ## `readDLCheckpointContent` -/

/-- `first_action_json` -/
def firstActionJson (json : JsonText) (table : Table) (name : ByteString) : ByteString :=
  match table.lookup name with
  | none => []
  | some column =>
    match column.chunks.flatten.find? fun cell ↦ !cell.isNull with
    | some cell => json.write (arrowToJson column.type cell)
    | none => []

/-- The fields of a struct column and its rows that are not null; none without such a column. -/
def structColumn (table : Table) (name : ByteString) :
    List (ByteString × ColumnType) × List (List Cell) :=
  match table.lookup name with
  | some ⟨.struct fields, chunks⟩ => (fields, chunks.flatten.filterMap fun cell ↦
    match cell with
    | .struct cells => some cells
    | _ => none)
  | _ => ([], [])

/-- The child of a struct, with its type. -/
def child (fields : List (ByteString × ColumnType)) (cells : List Cell) (name : ByteString) :
    Option (ColumnType × Cell) :=
  ((fields.zip cells).find? fun e ↦ e.1.1 = name).map fun e ↦ (e.1.2, e.2)

/-- `struct_field`: null if the child is missing or has another type. -/
def structField (fields : List (ByteString × ColumnType)) (cells : List Cell) (name : ByteString)
    (id : TypeId) : Cell :=
  match child fields cells name with
  | some (type, cell) => if type.id = id then cell else .null
  | none => .null

/-- `element_json` -/
def elementJson (json : JsonText) : Option (ColumnType × Cell) → ByteString
  | none | some (_, .null) => []
  | some (type, cell) => json.write (arrowToJson type cell)

def Cell.text : Cell → ByteString
  | .string s => s
  | _ => []

def Cell.number (cell : Cell) (default : ℤ) : ℤ :=
  match cell with
  | .int n => n
  | _ => default

/-- An add action; `none` if it has no path. -/
def readAdd (json : JsonText) (fields : List (ByteString × ColumnType)) (cells : List Cell) :
    Option CheckpointEntry :=
  match structField fields cells (ascii "path") .string with
  | .string path => some
      { path := path
        stats := (structField fields cells (ascii "stats") .string).text
        size := (structField fields cells (ascii "size") .int64).number (-1)
        modificationTime := (structField fields cells (ascii "modificationTime") .int64).number (-1)
        partitionValues := elementJson json (child fields cells (ascii "partitionValues"))
        tags := elementJson json (child fields cells (ascii "tags")) }
  | _ => none

def hasDeletionVector (fields : List (ByteString × ColumnType)) (cells : List Cell) : Bool :=
  match structField fields cells (ascii "path") .string, child fields cells (ascii "deletionVector")
  with
  | .string _, some (_, cell) => !cell.isNull
  | _, _ => false

/-- A remove action; `none` if it has no path. -/
def readRemove (json : JsonText) (fields : List (ByteString × ColumnType)) (cells : List Cell) :
    Option CheckpointRemove :=
  match structField fields cells (ascii "path") .string with
  | .string path => some
      { path := path
        deletionTimestamp :=
          (structField fields cells (ascii "deletionTimestamp") .int64).number 0
        size := (structField fields cells (ascii "size") .int64).number (-1)
        partitionValues := elementJson json (child fields cells (ascii "partitionValues")) }
  | _ => none

/-- A txn action; `none` if it is invalid. -/
def readTxn (fields : List (ByteString × ColumnType)) (cells : List Cell) : Option CheckpointTxn :=
  match structField fields cells (ascii "appId") .string,
    structField fields cells (ascii "version") .int64 with
  | .string appId, .int version => some
      { appId := appId
        version := version
        lastUpdated := (structField fields cells (ascii "lastUpdated") .int64).number (-1) }
  | _, _ => none

/-- Whether a domainMetadata action names a domain. -/
def namesDomain (fields : List (ByteString × ColumnType)) (cells : List Cell) : Bool :=
  structField fields cells (ascii "domain") .string matches .string _

/-- A domainMetadata action; removed domains are left out. -/
def readDomain (fields : List (ByteString × ColumnType)) (cells : List Cell) :
    Option CheckpointDomain :=
  match structField fields cells (ascii "domain") .string,
    structField fields cells (ascii "removed") .bool with
  | .string _, .bool true => none
  | .string domain, _ => some
      { domain := domain
        configuration := (structField fields cells (ascii "configuration") .string).text }
  | _, _ => none

/-- The column of adds has no paths. -/
def lacksPaths (table : Table) : Bool :=
  match table.lookup (ascii "add") with
  | some ⟨.struct fields, chunks⟩ =>
    !chunks.isEmpty && !(fields.lookup (ascii "path")).any fun type ↦ type.id = .string
  | _ => false

/-- What a checkpoint has that LakeVilla does not track; the last finding is kept. -/
def unsupportedContent (adds txns domains : List (ByteString × ColumnType) × List (List Cell)) :
    ByteString :=
  if domains.2.any fun cells ↦ !namesDomain domains.1 cells then
    ascii "invalid domainMetadata action"
  else if txns.2.any fun cells ↦ (readTxn txns.1 cells).isNone then ascii "invalid txn action"
  else if adds.2.any (hasDeletionVector adds.1) then ascii "deletion vectors"
  else []

/-- The content of a table. -/
def tableContent (json : JsonText) (table : Table) : Option CheckpointContent :=
  let adds := structColumn table (ascii "add")
  let removes := structColumn table (ascii "remove")
  let txns := structColumn table (ascii "txn")
  let domains := structColumn table (ascii "domainMetadata")
  if lacksPaths table then none
  else
    some
      { adds := adds.2.filterMap (readAdd json adds.1)
        removes := removes.2.filterMap (readRemove json removes.1)
        txns := txns.2.filterMap (readTxn txns.1)
        domains := domains.2.filterMap (readDomain domains.1)
        protocol := firstActionJson json table (ascii "protocol")
        metadata := firstActionJson json table (ascii "metaData")
        unsupported := unsupportedContent adds txns domains }

def readDLCheckpointContent (parquet : Parquet) (json : JsonText) (data : ByteString) :
    Option CheckpointContent :=
  (parquet.decode data).bind (tableContent json)

end LakeVilla.CheckpointFile

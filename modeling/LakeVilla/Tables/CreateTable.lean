import LakeVilla.DeltaLog.FileNames
import LakeVilla.GlobalLog.Entries
import LakeVilla.Schema.DeltaSchema
import LakeVilla.Storage.Connector

/-!
# Creating a table

`create_table` writes version 0 of a table to an empty location, and `table_schema` reads the schema
of a table from its log. The store is a parameter, by what it answers in the course of a call.
-/

namespace LakeVilla.Tables

open ByteString TextLines
open Keys (Json JsonText cString)
open Schema (ArrowSchema DeltaSchema toDeltaSchema fromDeltaSchema)
open Sublog (newline)

inductive TableResult
  | ok
  | notFound
  | alreadyExists
  | notEmpty
  | invalid
  | error
  deriving DecidableEq, Repr

structure TableOptions where
  description : ByteString := []
  properties : List (ByteString × ByteString) := []

/-- `table_prefix`: the path with a slash at its end. -/
def tablePrefix (path : ByteString) : Option ByteString :=
  if path = [] ∨ path = ascii "/" ∨ path.head? = some 47 then none
  else if path.getLast? = some 47 then some path
  else some (path ++ ascii "/")

/-! ## Version 0 -/

/-- What is different in each call: the time and two UUIDs. -/
structure CallData where
  now : ℤ
  txnId : ByteString
  tableId : ByteString

/-- `write_properties` -/
def propertiesObject (properties : List (ByteString × ByteString)) : Json :=
  .object (properties.map fun p ↦ (cString p.1, .string (cString p.2)))

def commitInfoDocument (json : JsonText) (call : CallData) (options : TableOptions) : Json :=
  .object
    [(ascii "commitInfo", .object
      [(ascii "timestamp", .int call.now),
        (ascii "operation", .string (ascii "CREATE TABLE")),
        (ascii "operationParameters", .object
          [(ascii "isManaged", .string (ascii "false")),
            (ascii "description",
              if options.description = [] then .null else .string (cString options.description)),
            (ascii "partitionBy", .string (ascii "[]")),
            (ascii "properties",
              .string (cString (json.write (propertiesObject options.properties))))]),
        (ascii "isolationLevel", .string (ascii "Serializable")),
        (ascii "isBlindAppend", .bool true),
        (ascii "operationMetrics", .object []),
        (ascii "engineInfo", .string (ascii "LHTransactions 0.1 - Delta Lake 3.0")),
        (ascii "txnId", .string (cString call.txnId))])]

def metaDataObject (call : CallData) (schema : DeltaSchema) (options : TableOptions) : Json :=
  .object <|
    (ascii "id", .string (cString call.tableId)) ::
      ((if options.description = [] then []
        else [(ascii "description", .string (cString options.description))]) ++
      [(ascii "format", .object
          [(ascii "provider", .string (ascii "parquet")), (ascii "options", .object [])]),
        (ascii "schemaString", .string (cString schema.schemaString)),
        (ascii "partitionColumns", .array []),
        (ascii "configuration", propertiesObject options.properties),
        (ascii "createdTime", .int call.now)])

def metaDataDocument (call : CallData) (schema : DeltaSchema) (options : TableOptions) : Json :=
  .object [(ascii "metaData", metaDataObject call schema options)]

/-- Features of the table need protocol (3, 7). -/
def protocolDocument (schema : DeltaSchema) : Json :=
  let features : Json := .array (schema.features.map fun f ↦ .string (cString f))
  .object
    [(ascii "protocol", .object <|
      if schema.features = [] then
        [(ascii "minReaderVersion", .int 1), (ascii "minWriterVersion", .int 2)]
      else
        [(ascii "minReaderVersion", .int 3), (ascii "minWriterVersion", .int 7),
          (ascii "readerFeatures", features), (ascii "writerFeatures", features)])]

/-- The documents of version 0, one on each line. -/
def commitDocuments (json : JsonText) (call : CallData) (schema : DeltaSchema)
    (options : TableOptions) : List Json :=
  [commitInfoDocument json call options, metaDataDocument call schema options,
    protocolDocument schema]

/-- `create_table_commit` -/
def createTableCommit (json : JsonText) (call : CallData) (schema : DeltaSchema)
    (options : TableOptions) : ByteString :=
  unlines newline ((commitDocuments json call schema options).map fun d ↦ cString (json.write d))

/-! ## `create_table` -/

/-- Keys that Spark rejects in `TBLPROPERTIES` -/
def reserved : List ByteString :=
  [ascii "comment", ascii "location", ascii "provider", ascii "owner", ascii "external",
    ascii "is_managed_location"]

def lower (text : ByteString) : ByteString := text.map Keys.DeltaLogEntry.toLower

/-- The loop that checks the properties; `keys` are the earlier ones. -/
def checkProperties (keys : List ByteString) :
    List (ByteString × ByteString) → Except ByteString Unit
  | [] => .ok ()
  | (name, _) :: properties =>
    let key := lower name
    if key = [] ∨ key ∈ reserved ∨ (ascii "delta.").isPrefixOf key ∨
        (ascii "option.").isPrefixOf key then
      .error (ascii "unsupported table property '" ++ name ++ ascii "'")
    else if name ∈ keys then
      .error (ascii "duplicate table property '" ++ name ++ ascii "'")
    else checkProperties (name :: keys) properties

/-- What the store answers to the calls of `create_table`. -/
structure Answers where
  /-- `list_objects`: the keys -/
  objects : Option (List ByteString)
  /-- whether there is a global log -/
  globalLog : Bool
  /-- `acquire_global_lock` -/
  locked : Bool
  /-- to the calls of `update_global_entry` -/
  update : GlobalLog.Answers
  /-- to the attempts to write version 0 -/
  writeAtomic : ℕ → WriteStatus
  /-- `read2` of version 0, after an attempt -/
  read2 : ℕ → Option ByteString

/-- What the manager knows beside the arguments. -/
structure Settings where
  globalLogPath : ByteString
  storageRetries : ℕ
  /-- `set_storage_retries` takes at least one. -/
  one_le : 1 ≤ storageRetries

/-- A result other than `Ok`, with its message -/
structure Failure where
  result : TableResult
  message : ByteString
  ne_ok : result ≠ .ok
  deriving DecidableEq

theorem TableResult.error_ne_ok : error ≠ ok := by decide

theorem TableResult.invalid_ne_ok : invalid ≠ ok := by decide

theorem TableResult.notFound_ne_ok : notFound ≠ ok := by decide

theorem TableResult.notEmpty_ne_ok : notEmpty ≠ ok := by decide

/-- `fail` -/
def fail {α : Type} (result : TableResult) (message : ByteString)
    (h : result ≠ .ok := by decide) : Except Failure α :=
  .error ⟨result, message, h⟩

@[simp] theorem fail_ne_ok {α : Type} {result : TableResult} {message : ByteString}
    {h : result ≠ .ok} {a : α} : fail result message h ≠ .ok a := nofun

/-- The location is empty. -/
def checkLocation (base : ByteString) : Option (List ByteString) → Except Failure Unit
  | none => fail .error (ascii "unable to list " ++ base)
  | some [] => .ok ()
  | some objects =>
    if objects.any (base ++ DeltaLog.logDir).isPrefixOf then
      fail .alreadyExists (ascii "a Delta table exists at " ++ base)
    else fail .notEmpty (ascii "the location " ++ base ++ ascii " is not empty")

/-- A global-log entry of an earlier table is removed: it would hide the versions of the new one. -/
def removeGlobalEntry (settings : Settings) (answers : Answers) (base : ByteString) :
    Except Failure Unit :=
  if !answers.globalLog then .ok ()
  else if !answers.locked then
    fail .error (ascii "unable to lock the global log " ++ settings.globalLogPath)
  else if !(GlobalLog.updateGlobalEntry answers.update settings.storageRetries base
      fun _ ↦ none).1 then
    fail .error (ascii "unable to update the global log " ++ settings.globalLogPath)
  else .ok ()

/-- The path of version 0 -/
def version0 (base : ByteString) : ByteString :=
  base ++ (DeltaLog.logDir ++ DeltaLog.logFileName 0 (ascii ".json"))

/-- The attempts to write version 0, from `attempt` on, with the number of those made. -/
def writeVersion0 (answers : Answers) (base commit : ByteString) (uncertain : Bool)
    (attempt : ℕ) : ℕ → Except Failure Unit × ℕ
  | 0 => (fail .error (ascii "unable to write " ++ version0 base), 0)
  | n + 1 =>
    match answers.writeAtomic attempt with
    | .ok => (.ok (), 1)
    | .alreadyExists =>
      -- an earlier attempt may have succeeded although its response was lost
      if uncertain ∧ answers.read2 attempt = some commit then (.ok (), 1)
      else
        (fail .alreadyExists (ascii "a Delta table was created concurrently at " ++ base), 1)
    | .preconditionFailed | .error =>
      let (result, attempts) := writeVersion0 answers base commit true (attempt + 1) n
      (result, attempts + 1)

/-- The checks of `create_table`: the prefix of the table and the content of version 0. -/
def prepare (json : JsonText) (settings : Settings) (answers : Answers) (call : CallData)
    (path : ByteString) (schema : ArrowSchema) (options : TableOptions) :
    Except Failure (ByteString × ByteString) :=
  match tablePrefix path with
  | none => fail .invalid (ascii "invalid table path '" ++ path ++ ascii "'")
  | some base =>
    match toDeltaSchema json schema with
    | .error e => fail .invalid (ascii "invalid schema: " ++ e)
    | .ok deltaSchema =>
      match checkProperties [] options.properties with
      | .error e => fail .invalid e
      | .ok () => do
        checkLocation base answers.objects
        removeGlobalEntry settings answers base
        return (base, createTableCommit json call deltaSchema options)

/-- What a call returns, and what it gives to `write_atomic`: keys and contents. -/
structure Outcome where
  result : TableResult
  error : ByteString := []
  writes : List (ByteString × ByteString) := []

/-- `create_table` -/
def createTable (json : JsonText) (settings : Settings) (answers : Answers) (call : CallData)
    (path : ByteString) (schema : ArrowSchema) (options : TableOptions) : Outcome :=
  match prepare json settings answers call path schema options with
  | .error e => { result := e.result, error := e.message }
  | .ok (base, commit) =>
    let (result, attempts) :=
      writeVersion0 answers base commit false 0 settings.storageRetries
    let writes := List.replicate attempts (version0 base, commit)
    match result with
    | .ok () => { result := .ok, writes := writes }
    | .error e => { result := e.result, error := e.message, writes := writes }

/-! ## The schema of a table -/

/-- `apply_log_action` of the lines of a commit: the text of the last `metaData` object. -/
def logMetadata (json : JsonText) (log : ByteString) : Option ByteString :=
  (getLines newline log).foldl (fun metadata line ↦
    if line.length ≤ 1 then metadata
    else
      match (json.parse (cString line)).bind fun d ↦ d.member (ascii "metaData") with
      | some (.object members) => some (json.write (.object members))
      | _ => metadata) none

/-- `LHHelpers::TableSchema` -/
structure TableSchema where
  schema : ArrowSchema
  partitionColumns : List ByteString
  columnMapping : Bool

/-- `metadata["schemaString"]` -/
def schemaString (json : JsonText) (metadata : ByteString) : Option ByteString :=
  match (json.parse metadata).bind fun d ↦ d.member (ascii "schemaString") with
  | some (.string s) => some (cString s)
  | _ => none

def partitionColumns (metadata : Json) : List ByteString :=
  match metadata.member (ascii "partitionColumns") with
  | some (.array columns) => columns.filterMap fun
    | .string s => some (cString s)
    | _ => none
  | _ => []

def columnMapping (metadata : Json) : Bool :=
  match (metadata.member (ascii "configuration")).bind
      fun c ↦ c.member (ascii "delta.columnMapping.mode") with
  | some (.string mode) => cString mode = ascii "name" ∨ cString mode = ascii "id"
  | _ => false

/-- `LHHelpers::table_schema` -/
def tableSchema (json : JsonText) (metadata : ByteString) : Except ByteString TableSchema :=
  match schemaString json metadata, json.parse metadata with
  | some text, some document => do
    let schema ← fromDeltaSchema json text
    return {
      schema := schema
      partitionColumns := partitionColumns document
      columnMapping := columnMapping document }
  | _, _ => .error (ascii "metaData has no schemaString")

end LakeVilla.Tables

import LakeVilla.Checkpoint.Actions
import LakeVilla.Data.TextLines
import LakeVilla.Keys.CommitLog
import LakeVilla.Transaction.Open

/-!
# The text of a log version

A version of a table's log is a text of JSON lines. `reserve_version` writes a running marker,
`Marker::release` and a takeover an empty commit, and `build_commit_log` the actions of a commit.

Three functions read such a text: `classify_version`, `wait_for_marker` and `parse_logentries2`.
Each goes through the lines by itself, and stops at what it takes for a marker. What they do to the
snapshot of a table is `apply_log_action`.
-/

namespace LakeVilla.Keys

open ByteString
open Checkpoint (newer)

/-- A document as `GetString` gives it. -/
def JsonText.text (json : JsonText) (document : Json) : ByteString := cString (json.write document)

def newline : Byte := 10

/-! ## Writing -/

/-- What the functions that write a `commitInfo` line fill in. -/
structure CommitInfo where
  txnId : Json
  numOutputBytes : Json
  numOutputRows : Json
  numFiles : Json
  isBlindAppend : Bool
  readVersion : ℤ
  mode : ByteString

def CommitInfo.document (info : CommitInfo) (nowMs : ℤ) : Json :=
  .object [(ascii "commitInfo", .object
    [(ascii "txnId", info.txnId),
      (ascii "engineInfo", .string (ascii "LHTransactions 0.1 - Delta Lake 3.0")),
      (ascii "operationMetrics", .object
        [(ascii "numOutputBytes", info.numOutputBytes),
          (ascii "numOutputRows", info.numOutputRows), (ascii "numFiles", info.numFiles)]),
      (ascii "isBlindAppend", .bool info.isBlindAppend),
      (ascii "isolationLevel", .string (ascii "Serializable")),
      (ascii "readVersion", .int info.readVersion),
      (ascii "operationParameters", .object
        [(ascii "mode", .string info.mode), (ascii "partitionBy", .string (ascii "[]"))]),
      (ascii "operation", .string (ascii "WRITE")),
      (ascii "timestamp", .int nowMs)])]

/-- `createHeaderMarker` -/
def headerMarker (transactionId : ℕ) : CommitInfo where
  txnId := .int transactionId
  numOutputBytes := .string (ascii "0")
  numOutputRows := .string (ascii "0")
  numFiles := .string (ascii "0")
  isBlindAppend := true
  readVersion := 0
  mode := ascii "Marker"

def markerFields (workingDir : ByteString) (dependencies : List ℕ) (transactionId : ℕ)
    (deadlineMs : ℤ) : Json :=
  .object
    [(ascii "workDir", .string workingDir),
      (ascii "running", .bool true),
      (ascii "dependencies", .array (dependencies.map fun d : ℕ ↦ .int (d : ℤ))),
      (ascii "txnid", .int transactionId),
      -- end of the lease (object-store time, ms since the epoch)
      (ascii "deadline", .int deadlineMs)]

/-- The document of `createMarkerEntry` -/
def markerEntry (workingDir : ByteString) (dependencies : List ℕ) (transactionId : ℕ)
    (deadlineMs : ℤ) : Json :=
  .object [(ascii "marker", markerFields workingDir dependencies transactionId deadlineMs)]

/-- The text of a reserved version (`reserve_version`). -/
def markerText (json : JsonText) (workingDir : ByteString) (dependencies : List ℕ)
    (transactionId : ℕ) (deadlineMs nowMs : ℤ) : ByteString :=
  json.text ((headerMarker transactionId).document nowMs) ++
    newline :: json.text (markerEntry workingDir dependencies transactionId deadlineMs)

/-- The line of `Marker::empty_commit` -/
def emptyCommitInfo (mode : ByteString) : CommitInfo where
  txnId := .string (ascii "1234")
  numOutputBytes := .int 0
  numOutputRows := .int 0
  numFiles := .int 0
  isBlindAppend := false
  readVersion := 0
  mode := cString mode

/-- `Marker::empty_commit` -/
def emptyCommitText (json : JsonText) (mode : ByteString) (nowMs : ℤ) : ByteString :=
  json.text ((emptyCommitInfo mode).document nowMs)

/-- The counters of `TableStats` that `createHeaderCommit` shows. -/
structure CommitCounters where
  outBytes : ℕ := 0
  inBytes : ℕ := 0
  fileNum : ℕ := 0
  readVersion : ℕ := 0
  deriving DecidableEq, Repr

/-- `createHeaderCommit` -/
def headerCommit (transactionId : ℕ) (stats : CommitCounters) : CommitInfo where
  txnId := .int transactionId
  numOutputBytes := .int stats.outBytes
  numOutputRows := .int stats.inBytes
  numFiles := .int stats.fileNum
  isBlindAppend := false
  readVersion := stats.readVersion
  mode := ascii "MultiQuery"

/-- The remove action of a file. -/
def removeAction (file : FileStats) (base : ByteString) (nowMs : ℤ) : Json :=
  .object <|
    [(ascii "path", .string (relativePath file.path base)),
      (ascii "deletionTimestamp", .int nowMs),
      (ascii "dataChange", .bool true),
      (ascii "partitionValues", .object [])] ++
    if 0 ≤ file.size then
      [(ascii "extendedFileMetadata", .bool true), (ascii "size", .int file.size)]
    else [(ascii "extendedFileMetadata", .bool false)]

/-- The document of `createOperationDeleteEntry` -/
def removeLine (file : FileStats) (base : ByteString) (nowMs : ℤ) : Json :=
  .object [(ascii "remove", removeAction file base nowMs)]

/-- `createOperationDeleteEntry` -/
def createOperationDeleteEntry (json : JsonText) (file : FileStats) (base : ByteString)
    (nowMs : ℤ) : ByteString := json.text (removeLine file base nowMs)

/-- What `createOperationAddEntry` shows of a file. -/
def FileStats.written (file : FileStats) : WrittenFile := ⟨file.path, file.size, file.stats⟩

/-- `build_commit_log`; `clock` gives the readings of the clock one after the other. -/
def TableStats.commitText (conv : CharConv) (json : JsonText) (tbl : TableStats)
    (transactionId : ℕ) (stats : CommitCounters) (clock : ℕ → ℤ) : Except StdError ByteString := do
  let base := tbl.deltaLog.basePath
  let created := validFiles tbl.createdFiles
  let deleted := validFiles tbl.deletedFiles
  let header := json.text ((headerCommit transactionId stats).document (clock 0))
  let adds ← (created.zipIdx 1).mapM fun file ↦
    createOperationAddEntry conv json file.1.written base (clock file.2)
  let removes := (deleted.zipIdx (created.length + 1)).map fun file ↦
    createOperationDeleteEntry json file.1 base (clock file.2)
  pure (header ++ (adds ++ removes).flatMap (newline :: ·))

/-! ## Reading -/

def Json.isObject : Json → Bool
  | .object _ => true
  | _ => false

/-- A member that is an object. -/
def Json.child (document : Json) (name : ByteString) : Option Json :=
  (document.member name).filter (·.isObject)

/-- `GetString` of a member. -/
def Json.stringMember (document : Json) (name : ByteString) : Option ByteString :=
  match document.member name with
  | some (.string s) => some (cString s)
  | _ => none

/-- `GetInt64` of a member. -/
def Json.int64Member (document : Json) (name : ByteString) : Option ℤ :=
  match document.member name with
  | some (.int n) => if InInt64 n then some n else none
  | _ => none

/-- The lines of a text that the readers look at: longer than one character, and JSON objects. -/
def documents (json : JsonText) (text : ByteString) : List Json :=
  ((TextLines.getLines newline text).filter fun line ↦ 1 < line.length).filterMap fun line ↦
    (json.parse (cString line)).filter (·.isObject)

/-! ### `apply_log_action` -/

/-- What the actions of a log make known about a table. -/
structure LogState where
  log : DeltaLogManager
  metadata : Option (ℤ × ByteString) := none
  protocol : Option (ℤ × ByteString) := none
  /-- version and last update of an application -/
  transactions : List (ByteString × (ℤ × (ℤ × ℤ))) := []
  /-- without a configuration: the domain was removed -/
  domains : List (ByteString × (ℤ × Option ByteString)) := []
  /-- why a checkpoint would be incomplete ("" if it would not) -/
  unsupported : ByteString := []

namespace LogState

/-- `mark_unsupported` -/
def markUnsupported (state : LogState) (reason : ByteString) : LogState :=
  { state with unsupported := if state.unsupported = [] then reason else state.unsupported }

/-- The assignment in `set_transaction` and `set_domain_metadata`. -/
def assignNewer {α : Type} (l : List (ByteString × (ℤ × α))) (key : ByteString) (x : α)
    (version : ℤ) : List (ByteString × (ℤ × α)) :=
  match l.lookup key with
  | some (u, _) => if version < u then l else AssocList.insertOrAssign l key (version, x)
  | none => AssocList.insertOrAssign l key (version, x)

def applyTxn (state : LogState) (txn : Json) (version : ℤ) : LogState :=
  match txn.stringMember (ascii "appId"), txn.int64Member (ascii "version") with
  | some appId, some txnVersion =>
    { state with
      transactions := assignNewer state.transactions appId
        (txnVersion, (txn.int64Member (ascii "lastUpdated")).getD (-1)) version }
  | _, _ => state.markUnsupported (ascii "invalid txn action")

def applyDomain (state : LogState) (domain : Json) (version : ℤ) : LogState :=
  match domain.stringMember (ascii "domain") with
  | none => state.markUnsupported (ascii "invalid domainMetadata action")
  | some name =>
    let configuration :=
      match domain.member (ascii "removed") with
      | some (.bool true) => none
      | _ => some ((domain.stringMember (ascii "configuration")).getD [])
    { state with domains := assignNewer state.domains name configuration version }

/-- An action with a path is registered. -/
def register (json : JsonText) (operation : DLOperation) (state : LogState) (action : Json)
    (version : ℤ) : LogState :=
  match action.stringMember (ascii "path") with
  | none => state
  | some path =>
    { state with
      log := state.log.registerAction path (.fromAction json operation action version) }

def applyAdd (json : JsonText) (state : LogState) (add : Json) (version : ℤ) : LogState :=
  let state :=
    match add.stringMember (ascii "path"), add.member (ascii "deletionVector") with
    | none, _ | _, none | _, some .null => state
    | _, _ => state.markUnsupported (ascii "deletion vectors")
  register json .add state add version

/-- `apply_log_action` -/
def applyLogAction (json : JsonText) (document : Json) (state : LogState) (version : ℤ) :
    LogState :=
  let state := match document.child (ascii "metaData") with
    | some metadata =>
      { state with metadata := newer version (json.write metadata) state.metadata }
    | none => state
  let state := match document.child (ascii "protocol") with
    | some protocol =>
      { state with protocol := newer version (json.write protocol) state.protocol }
    | none => state
  let state := match document.child (ascii "txn") with
    | some txn => state.applyTxn txn version
    | none => state
  let state := match document.child (ascii "domainMetadata") with
    | some domain => state.applyDomain domain version
    | none => state
  let state := match document.child (ascii "add") with
    | some add => state.applyAdd json add version
    | none => state
  match document.child (ascii "remove") with
  | some remove => state.register json .delete remove version
  | none => state

end LogState

/-! ### `parse_logentries2` -/

/-- What `parseEntry` finds besides actions: whether a running marker defers the operations, and its
transaction (`none` is `UINT32_MAX`). -/
def parseMarker (document : Json) : Bool × Option ℕ :=
  match document.child (ascii "marker") with
  | none => (false, none)
  | some marker =>
    if (marker.member (ascii "running")).isSome then
      match marker.member (ascii "txnid") with
      | some (.int n) => (true, if 0 ≤ n ∧ n < 2 ^ 32 - 1 then some n.toNat else none)
      | _ => (true, none)
    else (false, none)

/-- What parsing a version yields. -/
structure ParsedVersion where
  state : LogState
  deferring : Bool := false
  dependency : Option ℕ := none

/-- The loop over the lines; it ends behind a marker with a transaction. -/
def parseDocuments (json : JsonText) (version : ℤ) : LogState → List Json → ParsedVersion
  | state, [] => { state := state }
  | state, document :: rest =>
    let state := LogState.applyLogAction json document state version
    match parseMarker document with
    | (deferring, some txnid) => ⟨state, deferring, some txnid⟩
    | (deferring, none) =>
      let parsed := parseDocuments json version state rest
      { parsed with deferring := deferring || parsed.deferring }

/-- One version of `parse_logentries2` -/
def parseVersionText (json : JsonText) (version : ℤ) (state : LogState) (text : ByteString) :
    ParsedVersion := parseDocuments json version state (documents json text)

/-! ### `wait_for_marker` -/

/-- What `wait_for_marker` finds in a version. -/
inductive Waiting
  | running (deadline : Option ℤ)
  | finished (entries : List Json)

def waitDocuments : List Json → Waiting
  | [] => .finished []
  | document :: rest =>
    match document.child (ascii "marker") with
    | some marker => .running (marker.int64Member (ascii "deadline"))
    | none =>
      match waitDocuments rest with
      | .finished entries => .finished (document :: entries)
      | .running deadline => .running deadline

def waitText (json : JsonText) (text : ByteString) : Waiting := waitDocuments (documents json text)

/-- What the end of the wait changes in the table. -/
structure WaitedTable where
  state : LogState
  concurrentChange : Bool := false
  concurrentRemoves : Finset ByteString := ∅

def Json.hasAction (document : Json) : Bool :=
  (document.member (ascii "add")).isSome || (document.member (ascii "remove")).isSome

/-- The path that a line removes. -/
def Json.removedPath (document : Json) : Option ByteString :=
  (document.child (ascii "remove")).bind (·.stringMember (ascii "path"))

/-- A commit, or a released version, is applied to the snapshot. -/
def WaitedTable.apply (json : JsonText) (version : ℤ) (tbl : WaitedTable) (document : Json) :
    WaitedTable where
  state := LogState.applyLogAction json document tbl.state version
  concurrentChange := tbl.concurrentChange || document.hasAction
  concurrentRemoves :=
    match document.removedPath with
    | some path => insert path tbl.concurrentRemoves
    | none => tbl.concurrentRemoves

/-! ### `classify_version` -/

/-- The engine of a `commitInfo` line; a line without one does not change it. -/
def lakeVillaLine (lakeVilla : Bool) (document : Json) : Bool :=
  match document.child (ascii "commitInfo") with
  | some info => (info.stringMember (ascii "engineInfo")).any (ascii "LHTransactions" <+: ·)
  | none => lakeVilla

def classifyDocuments : List Json → Bool → Bool → Tx.LogVersion
  | [], changes, lakeVilla =>
    if changes then if lakeVilla then .lakeVillaCommit else .foreignCommit else .empty
  | document :: rest, changes, lakeVilla =>
    if (document.member (ascii "marker")).isSome then .marker
    else
      classifyDocuments rest (changes || document.hasAction) (lakeVillaLine lakeVilla document)

/-- `classify_version` of a version that exists. -/
def classifyText (json : JsonText) (text : ByteString) : Tx.LogVersion :=
  classifyDocuments (documents json text) false false

end LakeVilla.Keys

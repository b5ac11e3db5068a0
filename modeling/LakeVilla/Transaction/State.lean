import LakeVilla.DeltaLog.DeltaLogManager
import LakeVilla.Storage.Connector

/-!
# The state of a transaction

`TransactionManagerDeltaLake` with the data that its functions read: the protocol settings, the
opened tables with their snapshots, reserved versions and local changes, the remembered markers,
the sublog, and the registered updates. The `found` pair and the counters that are only written are
left out, as are checkpoints: a snapshot that starts from a checkpoint of version `c` is the replay
of the versions up to `c`. History variables record what happened; the code never reads them.
-/

namespace LakeVilla

open Concurrency

/-! ## Settings -/

inductive Isolation
  | serializable
  | snapshot
  deriving DecidableEq, Repr

/-- `ProtocolOptions`, with its defaults. -/
structure ProtocolOptions where
  isolation : Isolation := .serializable
  markerLeaseMs : ℕ := 30000
  markerGraceMs : ℕ := 100
  maxRedos : ℕ := 3
  globalLogRepair : Bool := false
  globalLogRepairAfter : ℕ := 3
  globalLogCheckAtBegin : Bool := false
  deriving DecidableEq, Repr

/-- `LakeVillaConf`: level 0 (markers and sublogs), level 1 (markers and global conflict
detection), level 2 (global version log). -/
structure Levels where
  l0 : Bool := false
  l1 : Bool := false
  l2 : Bool := false
  deriving DecidableEq, Repr

/-- Versions are reserved with markers. -/
def Levels.markers (l : Levels) : Bool := l.l0 || l.l1

structure Config where
  levels : Levels
  options : ProtocolOptions := {}
  /-- attempts of a storage operation (`LV_STORAGE_RETRIES`) -/
  storageRetries : ℕ := 8
  globalLockLeaseMs : ℕ := 30000
  globalLockTimeoutMs : ℕ := 120000
  /-- threads that parse a log (`num_threads`) -/
  numThreads : ℕ := 2
  /-- size of the Parquet file with the given rows -/
  encodedSize : List Row → ℤ := fun rows ↦ rows.length
  /-- `float` arithmetic on string columns -/
  floatArith : UpdateOperations → Text → Text → Text := fun _ old _ ↦ old
  /-- how the paths below a table read back from a sublog step (see `DataFile.found`) -/
  foundIn : Table → Option (Option ℕ) := fun _ ↦ none

/-! ## Tables of a transaction -/

/-- A reserved version. `etag` is `none` where the code has an empty string. -/
structure Marker where
  table : Table
  version : ℕ
  etag : Option ETag
  deadlineMs : ℤ
  valid : Bool
  deriving DecidableEq, Repr

def Marker.setInvalid (mk : Marker) : Marker := { mk with valid := false }

/-- The object of the reserved version (`marker_path`). -/
def Marker.path (mk : Marker) : Key := .version mk.table mk.version

/-- A file added or removed by the transaction. -/
structure FileStats where
  size : ℤ := -1
  valid : Bool := true
  /-- the update whose new rows the file holds (`none` is `UINT32_MAX`) -/
  updateId : Option ℕ := none
  deriving DecidableEq, Repr

structure TableStats where
  basePath : Table
  deltaLog : DeltaLogManager := {}
  marker : Option Marker := none
  readVersion : ℕ := 0
  markerVersion : ℕ := 0
  createdFiles : List (DataFile × FileStats) := []
  deletedFiles : List (DataFile × FileStats) := []
  /-- the transaction's commit for this table was written -/
  committed : Bool := false
  /-- the transaction read the table -/
  wasRead : Bool := false
  /-- a concurrent commit changed the table's data -/
  concurrentChange : Bool := false
  /-- files removed by commits that were read while waiting for their markers -/
  concurrentRemoves : List DataFile := []
  /-- history: the versions in the snapshot on which the operations were executed -/
  base : List ℕ := []
  deriving DecidableEq, Repr

namespace TableStats

/-- The transaction has local changes of the table. -/
def changed (tbl : TableStats) : Bool := !tbl.createdFiles.isEmpty || !tbl.deletedFiles.isEmpty

/-- The files whose add actions a commit writes. -/
def validCreated (tbl : TableStats) : List (DataFile × FileStats) :=
  tbl.createdFiles.filter (·.2.valid)

/-- The files whose remove actions a commit writes. -/
def validDeleted (tbl : TableStats) : List (DataFile × FileStats) :=
  tbl.deletedFiles.filter (·.2.valid)

end TableStats

/-! ## The transaction -/

/-- What may happen to the operations of a transaction so that its conflict detection no longer
covers them. -/
inductive Hazard
  /-- a table was opened again after the transaction removed files of its old snapshot -/
  | reopenedRemoval
  /-- a table was opened again after the transaction read its old snapshot -/
  | reopenedRead
  /-- operations are deferred to the redo, but some that remove files were executed before -/
  | deferredRemoval
  /-- operations are deferred to the redo, but a table was read before -/
  | deferredRead
  /-- the commit could not open the tables again, and went on -/
  | reopenFailed
  deriving DecidableEq, Repr

/-- The redo line of a sublog entry, `<table id> <command> <argument>`. -/
inductive SublogStep
  /-- `r <path>` -/
  | r (file : DataFile)
  /-- `s <key>` -/
  | s (key : Text)
  /-- `a <path>` -/
  | a (file : DataFile)
  /-- `e found <index>` -/
  | e (index : ℕ)
  /-- `d found<id>` -/
  | dFound
  /-- `d <path>` -/
  | d (file : DataFile)
  deriving DecidableEq, Repr

/-- The state of a transaction manager. -/
structure Txn where
  cfg : Config
  transactionId : TxnId
  tables : List TableStats := []
  /-- paths of versions below the reserved ones that have to be waited for -/
  prevMarkers : List (Table × ℕ) := []
  /-- `relation`: the transactions whose running markers were seen -/
  relation : List TxnId := []
  localLog : List (Table × ℕ) := []
  explicitLog : Bool := true
  /-- the sublog from step 1 on; `next_step` is its length plus one -/
  sublog : List (ℕ × SublogStep) := []
  updateVals : List (List UpdatePair) := []
  updateOps : List UpdateOperations := []
  /-- the files of the last searched key -/
  foundFiles : List (DataFile × Text) := []
  retiredFiles : List DataFile := []
  /-- the fresh part of the next data file's name -/
  nextFile : ℕ := 0
  globalLockToken : Option Token := none
  /-- the random part of the next lock token -/
  nextToken : ℕ := 0
  /-- history: the version that the commit is waiting for -/
  waiting : Option (Table × ℕ) := none
  /-- history: what happened so far -/
  hazards : List Hazard := []
  /-- history: the commit has written all its tables (`valid` of `commit`) -/
  decided : Bool := false

/-- The code of a transaction: a client of the object store. -/
abbrev Tx (α : Type) := Client Txn Response α

namespace Tx

def call (c : Call) : Tx (Response c) := Client.perform c

/-- A loop that is still running when its fuel is used up. -/
def diverge {α : Type} : Tx α := Client.diverge

/-- An `if` without `else`. -/
abbrev when (b : Bool) (x : Tx Unit) : Tx Unit := Client.when b x

def modifyTable (i : ℕ) (f : TableStats → TableStats) : Tx Unit :=
  modify fun t ↦ { t with tables := t.tables.modify i f }

/-- `this->tables[i]` -/
def getTable (i : ℕ) : Tx (Option TableStats) := do
  return (← get).tables[i]?

end Tx

namespace Txn

def markers (t : Txn) : Bool := t.cfg.levels.markers

/-- `can_redo`: operations are logged implicitly and sublogs exist. -/
def canRedo (t : Txn) : Bool := !t.explicitLog && t.cfg.levels.l0

/-- `has_deletes` -/
def hasDeletes (t : Txn) : Bool := t.tables.any fun tbl ↦ !tbl.validDeleted.isEmpty

/-- Reads are checked for conflicts. -/
def serializable (t : Txn) : Bool := t.cfg.options.isolation = .serializable

/-- The hazards of opening a table again. -/
def reopening (t : Txn) (tbl : TableStats) : List Hazard :=
  (if tbl.validDeleted.isEmpty then [] else [.reopenedRemoval]) ++
    if t.explicitLog && t.serializable && tbl.wasRead then [.reopenedRead] else []

/-- The hazards of a switch to implicit logging. -/
def deferring (t : Txn) : List Hazard :=
  if t.cfg.levels.l0 && t.explicitLog then
    (if t.hasDeletes then [.deferredRemoval] else []) ++
      if t.serializable && t.tables.any (·.wasRead) then [.deferredRead] else []
  else []

/-- `has_write_conflict`: a concurrent commit removed a file this transaction removes as well. -/
def hasWriteConflict (t : Txn) : Bool :=
  t.tables.any fun tbl ↦ tbl.validDeleted.any fun e ↦ tbl.concurrentRemoves.contains e.1

/-- `has_read_conflict`: a table the transaction read was changed concurrently. -/
def hasReadConflict (t : Txn) : Bool :=
  t.tables.any fun tbl ↦ tbl.wasRead && tbl.concurrentChange

/-- `can_repair_global_log` -/
def canRepairGlobalLog (t : Txn) : Bool :=
  t.cfg.options.globalLogRepair && t.cfg.levels.l2 && !t.cfg.levels.l0 && !t.cfg.levels.l1

/-- `clear_concurrency` -/
def clearConcurrency (t : Txn) : Txn :=
  { t with
    tables := t.tables.map fun tbl ↦
      { tbl with concurrentChange := false, concurrentRemoves := [] } }

end Txn

/-- The actions of a table's commit. -/
def TableStats.actions (tbl : TableStats) : List Action :=
  tbl.validCreated.map (fun e ↦ .add e.1 (max e.2.size 0)) ++
    tbl.validDeleted.map (fun e ↦ .remove e.1 e.2.size)

/-- `build_commit_log`: `commitInfo` and the actions of a table. -/
def buildCommitLog (t : Txn) (tbl : TableStats) : Content :=
  .commit { txnId := some t.transactionId, lakeVilla := true, actions := tbl.actions }

/-- `createHeaderCommit` alone: a commit without actions. -/
def headerCommit (t : Txn) : Content :=
  .commit { txnId := some t.transactionId, lakeVilla := true, actions := [] }

end LakeVilla

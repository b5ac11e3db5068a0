import LakeVilla.Checkpoint.NewestCheckpoint
import LakeVilla.Concurrency.Machine
import LakeVilla.Keys.CommitLog
import LakeVilla.Tables.CreateTable

/-!
# Dropping a table

`drop_table` lists the objects of a table and deletes them in a fixed order, each with a number of
attempts; an object that stays does not stop the loop. `load_table` reads what is left: it starts
from a checkpoint or from version 0, and every file from there on must be readable.

The drop is a machine whose steps are the calls of the store, so that it can stop after any of them.
-/

namespace LakeVilla.Tables

open ByteString
open Checkpoint (CheckpointInfo checkpointFiles newestCheckpoint)
open DeltaLog (logDir logFileName parseLogVersion)
open Keys (FileAction StdError)

/-! ## Objects -/

/-- The content of an object, as far as `load_table` reads it. -/
inductive ObjectContent
  /-- a log file, with the file actions before a running marker -/
  | log (actions : List FileAction)
  | checkpoint (actions : List FileAction)
  /-- `_last_checkpoint` -/
  | lastCheckpoint (info : CheckpointInfo)
  | other
  deriving DecidableEq

/-- The objects of the store by their keys. -/
abbrev Objects := List (ByteString × ObjectContent)

/-- `list_objects` -/
def Objects.list (objects : Objects) (pre : ByteString) : List ByteString :=
  (objects.map (·.1)).filter fun key ↦ pre.isPrefixOf key

def Objects.erase (objects : Objects) (key : ByteString) : Objects :=
  objects.filter (·.1 ≠ key)

/-! ## `load_table` -/

def lastCheckpointPath (base : ByteString) : ByteString :=
  base ++ (logDir ++ ascii "_last_checkpoint")

def logPath (base : ByteString) (version : ℕ) : ByteString :=
  base ++ (logDir ++ logFileName version (ascii ".json"))

/-- What the store answers to a reader: whether some attempt to read a key, or to list the log,
succeeds, and the version from which `reserve_version` goes on. -/
structure Reads where
  read : ByteString → Bool
  list : Bool
  reserve : ℕ → ℕ

section Load

variable (reads : Reads) (base : ByteString) (objects : Objects)

/-- `read_retry` -/
def readRetry (key : ByteString) : Option ObjectContent :=
  if reads.read key then objects.lookup key else none

/-- `read_last_checkpoint` -/
def readLastCheckpoint : CheckpointInfo :=
  match readRetry reads objects (lastCheckpointPath base) with
  | some (.lastCheckpoint info) => info
  | _ => {}

/-- `find_checkpoint` -/
def findCheckpoint (maxVersion : ℕ) : Except StdError CheckpointInfo :=
  let hint := readLastCheckpoint reads base objects
  if hint.version.all (· ≤ maxVersion) then .ok hint
  else if !reads.list then .ok {}
  else newestCheckpoint (objects.list (base ++ logDir)) maxVersion

/-- The highest version of the log files in a listing. -/
def highestLogVersion (keys : List ByteString) : Except StdError (Option ℕ) :=
  keys.foldlM (fun highest key ↦ do
    match ← parseLogVersion key with
    | some version => return if highest.all (· < version) then some version else highest
    | none => return highest) none

/-- The highest version and the checkpoint from which the snapshot starts; none if the log cannot be
listed. -/
def snapshotStart : Option ℕ → Except StdError (Option (Option ℕ × CheckpointInfo))
  | some maxVersion => do
    return some (some maxVersion, ← findCheckpoint reads base objects maxVersion)
  | none =>
    if !reads.list then .ok none
    else do
      let listed := objects.list (base ++ logDir)
      let highest ← highestLogVersion listed
      let checkpoint ← newestCheckpoint listed (2 ^ 64 - 1)
      let highest := match checkpoint.version with
        | some version => if highest.all (· < version) then some version else highest
        | none => highest
      return some (highest, checkpoint)

/-- `parse_checkpoint` -/
def parseCheckpoint (checkpoint : CheckpointInfo) (log : Keys.DeltaLogManager) :
    Option Keys.DeltaLogManager :=
  match checkpoint.version with
  | none => some log
  | some version => (checkpointFiles base version checkpoint.parts).foldlM (fun log file ↦
      match readRetry reads objects file with
      | some (.checkpoint actions) => some (log.replay version actions)
      | _ => none) log

/-- `parse_logentries2`; versions above the snapshot are not read. -/
def parseLogEntries (maxVersion : Option ℕ) (versions : List ℕ) (log : Keys.DeltaLogManager) :
    Option Keys.DeltaLogManager :=
  versions.foldlM (fun log version ↦
    if maxVersion.all (version ≤ ·) then
      match readRetry reads objects (logPath base version) with
      | some (.log actions) => some (log.replay version actions)
      | some _ => some log
      | none => none
    else some log) log

/-- `load_table`: the snapshot, if it can be loaded. With level 2 the global log may give the
version of the snapshot. Versions have 32 bits. -/
def loadTable (maxVersion : Option ℕ) : Except StdError (Option Keys.DeltaLogManager) := do
  match ← snapshotStart reads base objects maxVersion with
  | none => return none
  | some (none, _) => return none
  | some (some highest, checkpoint) =>
    let stop := (reads.reserve (highest % 2 ^ 32) + 1) % 2 ^ 32
    let first := match checkpoint.version with
      | some version => (version + 1) % 2 ^ 32
      | none => 0
    let empty := { basePath := base, files := [], nodup := List.nodup_nil }
    return (parseCheckpoint reads base objects checkpoint empty).bind fun log ↦
      parseLogEntries reads base objects maxVersion (List.range' first (stop - first)) log

end Load

/-! ## `drop_table` -/

/-- An object of the table's log. -/
def isLog (base key : ByteString) : Bool := (base ++ logDir).isPrefixOf key

/-- First what a reader needs to reconstruct any version, then the data files, the rest of the log
last. -/
def rank (base key : ByteString) : ℕ :=
  if !isLog base key then 3
  else if key = lastCheckpointPath base then 0
  else if ascii ".checkpoint." <:+: key then 1
  else if key = version0 base then 2
  else 4

/-- The order of the deletes. -/
def deleteOrder (base a b : ByteString) : Bool :=
  if rank base a ≠ rank base b then rank base a < rank base b else a ≤ b

/-- What `drop_table` deletes, in order; the listing fails if there is none. -/
def beginDrop (settings : Settings) (answers : Answers) (base : ByteString) :
    Except Failure (List ByteString) :=
  match answers.objects with
  | none => fail .error (ascii "unable to list " ++ base) TableResult.error_ne_ok
  | some keys =>
    -- never delete objects that do not belong to a Delta table
    if !keys.any (isLog base) then
      if keys = [] then
        fail .notFound (ascii "no Delta table at " ++ base) TableResult.notFound_ne_ok
      else fail .notEmpty (ascii "no Delta table at " ++ base ++
        ascii " (the location contains other objects)") TableResult.notEmpty_ne_ok
    else do
      removeGlobalEntry settings answers base
      return keys.mergeSort (deleteOrder base)

/-- A drop in the middle of its loop; without keys it is done or has not begun. -/
structure Drop where
  objects : Objects
  keys : List ByteString := []
  attempt : ℕ := 0
  failed : ℕ := 0

/-- `delete_file`: whether it is reported, and what is left. -/
def deleteFile (fault : Fault) (objects : Objects) (key : ByteString) : Bool × Objects :=
  match fault with
  | .none => (true, objects.erase key)
  | .failed => (false, objects)
  | .lost => (false, objects.erase key)

/-- One call of the loop. -/
def Drop.delete (storageRetries : ℕ) (s : Drop) (fault : Fault) : Drop :=
  match s.keys with
  | [] => s
  | key :: keys =>
    let (deleted, objects) := deleteFile fault s.objects key
    if deleted then { s with objects := objects, keys := keys, attempt := 0 }
    else if s.attempt + 1 < storageRetries then
      { s with objects := objects, attempt := s.attempt + 1 }
    else ⟨objects, keys, 0, s.failed + 1⟩

/-- What a drop of `total` objects returns at its end. -/
def Drop.result (base : ByteString) (total : ℕ) (s : Drop) : Except Failure Unit :=
  if s.failed ≠ 0 then
    fail .error (ascii "unable to delete " ++ decimal s.failed ++ ascii " of " ++ decimal total ++
      ascii " objects of " ++ base) TableResult.error_ne_ok
  else .ok ()

/-- The loop, with the answers to its calls, until there are no more keys or answers. -/
def Drop.run (storageRetries : ℕ) (s : Drop) (faults : List Fault) : Drop :=
  faults.foldl (Drop.delete storageRetries) s

/-- `drop_table` -/
def dropTable (settings : Settings) (answers : Answers) (path : ByteString) (objects : Objects)
    (faults : List Fault) : Except Failure Unit × Drop :=
  match tablePrefix path with
  | none =>
    (fail .invalid (ascii "invalid table path '" ++ path ++ ascii "'") TableResult.invalid_ne_ok,
      { objects := objects })
  | some base =>
    match beginDrop settings answers base with
    | .error e => (.error e, { objects := objects })
    | .ok keys =>
      let s := Drop.run settings.storageRetries { objects := objects, keys := keys } faults
      (s.result base keys.length, s)

end LakeVilla.Tables

import LakeVilla.Checkpoint.NewestCheckpoint
import LakeVilla.Checkpoint.Replay
import LakeVilla.Concurrency.Lifting
import LakeVilla.Transaction.Open

/-!
# Loading snapshots from checkpoints

`checkpoint_after_commit` writes a checkpoint of a version that it has loaded itself:
`load_snapshot` starts from a checkpoint that `find_checkpoint` has found, and applies the versions
after it, which four threads read. Checkpoints are thus made from checkpoints. A load fails at a
version that is still reserved.

The clients here share the `_delta_log/` of a table: its versions, its checkpoints and the hint to
the last one. The versions come from transactions that reserve them with a marker and replace the
marker, and from other engines.
-/

namespace LakeVilla.Checkpoint

open ByteString Concurrency DeltaLog

/-! ## The log directory -/

/-- `<version>.json`: reserved by a running transaction, or final. -/
inductive VersionContent
  | marker
  | final (lines : List LogLine)
  deriving DecidableEq, Repr

structure VersionObject where
  content : VersionContent
  etag : ETag
  deriving DecidableEq, Repr

/-- The `_delta_log/` of a table: the versions, and the checkpoints with their hint. A listing shows
the versions that have a checkpoint. Only ETags of one object are ever compared. -/
structure TableLog where
  versions : List (ℕ × VersionObject)
  nextEtag : ETag
  etag_le : ∀ v o, versions.lookup v = some o → o.etag ≤ nextEtag
  log : LogStore
  checkpoints : List ℕ
  mem_checkpoints : ∀ v, v ∈ checkpoints ↔ (log.get (.checkpoint v)).isSome

namespace TableLog

variable (s : TableLog)

def putVersion (v : ℕ) (c : VersionContent) : TableLog :=
  { s with
    versions := AssocList.insertOrAssign s.versions v ⟨c, s.nextEtag + 1⟩
    nextEtag := s.nextEtag + 1
    etag_le := by
      intro u o h
      rw [AssocList.lookup_insertOrAssign] at h
      split at h
      · obtain rfl := Option.some.inj h
        exact le_rfl
      · exact Nat.le_succ_of_le (s.etag_le u o h) }

/-- The lines of a final version. -/
def final (v : ℕ) : Option (List LogLine) :=
  match s.versions.lookup v with
  | some ⟨.final lines, _⟩ => some lines
  | _ => none

/-- The rows of a checkpoint. -/
def rows (v : ℕ) : Option (List CheckpointRow) :=
  match s.log.get (.checkpoint v) with
  | some ⟨.rows rows, _⟩ => some rows
  | _ => none

/-- `list_objects` of `_delta_log/` -/
def names (base : ByteString) : List ByteString :=
  s.versions.map (fun e ↦ base ++ (logDir ++ logFileName e.1 (ascii ".json"))) ++
    s.checkpoints.map (fun v ↦ base ++ (logDir ++ logFileName v single)) ++
    (s.log.get .lastCheckpoint).toList.map fun _ ↦ base ++ (logDir ++ ascii "_last_checkpoint")

end TableLog

/-! ## Calls -/

/-- The checkpoint that a call may create. -/
def LogCall.created : LogCall → Option ℕ
  | .writeAtomic (.checkpoint v) _ => some v
  | .writeIfMatch (.checkpoint v) _ _ => some v
  | _ => none

theorem LogStore.writeUnder_get {f : Fault} {allowed : Bool} {rejected : WriteStatus}
    {s : LogStore} {k k' : LogKey} {c : LogContent} (h : k' ≠ k) :
    (s.writeUnder f allowed rejected k c).2.get k' = s.get k' := by
  rcases hw : s.writeUnder f allowed rejected k c with ⟨r, s'⟩
  rcases LogStore.writeUnder_cases hw.symm with ⟨-, -, rfl⟩ | ⟨-, rfl⟩
  · exact LogStore.put_get_of_ne s c h
  · rfl

theorem LogStore.answer_get {f : Fault} {c : LogCall} {s : LogStore} {v : ℕ}
    (h : c.created ≠ some v) : (s.answer f c).2.get (.checkpoint v) = s.get (.checkpoint v) := by
  cases c with
  | readVersioned k => rfl
  | writeAtomic k content =>
    refine LogStore.writeUnder_get ?_
    rintro rfl
    exact h rfl
  | writeIfMatch k content etag =>
    refine LogStore.writeUnder_get ?_
    rintro rfl
    exact h rfl

inductive TableCall
  | readVersion (v : ℕ)
  /-- `write_atomic` -/
  | writeVersion (v : ℕ) (c : VersionContent)
  /-- `write_if_match` -/
  | replaceVersion (v : ℕ) (c : VersionContent) (etag : ETag)
  | listObjects
  /-- `check` of `_last_checkpoint` -/
  | checkLastCheckpoint
  /-- which of `n` threads of the client goes on -/
  | schedule (n : ℕ)
  | log (c : LogCall)
  deriving DecidableEq, Repr

abbrev TableResponse : TableCall → Type
  | .readVersion _ => Option VersionObject
  | .writeVersion _ _ => WriteStatus
  | .replaceVersion _ _ _ => WriteStatus
  | .listObjects => Option (List ByteString)
  | .checkLastCheckpoint => Bool
  | .schedule _ => ℕ
  | .log c => LogResponse c

/-- The environment's choices for one call. -/
structure TableChoice where
  fault : Fault := .none
  pick : ℕ := 0
  deriving DecidableEq, Repr

namespace TableLog

/-- A call about checkpoints. -/
def answerLog (f : Fault) (c : LogCall) (s : TableLog) : LogResponse c × TableLog :=
  ((s.log.answer f c).1,
    { s with
      log := (s.log.answer f c).2
      checkpoints := (c.created.toList ++ s.checkpoints).filter fun v ↦
        ((s.log.answer f c).2.get (.checkpoint v)).isSome
      mem_checkpoints := fun v ↦ by
        simp only [List.mem_filter, List.mem_append, Option.mem_toList]
        refine ⟨fun h ↦ h.2, fun h ↦ ⟨?_, h⟩⟩
        by_cases hc : c.created = some v
        · exact .inl hc
        · rw [LogStore.answer_get hc] at h
          exact .inr ((s.mem_checkpoints v).mpr h) })

/-- A conditional write of a version, under a fault. -/
def writeUnder (f : Fault) (allowed : Bool) (rejected : WriteStatus) (s : TableLog) (v : ℕ)
    (c : VersionContent) : WriteStatus × TableLog :=
  let r := if allowed then (.ok, s.putVersion v c) else (rejected, s)
  match f with
  | .none => r
  | .failed => (.error, s)
  | .lost => (.error, r.2)

/-- One call, answered in store `s`. -/
def answer (base : ByteString) (d : TableChoice) :
    (c : TableCall) → TableLog → TableResponse c × TableLog
  | .readVersion v, s => (d.fault.ask none (s.versions.lookup v), s)
  | .writeVersion v c, s =>
    s.writeUnder d.fault (s.versions.lookup v).isNone .alreadyExists v c
  | .replaceVersion v c etag, s =>
    s.writeUnder d.fault ((s.versions.lookup v).any fun o ↦ o.etag = etag) .preconditionFailed v c
  | .listObjects, s => (d.fault.ask none (some (s.names base)), s)
  | .checkLastCheckpoint, s => (d.fault.ask false (s.log.get .lastCheckpoint).isSome, s)
  | .schedule n, s => (d.pick % n, s)
  | .log c, s => s.answerLog d.fault c

end TableLog

def tableService (I : Type) (base : ByteString) : Service I TableResponse TableLog TableChoice :=
  fun _ d c s ↦ some (s.answer base d c)

/-- Every call may fail, and every response may be lost. -/
def tableSem (I : Type) (base : ByteString) : Semantics I Unit TableResponse TableLog :=
  semOf (tableService I base) fun _ _ _ _ _ ↦ true

/-! ## Loading a snapshot -/

abbrev TableClient := Client Unit TableResponse

/-- A client of checkpoints in the log directory. -/
def onLog {α : Type} (x : LogClient α) : TableClient α := x.lift TableCall.log fun _ r ↦ r

/-- `read_retry` and `list_retry`: some attempts of a call. -/
def attempts {α : Type} (call : TableClient (Option α)) : ℕ → TableClient (Option α)
  | 0 => return none
  | n + 1 => do
    match ← call with
    | some a => return some a
    | none => attempts call n

section Load

variable (retries : ℕ)

/-- `read_last_checkpoint` without an ETag -/
def loadLastCheckpoint : TableClient CheckpointInfo := do
  if ← Client.perform TableCall.checkLastCheckpoint then do
    let content ← attempts (onLog (readVersioned .lastCheckpoint)) retries
    return readLastCheckpoint content
  else return {}

/-- `find_checkpoint`; an exception ends the client. -/
def findCheckpoint (maxVersion : ℕ) : TableClient CheckpointInfo := do
  let hint ← loadLastCheckpoint retries
  if hint.version.all (· ≤ maxVersion) then return hint
  else
    match ← attempts (Client.perform TableCall.listObjects) retries with
    | none => return {}
    | some objects =>
      match newestCheckpoint objects maxVersion with
      | .ok info => return info
      | .error _ => Client.diverge

/-- `parse_checkpoint`. The files of a checkpoint in parts are not among the objects. -/
def parseCheckpoint (checkpoint : CheckpointInfo) : TableClient (Option DeltaLogManager) :=
  match checkpoint.version with
  | none => return some {}
  | some version =>
    if 1 < checkpoint.parts then return none
    else do
      match ← attempts (onLog (readVersioned (.checkpoint version))) retries with
      | some ⟨.rows rows, _⟩ =>
        return some (.performAll {} ((readDLCheckpointContent rows).calls version))
      | _ => return none

/-- The body of the loop over the versions of a thread. The lines before a marker are applied to a
snapshot that is then dropped. -/
def loadVersion (v : ℕ) (m : DeltaLogManager) : TableClient (Option DeltaLogManager) := do
  match ← attempts (Client.perform (TableCall.readVersion v)) retries with
  | some ⟨.final lines, _⟩ => return some (m.performAll (versionCalls v lines))
  | _ => return none

/-- The threads of `load_snapshot`, one for each range; all stop when one has failed. The versions
left in `ranges` bound the number of rounds. -/
def loadRanges : ℕ → List (List ℕ) → Option DeltaLogManager → TableClient (Option DeltaLogManager)
  | 0, _, m => return m
  | fuel + 1, ranges, m => do
    let i ← Client.perform (TableCall.schedule ranges.length)
    match ranges[i]?, m with
    | some (v :: rest), some m =>
      match ← loadVersion retries v m with
      | some m =>
        loadRanges fuel (if rest.isEmpty then ranges.eraseIdx i else ranges.set i rest) (some m)
      | none => loadRanges fuel (ranges.eraseIdx i) none
    | some _, none => loadRanges fuel (ranges.eraseIdx i) none
    | _, m => return m

/-- The first version after a checkpoint; versions have 32 bits. -/
def CheckpointInfo.next (checkpoint : CheckpointInfo) : ℕ :=
  match checkpoint.version with
  | some c => (c + 1) % 2 ^ 32
  | none => 0

/-- `load_snapshot` -/
def loadSnapshot (version : ℕ) : TableClient (Option DeltaLogManager) := do
  let checkpoint ← findCheckpoint retries version
  match ← parseCheckpoint retries checkpoint with
  | none => return none
  | some m =>
    let ranges := splitRange checkpoint.next ((version + 1) % 2 ^ 32) 4
    loadRanges retries ranges.flatten.length ranges (some m)

end Load

/-! ## Checkpoints after commits -/

/-- `table_property` of a metaData action -/
def tableProperty (metadata : Option Metadata) (key : Text) : Option Text := do
  let configuration ← (← metadata).configuration
  let value ← (← configuration.find? (·.1 = key)).2
  return value.takeWhile (· ≠ '\x00')

/-- `strtoul` of a text that it has to use up. -/
def unsignedText (text : Text) : Option ℕ :=
  let text := text.dropWhile ([' ', '\t', '\n', '\x0b', '\x0c', '\r'].contains ·)
  let (negative, digits) : Bool × Text :=
    match text with
    | '-' :: digits => (true, digits)
    | '+' :: digits => (false, digits)
    | digits => (false, digits)
  if digits ≠ [] ∧ digits.all (·.isDigit) then
    let n := digits.foldl (fun n c ↦ 10 * n + (c.toNat - '0'.toNat)) 0
    some (if 2 ^ 64 ≤ n then 2 ^ 64 - 1 else if negative then (2 ^ 64 - n) % 2 ^ 64 else n)
  else none

/-- `checkpoint_interval` -/
def checkpointInterval (metadata : Option Metadata) : ℕ :=
  match (tableProperty metadata "delta.checkpointInterval".toList).bind unsignedText with
  | some interval => if 0 < interval ∧ interval < 2 ^ 32 then interval else 10
  | none => 10

/-- The interval divides a version. -/
theorem checkpointInterval_pos (metadata : Option Metadata) : 0 < checkpointInterval metadata := by
  unfold checkpointInterval
  split
  · split
    · next h => exact h.1
    · decide
  · decide

section Tasks

-- `storage_retries`, and the size of a Parquet file
variable (retries : ℕ) (parquetSize : List CheckpointRow → ℕ)

/-- `checkpoint_after_commit`, with `checkpoint_interval` of the options and the metaData of the
table's snapshot. -/
def checkpointAfterCommit (optionInterval : ℕ) (metadata : Option Metadata) (version : ℕ)
    (retentionStart now : ℤ) : TableClient Unit := do
  let interval := if 0 < optionInterval then optionInterval else checkpointInterval metadata
  if version = 0 ∨ version % interval ≠ 0 then return ()
  else
    match ← loadSnapshot retries version with
    | some deltaLog => do
      let _ ← onLog (writeCheckpoint retries parquetSize ⟨version, deltaLog, retentionStart, now⟩)
      return ()
    | none => return ()

/-- A version gets its final content: a commit or a release replaces the marker, another engine
writes the version at once. -/
def finishVersion (v : ℕ) (lines : List LogLine) : TableClient Unit := do
  match ← Client.perform (TableCall.readVersion v) with
  | some ⟨.marker, etag⟩ => do
    let _ ← Client.perform (TableCall.replaceVersion v (.final lines) etag)
    return ()
  | some _ => return ()
  | none => do
    let _ ← Client.perform (TableCall.writeVersion v (.final lines))
    return ()

/-- What a client does with the log directory. -/
inductive Task
  /-- reserves a version with a marker -/
  | reserve (v : ℕ)
  | finish (v : ℕ) (lines : List LogLine)
  | checkpoint (optionInterval : ℕ) (metadata : Option Metadata) (version : ℕ)
    (retentionStart now : ℤ)
  | load (version : ℕ)
  deriving DecidableEq, Repr

/-- One task, with the snapshot that it has loaded. -/
def Task.perform : Task → TableClient (Option (ℕ × DeltaLogManager))
  | .reserve v => do
    let _ ← Client.perform (TableCall.writeVersion v .marker)
    return none
  | .finish v lines => do
    finishVersion v lines
    return none
  | .checkpoint optionInterval metadata version retentionStart now => do
    checkpointAfterCommit retries parquetSize optionInterval metadata version retentionStart now
    return none
  | .load version => return (← loadSnapshot retries version).map (Prod.mk version)

/-- Tasks one after the other, with the snapshots that were loaded. -/
def performTasks : List Task → TableClient (List (ℕ × DeltaLogManager))
  | [] => return []
  | task :: tasks => do
    let loaded ← task.perform retries parquetSize
    return loaded.toList ++ (← performTasks tasks)

/-- Clients before their first step. -/
def tableWorld {I : Type} (s : TableLog) (tasks : I → List Task) :
    World I Unit TableResponse TableLog (List (ℕ × DeltaLogManager) × Unit) where
  shared := s
  client i := performTasks retries parquetSize (tasks i) ()

end Tasks

end LakeVilla.Checkpoint

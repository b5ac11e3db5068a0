import LakeVilla.Transaction.GlobalLog

/-!
# Commit

`commit` first waits for every remembered marker below its reserved versions (`waitMarkers`), gives
up versions whose lease is about to end (`shiftExpiring`), checks the concurrent commits for
conflicts and redoes implicitly logged operations (`resolveConflicts`), validates against the
global log, and then writes its tables one after another (`writeTables`). Several of these steps
send it into another round.
-/

namespace LakeVilla

open Concurrency

/-- The commit still has to write the table. -/
def TableStats.pending (tbl : TableStats) : Bool := !tbl.committed && tbl.changed

namespace Txn

/-- The table of a path: the first one with its base path, and table 0 if there is none. -/
def tableOf (t : Txn) (path : Table) : ℕ := (t.tables.findIdx? (·.basePath = path)).getD 0

/-- A commit (or a released version) is applied to the snapshot. -/
def applyConcurrent (t : Txn) (path : Table) (v : ℕ) (c : Commit) : Txn :=
  { t with
    tables := t.tables.modify (t.tableOf path) fun tbl ↦
      { tbl with
        deltaLog := tbl.deltaLog.applyActions v c.actions
        concurrentChange := tbl.concurrentChange || !c.actions.isEmpty
        concurrentRemoves := tbl.concurrentRemoves ++ c.removes }
    localLog := if t.cfg.levels.l2 then AssocList.modify t.localLog path fun _ ↦ v else t.localLog }

/-- The deferred operations have been executed on the present snapshots. -/
def rebase (t : Txn) : Txn :=
  if t.hazards.isEmpty then
    { t with tables := t.tables.map fun tbl ↦ { tbl with base := tbl.deltaLog.versions } }
  else t

/-- The conflicts that the isolation level forbids. -/
def conflict (t : Txn) : Bool :=
  match t.cfg.options.isolation with
  | .serializable => t.hasReadConflict || t.hasWriteConflict
  | .snapshot => t.hasWriteConflict

end Txn

namespace Tx

/-! ## Waiting for markers -/

/-- Takes a running marker over once its lease (plus the grace period) has ended; `error` means
that the wait goes on. Markers without a deadline are leased from their modification time. -/
def takeOver (path : Table) (v : ℕ) (o : Object) (deadline : Option ℤ) (start : ℤ) :
    Tx WriteStatus := do
  let options := (← get).cfg.options
  let modified := if 0 ≤ o.lastModifiedMs then o.lastModifiedMs else start
  let deadline : ℤ := deadline.getD (modified + options.markerLeaseMs)
  let now ← storeTime
  if now.earliest > deadline + options.markerGraceMs then
    writeIfMatch (.version path v) emptyCommit o.etag
  else pure .error

/-- The loop of `wait_for_marker`, started at local time `start`; `false` if it gives up. -/
def waitLoop (path : Table) (v : ℕ) (start : ℤ) : ℕ → Tx Bool
  | 0 => diverge
  | fuel + 1 => do
    match ← read (.version path v) with
    -- nothing to wait for
    | none => pure true
    | some o =>
      match o.content with
      | .commit c => do
        modify fun t ↦ t.applyConcurrent path v c
        pure true
      | .marker _ deadline => do
        match ← takeOver path v o deadline start with
        | .ok => pure true
        -- committed, released or taken over in the meantime
        | .preconditionFailed => waitLoop path v start fuel
        | _ =>
          let options := (← get).cfg.options
          let giveUpAfter : ℤ := options.markerLeaseMs + options.markerGraceMs + 60000
          if (← localTimeMs) - start > giveUpAfter then pure false else waitLoop path v start fuel
      | _ => pure true

/-- `wait_for_marker` -/
def waitForMarker (fuel : ℕ) (path : Table) (v : ℕ) : Tx Bool := do
  waitLoop path v (← localTimeMs) fuel

/-- A remembered version is waited for if it exists. -/
def passMarker (fuel : ℕ) (path : Table) (v : ℕ) : Tx Bool := do
  if ← check (.version path v) then waitForMarker fuel path v else pure true

/-- Waits for the remembered markers in order; `false` if one of the waits gave up. -/
def waitMarkers (fuel : ℕ) : List (Table × ℕ) → Tx Bool
  | [] => pure true
  | (path, v) :: markers => do
    modify fun t ↦ { t with waiting := some (path, v) }
    let passed ← passMarker fuel path v
    modify fun t ↦ { t with waiting := none }
    if passed then waitMarkers fuel markers else pure false

/-- The first step of a round: after a wait that gave up, the tables are opened again. Returns
`false` if the transaction aborts, since a new snapshot may not contain the files it removes. -/
def waitAllMarkers : ℕ → Tx Bool
  | 0 => diverge
  | fuel + 1 => do
    if ← waitMarkers fuel (← get).prevMarkers then pure true
    else
      let t ← get
      if !t.canRedo && t.hasDeletes then
        abort true
        pure false
      else
        let opened ← reopenTables fuel false
        modify fun t ↦
          { t with hazards := if opened then t.hazards else .reopenFailed :: t.hazards }
        waitAllMarkers fuel

/-! ## Leases -/

/-- The lease of a table that is still to be written ends. -/
def expiring (tbl : TableStats) : Tx Bool := if tbl.pending then leaseExpiring tbl else pure false

/-- Moves every table whose lease ends before a commit could be written to a later version.
Returns whether a table was moved, and `none` if the transaction aborts. -/
def shiftExpiring (fuel rounds : ℕ) : List ℕ → Bool → Tx (Option Bool)
  | [], shifted => pure (some shifted)
  | i :: is, shifted => do
    let t ← get
    match t.tables[i]? with
    | none => shiftExpiring fuel rounds is shifted
    | some tbl =>
      if ← expiring tbl then
        if t.cfg.options.maxRedos ≤ rounds then
          abort true
          pure none
        else
          shiftMarker fuel i
          shiftExpiring fuel rounds is true
      else shiftExpiring fuel rounds is shifted

/-! ## Conflicts and redo -/

/-- Applies the versions after the read version of table `i`. -/
def collectTable (i : ℕ) : ℕ → TableStats → ℕ → Tx Unit
  | 0, _, _ => diverge
  | fuel + 1, tbl, v => do
    if ← check (.version tbl.basePath v) then do
      let _ ← waitForMarker fuel tbl.basePath v
      modifyTable i fun tbl ↦ { tbl with readVersion := v }
      collectTable i fuel tbl (v + 1)
    else pure ()

def collectTables (fuel : ℕ) : List ℕ → Tx Unit
  | [] => pure ()
  | i :: is => do
    match (← get).tables[i]? with
    | some tbl => do
      when (tbl.wasRead && !tbl.changed) (collectTable i fuel tbl (tbl.readVersion + 1))
      collectTables fuel is
    | none => collectTables fuel is

/-- `collect_unseen_versions`: without levels, newer versions of tables that were only read are
checked here. -/
def collectUnseenVersions (fuel : ℕ) : Tx Unit := do
  let t ← get
  let levels := t.cfg.levels
  if levels.l0 || levels.l1 || levels.l2 || t.cfg.options.isolation ≠ .serializable then pure ()
  else collectTables fuel (List.range t.tables.length)

/-- The snapshot of `rebuild_state`: the versions from `s` on, `n` of them. -/
def parseAll (basePath : Table) : ℕ → ℕ → DeltaLogManager → Tx (Option DeltaLogManager)
  | 0, _, deltaLog => pure (some deltaLog)
  | n + 1, s, deltaLog => do
    match ← parseVersion none basePath deltaLog s with
    | none => pure none
    | some (deltaLog, _) => parseAll basePath n (s + 1) deltaLog

def rebuildTables : List ℕ → Tx Bool
  | [] => pure true
  | i :: is => do
    match (← get).tables[i]? with
    | none => rebuildTables is
    | some tbl => do
      modifyTable i fun tbl ↦
        { tbl with deltaLog := {}, createdFiles := [], deletedFiles := [], committed := false }
      match ← parseAll tbl.basePath tbl.markerVersion 0 {} with
      | none => pure false
      | some deltaLog =>
        modifyTable i fun tbl ↦
          { tbl with deltaLog := deltaLog, readVersion := tbl.markerVersion - 1 }
        rebuildTables is

/-- `rebuild_state`: a fresh snapshot of all versions below the reserved ones. -/
def rebuildState : Tx Bool := do
  if ← rebuildTables (List.range (← get).tables.length) then do
    modify Txn.clearConcurrency
    pure true
  else pure false

/-- The counters of a commit. -/
structure CommitState where
  /-- marker shifts and redo rounds -/
  rounds : ℕ := 0
  redoDone : Bool := false
  /-- failed version claims without markers -/
  claimFailures : ℕ := 0
  deriving DecidableEq, Repr

/-- `redo(1)` in `commit`; its result is not looked at. -/
def redoRound (st : CommitState) : Tx CommitState := do
  modify fun t ↦ t.redo.2.clearConcurrency.rebase
  pure { st with redoDone := true }

/-- A conflict after a redo needs a fresh snapshot and another redo; `none` if the transaction
aborts. -/
def redoAgain (st : CommitState) : Tx (Option CommitState) := do
  let t ← get
  if t.cfg.options.maxRedos ≤ st.rounds then do
    abort false
    pure none
  else if ← rebuildState then do
    let st ← redoRound { st with rounds := st.rounds + 1 }
    pure (some st)
  else do
    abort false
    pure none

/-- Checks for conflicts and redoes implicitly logged operations; `none` if the transaction
aborts. -/
def resolveConflicts (st : CommitState) : Tx (Option CommitState) := do
  let t ← get
  if t.canRedo then
    if st.redoDone then
      if t.conflict then redoAgain st else pure (some st)
    else do
      let st ← redoRound st
      pure (some st)
  else if t.conflict then do
    abort false
    pure none
  else pure (some st)

/-! ## Writing -/

/-- `CommitWrite` -/
inductive CommitWrite
  | ok
  | lost
  | taken
  | failed
  deriving DecidableEq, Repr

/-- One attempt of `write_commit`. -/
def writeLog (mk : Marker) (log : Content) : Tx WriteStatus := do
  match (← get).markers, mk.etag with
  -- marker of an unknown ETag: plain overwrite
  | true, none => do
    if ← write mk.path log then pure .ok else pure .error
  -- replace our marker with the commit, unless the lease was taken over
  | true, some etag => writeIfMatch mk.path log etag
  -- claim the version; never overwrite a commit of another writer
  | false, _ => do
    let (status, _) ← writeAtomic mk.path log
    pure status

/-- `written_by_us`: an earlier attempt may have succeeded although its response was lost. -/
def writtenByUs (mk : Marker) (log : Content) (uncertain : Bool) : Tx Bool := do
  if uncertain then
    match ← read mk.path with
    | some o => pure (decide (o.content = log))
    | none => pure false
  else pure false

def invalidate (i : ℕ) (mk : Marker) : Tx Unit :=
  modifyTable i fun tbl ↦ { tbl with marker := some mk.setInvalid }

/-- The attempts of `write_commit`. -/
def writeCommitAttempts (i : ℕ) (mk : Marker) (log : Content) : ℕ → Bool → Tx CommitWrite
  | 0, _ => pure .failed
  | n + 1, uncertain => do
    match ← writeLog mk log with
    | .ok => do
      invalidate i mk
      pure .ok
    | .error => writeCommitAttempts i mk log n true
    | _ => do
      if ← writtenByUs mk log uncertain then do
        invalidate i mk
        pure .ok
      else if (← get).markers then do
        -- the lease expired and another transaction took the version over
        invalidate i mk
        pure .lost
      else pure .taken

/-- `write_commit` for table `i` -/
def writeCommit (i : ℕ) (tbl : TableStats) : Tx CommitWrite := do
  let t ← get
  match tbl.marker with
  | none => pure .failed
  | some mk => writeCommitAttempts i mk (buildCommitLog t tbl) t.cfg.storageRetries false

/-- How the loop over the tables ends. -/
inductive WriteTables
  | written
  | lost
  | taken (i : ℕ)
  | failed
  deriving DecidableEq, Repr

def writeTables (fuel rounds : ℕ) : List ℕ → Tx WriteTables
  | [] => pure .written
  | i :: is => do
    let t ← get
    match t.tables[i]? with
    | none => writeTables fuel rounds is
    | some tbl =>
      if tbl.pending then
        match ← writeCommit i tbl with
        | .ok =>
          modifyTable i fun tbl ↦ { tbl with committed := true }
          writeTables fuel rounds is
        | .lost => do
          when (rounds < t.cfg.options.maxRedos) (shiftMarker fuel i)
          pure .lost
        | .taken => if t.canRepairGlobalLog then pure (.taken i) else pure .failed
        | .failed => pure .failed
      else writeTables fuel rounds is

/-- A version reserved for a table that was not changed is released at the end of a commit. -/
def releaseTable (i : ℕ) : Tx Unit := do
  match (← get).tables[i]? with
  | some tbl =>
    match tbl.marker with
    | some mk => do
      let (_, mk) ← release mk
      modifyTable i fun tbl ↦ { tbl with marker := some mk }
    | none => pure ()
  | none => pure ()

def releaseTables : List ℕ → Tx Unit
  | [] => pure ()
  | i :: is => do
    releaseTable i
    releaseTables is

/-! ## Repair of the global log -/

/-- The last of the versions from `v` on that exist; `none` if one of them is a running marker. -/
def highestCommitted (basePath : Table) : ℕ → ℕ → Tx (Option ℕ)
  | 0, _ => diverge
  | fuel + 1, v => do
    match ← classifyVersion (.version basePath v) with
    | .missing => pure (some (v - 1))
    | .marker => pure none
    | _ => highestCommitted basePath fuel (v + 1)

def waitVersions (fuel : ℕ) (path : Table) : List ℕ → Tx Unit
  | [] => pure ()
  | v :: vs => do
    let _ ← waitForMarker fuel path v
    waitVersions fuel path vs

/-- The versions `first .. highest` join the snapshot of table `i`; the transaction claims the
version after them. -/
def moveBehind (fuel : ℕ) (i : ℕ) (basePath : Table) (first highest : ℕ) : Tx Bool := do
  waitVersions fuel basePath (List.range' first (highest + 1 - first))
  match (← get).tables[i]? with
  | none => pure false
  | some tbl => do
    let (tbl, _) ← reserveVersion fuel { tbl with readVersion := highest } highest
    modifyTable i fun _ ↦ tbl
    pure true

/-- `repair_global_log` for table `i` -/
def repairGlobalLog (fuel : ℕ) (i : ℕ) : Tx Bool := do
  match (← get).tables[i]? with
  | none => pure false
  | some tbl => do
    let first := tbl.markerVersion
    match ← highestCommitted tbl.basePath fuel first with
    | none => pure false
    | some highest =>
      if highest < first then pure false
      else if ← updateGlobalEntry tbl.basePath fun current ↦
          some (max (current.getD 0) highest) then
        moveBehind fuel i tbl.basePath first highest
      else pure false

/-! ## The commit -/

/-- The version reserved for a table that is still to be written was taken over. -/
def lostVersion (i : ℕ) (tbl : TableStats) : Tx Bool :=
  if tbl.pending then markerLost i tbl else pure false

/-- Moves the tables whose versions were taken over; returns whether there is one. -/
def shiftLost (fuel : ℕ) : List ℕ → Bool → Tx Bool
  | [], moved => pure moved
  | i :: is, moved => do
    match (← get).tables[i]? with
    | none => shiftLost fuel is moved
    | some tbl =>
      if ← lostVersion i tbl then do
        shiftMarker fuel i
        shiftLost fuel is true
      else shiftLost fuel is moved

/-- The first step of a round, with markers. -/
def waitPhase (fuel : ℕ) : Tx Bool := do
  if (← get).markers then waitAllMarkers fuel else pure true

/-- After a few failed claims of table `i` the global log is repaired. -/
def tryRepair (fuel : ℕ) (i claimFailures : ℕ) : Tx Bool := do
  if (← get).cfg.options.globalLogRepairAfter ≤ claimFailures then repairGlobalLog fuel i
  else pure false

/-- After a failed claim of table `i`; returns whether the commit goes on. -/
def afterTaken (fuel : ℕ) (i claimFailures : ℕ) : Tx Bool := do
  let repaired ← tryRepair fuel i claimFailures
  releaseGlobalLock
  let t ← get
  if !repaired && t.cfg.options.globalLogRepairAfter ≤ claimFailures then do
    abort false
    pure false
  else pure true

/-- With markers, a global log ahead of the reserved version means that the lease was taken over:
the transaction moves to a later version instead of aborting. -/
def moveLost (fuel : ℕ) (rounds : ℕ) : Tx Bool := do
  let t ← get
  if t.markers && rounds < t.cfg.options.maxRedos then
    shiftLost fuel (List.range t.tables.length) false
  else pure false

/-- After a validation that failed (`invalid`); returns the number of rounds if the commit goes
on. -/
def afterInvalid (fuel : ℕ) (rounds : ℕ) : Tx (Option ℕ) := do
  releaseGlobalLock
  if ← moveLost fuel rounds then pure (some (rounds + 1))
  else do
    let t ← get
    abort false
    if t.cfg.levels.l0 && t.cfg.levels.l2 && t.canRedo then
      if ← reopenTables fuel false then pure (some rounds) else pure none
    else pure none

/-- After the loop over the tables was left with `lost`; returns whether the commit goes on. -/
def afterLost (rounds : ℕ) : Tx Bool := do
  releaseGlobalLock
  let t ← get
  if t.cfg.options.maxRedos ≤ rounds then do
    abort false
    pure false
  else pure true

/-- After all tables were written. -/
def finish (maps : VersionMaps) : Tx Bool := do
  createGlobalSnapshot maps
  modify fun t ↦ { t with decided := true }
  let t ← get
  releaseTables (List.range t.tables.length)
  pure true

/-- How a round of `commit` ends: with a result, or with another round. -/
inductive Round
  | done (result : Bool)
  | again (st : CommitState)
  deriving DecidableEq, Repr

/-- The validation and the writes of a round. -/
def writePhase (fuel : ℕ) (st : CommitState) : Tx Round := do
  match ← startValidation fuel with
  | (.valid, maps) => do
    let t ← get
    match ← writeTables fuel st.rounds (List.range t.tables.length) with
    | .written => do
      let result ← finish maps
      pure (.done result)
    | .taken i => do
      let st := { st with claimFailures := st.claimFailures + 1 }
      if ← afterTaken fuel i st.claimFailures then pure (.again st) else pure (.done false)
    | .lost => do
      if ← afterLost st.rounds then pure (.again { st with rounds := st.rounds + 1 })
      else pure (.done false)
    | .failed => do
      releaseGlobalLock
      abort false
      pure (.done false)
  | (.invalid, _) => do
    match ← afterInvalid fuel st.rounds with
    | some rounds => pure (.again { st with rounds := rounds })
    | none => pure (.done false)
  | (.lockTimeout, _) => do
    abort false
    pure (.done false)

/-- One round of `commit`. -/
def commitRound (fuel : ℕ) (st : CommitState) : Tx Round := do
  if ← waitPhase fuel then do
    let t ← get
    match ← shiftExpiring fuel st.rounds (List.range t.tables.length) false with
    | none => pure (.done false)
    | some true => pure (.again { st with rounds := st.rounds + 1 })
    | some false => do
      collectUnseenVersions fuel
      match ← resolveConflicts st with
      | none => pure (.done false)
      | some st => writePhase fuel st
  else pure (.done false)

def commitRounds (fuel : ℕ) : ℕ → CommitState → Tx Bool
  | 0, _ => diverge
  | n + 1, st => do
    match ← commitRound fuel st with
    | .done result => pure result
    | .again st => commitRounds fuel n st

/-- `commit`; with the hint `readOnly` it is an abort. -/
def commit (fuel : ℕ) (readOnly : Bool) : Tx Bool := do
  if readOnly then do
    abort true
    pure true
  else do
    modify fun t ↦ { t with tables := t.tables.map fun tbl ↦ { tbl with committed := false } }
    commitRounds fuel fuel {}

end Tx

end LakeVilla

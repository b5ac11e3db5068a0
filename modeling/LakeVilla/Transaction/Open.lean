import LakeVilla.Transaction.Marker

/-!
# Opening tables

A table is opened by reserving the version after the highest existing one (`loadTable`) and then
reading the versions below it, several threads side by side. Running markers among them are
remembered in `prevMarkers`: their versions are waited for at commit. With level 2 the snapshot
ends at the version of the global log instead.

With level 1 a transaction that sees two running markers of one transaction gives up its own
versions and opens all tables again (`reopenTables`).
-/

namespace LakeVilla

open Concurrency

/-- `split_range`, as the versions of each part. -/
def splitRange (first last parts : ℕ) : List (List ℕ) :=
  if last ≤ first then []
  else
    let count := last - first
    let parts := max 1 (min parts count)
    let step := count / parts
    let remainder := count % parts
    (List.range parts).map fun i ↦
      List.range' (first + step * i + min i remainder) (step + if i < remainder then 1 else 0)

namespace Txn

/-- `register_dependency` at level 1: the marker's transaction was seen before. -/
def dependsOn (t : Txn) (txnid : TxnId) : Bool := t.cfg.levels.l1 && t.relation.contains txnid

/-- A running marker in the parsed log: operations are deferred to the redo (level 0), the version
is waited for at commit, and the marker's transaction is registered (level 1). -/
def parseMarker (t : Txn) (basePath : Table) (s : ℕ) (txnid : TxnId) : Txn :=
  let t := if t.markers then t.remember basePath [s] else t
  { t with
    explicitLog := t.explicitLog && !t.cfg.levels.l0
    relation := if t.cfg.levels.l1 then txnid :: t.relation else t.relation
    hazards := t.deferring ++ t.hazards }

end Txn

namespace Tx

/-! ## Foreign versions -/

/-- `LogVersion` -/
inductive LogVersion
  | missing
  | marker
  | empty
  | lakeVillaCommit
  | foreignCommit
  deriving DecidableEq, Repr

/-- `classify_version` -/
def classifyVersion (path : Key) : Tx LogVersion := do
  match ← read path with
  | none => pure .missing
  | some o =>
    match o.content with
    | .marker _ _ => pure .marker
    | .commit c =>
      if c.actions.isEmpty then pure .empty
      else pure (if c.lakeVilla then .lakeVillaCommit else .foreignCommit)
    | _ => pure .empty

/-- `skip_foreign_versions` -/
def skipForeignVersions : ℕ → Table → ℕ → Tx ℕ
  | 0, _, _ => diverge
  | fuel + 1, basePath, version => do
    let path := Key.version basePath (version + 1)
    if ← check path then
      match ← classifyVersion path with
      | .foreignCommit | .empty => skipForeignVersions fuel basePath (version + 1)
      | _ => pure version
    else pure version

/-! ## The global log at begin -/

/-- `parse_global_snapshots` -/
def parseGlobalSnapshots : Tx Unit := do
  if (← get).cfg.levels.l2 then
    if ← check .globalLog then
      match ← readRetry .globalLog with
      | some ⟨.globalLog lines, _, _⟩ =>
        modify fun t ↦
          { t with
            localLog := lines.foldl (fun l e ↦ AssocList.insertNew l e.1 e.2) t.localLog }
      | _ => pure ()

/-! ## Parsing a log -/

/-- One version of `parse_logentries2`: `none` if it cannot be read, otherwise the snapshot with the
version and whether a dependency was found. Versions above the snapshot are only waited for. -/
def parseVersion (maxVersion : Option ℕ) (basePath : Table) (deltaLog : DeltaLogManager)
    (s : ℕ) : Tx (Option (DeltaLogManager × Bool)) := do
  if maxVersion.all fun m ↦ s ≤ m then
    match ← readRetry (.version basePath s) with
    | none => pure none
    | some o =>
      match o.content with
      | .commit c => pure (some (deltaLog.applyActions s c.actions, false))
      | .marker txnid _ => do
        let dependency := (← get).dependsOn txnid
        modify fun t ↦ t.parseMarker basePath s txnid
        pure (some (deltaLog, dependency))
      | _ => pure (some (deltaLog, false))
  else do
    modify fun t ↦ if t.markers then t.remember basePath [s] else t
    pure (some (deltaLog, false))

/-- What the threads of `load_table` share. -/
structure Parse where
  deltaLog : DeltaLogManager
  logsOk : Bool := true
  dependencies : Bool := false

/-- The threads of `load_table`, one for each range; a thread stops at a version it cannot read.
The versions left in `ranges` bound the number of rounds. -/
def parseRanges (maxVersion : Option ℕ) (basePath : Table) :
    ℕ → List (List ℕ) → Parse → Tx Parse
  | 0, _, st => pure st
  | fuel + 1, ranges, st => do
    let i ← schedule ranges.length
    match ranges[i]? with
    | some (s :: rest) =>
      match ← parseVersion maxVersion basePath st.deltaLog s with
      | some (deltaLog, dependency) =>
        parseRanges maxVersion basePath fuel
          (if rest.isEmpty then ranges.eraseIdx i else ranges.set i rest)
          { st with deltaLog := deltaLog, dependencies := st.dependencies || dependency }
      | none => parseRanges maxVersion basePath fuel (ranges.eraseIdx i) { st with logsOk := false }
    | _ => pure st

/-- The version of the global log that a snapshot ends at (`max_version`), if there is one. -/
def snapshotVersion (fuel : ℕ) (basePath : Table) : Tx (Option ℕ) := do
  let t ← get
  match t.cfg.levels.l2, t.localLog.lookup basePath with
  | true, some version =>
    if t.cfg.options.globalLogCheckAtBegin then do
      let version ← skipForeignVersions fuel basePath version
      modify fun t ↦ { t with localLog := AssocList.insertOrAssign t.localLog basePath version }
      pure (some version)
    else pure (some version)
  | _, _ => pure none

/-- The highest committed (or reserved) version of the table. -/
def highestVersion (basePath : Table) : Option ℕ → Tx (Option ℕ)
  | some version => pure (some version)
  | none => do
    match ← listRetry basePath with
    | none => pure none
    | some versions => pure versions.max?

/-- `load_table`: the opened table, whether it could be loaded, and whether dependencies were
found. -/
def loadTable (fuel : ℕ) (tbl : TableStats) (dependencies : Bool) :
    Tx (TableStats × Bool × Bool) := do
  let t ← get
  let maxVersion ← snapshotVersion fuel tbl.basePath
  let tbl := { tbl with deltaLog := {}, concurrentRemoves := [], concurrentChange := false }
  match ← highestVersion tbl.basePath maxVersion with
  | none => pure (tbl, false, dependencies)
  | some highest => do
    let (tbl, highest) ← reserveVersion fuel tbl highest
    let st ← parseRanges maxVersion tbl.basePath (highest + 1)
      (splitRange 0 (highest + 1) t.cfg.numThreads) { deltaLog := {}, dependencies := dependencies }
    modify fun t' ↦
      { t' with
        localLog :=
          if t'.cfg.levels.l2 && maxVersion.isNone then
            AssocList.insertNew t'.localLog tbl.basePath highest
          else t'.localLog
        hazards := t.reopening tbl ++ t'.hazards }
    -- operations that were executed on an earlier snapshot stay there
    let base := if (t.reopening tbl).isEmpty then st.deltaLog.versions else tbl.base
    pure ({ tbl with deltaLog := st.deltaLog, readVersion := highest, base := base },
      st.logsOk, st.dependencies)

/-! ## Opening and reopening -/

/-- The loop of `reopen_tables` over the tables: `none` if one of them cannot be loaded. -/
def loadTables (fuel : ℕ) : List ℕ → Bool → Tx (Option Bool)
  | [], dependencies => pure (some dependencies)
  | i :: is, dependencies => do
    match (← get).tables[i]? with
    | none => pure (some dependencies)
    | some tbl => do
      let (tbl, ok, dependencies) ← loadTable fuel tbl dependencies
      modifyTable i fun _ ↦ tbl
      if ok then loadTables fuel is dependencies else pure none

/-- What `reopen_tables` forgets first; level 2 reads the global log again. -/
def resetSnapshots : Tx Unit := do
  modify fun t ↦ { t with relation := [], localLog := if t.cfg.levels.l2 then [] else t.localLog }
  parseGlobalSnapshots

/-- `reopen_tables`: opens every table again at a new version. A call from its own loop
`while (!fixed) fixed = reopen_tables()` is repeated (`retry`) until it succeeds. -/
def reopenTables : ℕ → Bool → Tx Bool
  | 0, _ => diverge
  | fuel + 1, retry => do
    resetSnapshots
    match ← loadTables fuel (List.range (← get).tables.length) false with
    | none => if retry then reopenTables fuel true else pure false
    | some false => pure true
    | some true => reopenTables fuel true

/-- The loop of `open_tableV2`: gives up all reserved versions and opens the tables again. -/
def reopenUntilFixed : ℕ → Tx Unit
  | 0 => diverge
  | fuel + 1 => do
    abort false
    if ← reopenTables fuel false then pure () else reopenUntilFixed fuel

/-- Releases the version of a table that could not be loaded, with an unconditional write: the
version may have been taken over. -/
def releaseFailed (tbl : TableStats) : Tx Unit := do
  let t ← get
  match t.markers, tbl.marker with
  | true, some mk => do
    let _ ← write mk.path (headerCommit t)
  | _, _ => pure ()

/-- `open_tableV2` -/
def openTableV2 (fuel : ℕ) (path : Table) : Tx (Option TableStats) := do
  let (tbl, ok, dependencies) ← loadTable fuel { basePath := path } false
  if ok then do
    when dependencies (reopenUntilFixed fuel)
    pure (some tbl)
  else do
    releaseFailed tbl
    pure none

/-- `begin`; the sublog's first entry is a private object. -/
def begin (fuel : ℕ) (basePath : Table) : Tx Bool := do
  parseGlobalSnapshots
  match ← openTableV2 fuel basePath with
  | none => pure false
  | some tbl => do
    modify fun t ↦ { t with tables := t.tables ++ [tbl] }
    pure true

/-- The attempts of `begin_transaction_ycsb`, a transaction on a new manager. -/
def beginAttempts (fuel : ℕ) (basePath : Table) : ℕ → Tx Bool
  | 0 => pure false
  | n + 1 => do
    if ← begin fuel basePath then pure true else beginAttempts fuel basePath n

/-- `begin_transaction_ycsb`: `NUM_RETRIES` is 5. -/
def beginTransaction (fuel : ℕ) (basePath : Table) : Tx Bool := beginAttempts fuel basePath 5

/-- The attempts of `open_new_table`. -/
def openAttempts (fuel : ℕ) (path : Table) : ℕ → Tx Bool
  | 0 => do
    abort true
    pure false
  | n + 1 => do
    match ← openTableV2 fuel path with
    | none => openAttempts fuel path n
    | some tbl => do
      modify fun t ↦ { t with tables := t.tables ++ [tbl] }
      pure true

/-- `open_new_table` -/
def openNewTable (fuel : ℕ) (path : Table) : Tx Bool := openAttempts fuel path 5

end Tx

end LakeVilla

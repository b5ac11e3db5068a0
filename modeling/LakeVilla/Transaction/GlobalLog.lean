import LakeVilla.Transaction.Open

/-!
# The global log

With level 2 the versions of all tables are collected in one object, the global log. A commit
acquires its lock file, compares the versions it read and the versions it is about to write with
the log (`startValidation`), writes the tables, and rewrites the log (`createGlobalSnapshot`).

The lock is a put-if-absent of a file with a unique token. A waiter that observes one token for
longer than `globalLockLeaseMs` takes its holder for crashed and deletes the file.
-/

namespace LakeVilla

open Concurrency

/-- `Validation` -/
inductive Validation
  | valid
  | invalid
  | lockTimeout
  deriving DecidableEq, Repr

/-- The versions that a validation compares with the global log (`version_read_map`,
`version_write_map`). -/
structure VersionMaps where
  read : List (Table × ℕ) := []
  write : List (Table × ℕ) := []
  deriving DecidableEq, Repr

namespace VersionMaps

/-- The maps of the opened tables. -/
def ofTables (tables : List TableStats) : VersionMaps :=
  tables.foldl (fun maps tbl ↦
    if tbl.changed then
      { maps with write := AssocList.insertNew maps.write tbl.basePath tbl.markerVersion }
    else { maps with read := AssocList.insertNew maps.read tbl.basePath tbl.readVersion }) {}

/-- One line of the global log in `start_validation`: a table that was read. `none` if the
transaction is invalid. -/
def validateRead (isolation : Isolation) (maps : VersionMaps) (path : Table) (version : ℕ) :
    Option VersionMaps :=
  match maps.read.lookup path with
  | some r =>
    if r < version then
      match isolation with
      | .serializable => none
      -- the global log must not go backwards
      | .snapshot => some { maps with read := AssocList.insertOrAssign maps.read path version }
    else some maps
  | none => some maps

/-- One line of the global log: a table that is written. -/
def validateWrite (maps : VersionMaps) (path : Table) (version : ℕ) : Option VersionMaps :=
  match maps.write.lookup path with
  | some w => if w ≤ version then none else some maps
  | none => some { maps with read := AssocList.insertNew maps.read path version }

def validateLine (isolation : Isolation) (maps : VersionMaps) (path : Table) (version : ℕ) :
    Option VersionMaps :=
  (maps.validateRead isolation path version).bind fun maps ↦ maps.validateWrite path version

def validateLines (isolation : Isolation) :
    List (Table × ℕ) → VersionMaps → Option VersionMaps
  | [], maps => some maps
  | (path, version) :: lines, maps => do
    validateLines isolation lines (← maps.validateLine isolation path version)

/-- The lines that `create_global_snapshot` writes. -/
def lines (maps : VersionMaps) : List (Table × ℕ) :=
  maps.read.filter (fun e ↦ (maps.write.lookup e.1).isNone) ++ maps.write

end VersionMaps

namespace Tx

/-! ## The lock -/

/-- Deletes the lock file if it still holds the observed token. -/
def breakLock (observed : Token) : Tx Unit := do
  match ← read .globalTmpLog with
  | some ⟨.lock again, _, _⟩ =>
    if again = observed then do
      let _ ← deleteFile .globalTmpLog
    else pure ()
  | _ => pure ()

def acquired (token : Token) : Tx Bool := do
  modify fun t ↦ { t with globalLockToken := some token }
  pure true

/-- The loop of `acquire_global_lock`: `observed` is the token last seen, since the local time
`since`. -/
def acquireLoop (token : Token) (start : ℤ) : ℕ → Option Token → ℤ → Tx Bool
  | 0, _, _ => diverge
  | fuel + 1, observed, since => do
    let timeout := (← get).cfg.globalLockTimeoutMs
    let lease := (← get).cfg.globalLockLeaseMs
    match ← writeAtomic .globalTmpLog (.lock token) with
    | (.ok, _) => acquired token
    | _ => do
      let now ← localTimeMs
      match ← read .globalTmpLog with
      | some ⟨.lock content, _, _⟩ =>
        if content = token then
          -- an earlier write succeeded although its response was lost
          acquired token
        else if some content ≠ observed then
          if now - start > timeout then pure false
          else acquireLoop token start fuel (some content) now
        else if now - since > lease then
          -- the holder did not release the lock within the lease
          breakLock content
          acquireLoop token start fuel none since
        else if now - start > timeout then pure false
        else acquireLoop token start fuel observed since
      | _ =>
        if now - start > timeout then pure false
        else acquireLoop token start fuel observed since

/-- `acquire_global_lock` -/
def acquireGlobalLock (fuel : ℕ) : Tx Bool := do
  let t ← get
  set { t with nextToken := t.nextToken + 1 }
  let start ← localTimeMs
  acquireLoop ⟨t.transactionId, t.nextToken⟩ start fuel none start

def deleteAttempts (k : Key) : ℕ → Tx Unit
  | 0 => pure ()
  | n + 1 => do
    if ← deleteFile k then pure () else deleteAttempts k n

/-- Deletes the lock file if it holds the transaction's own token. -/
def deleteLock (token : Token) : Tx Unit := do
  match ← read .globalTmpLog with
  | some ⟨.lock content, _, _⟩ =>
    if content = token then deleteAttempts .globalTmpLog (← get).cfg.storageRetries else pure ()
  | _ => pure ()

/-- `release_global_lock` -/
def releaseGlobalLock : Tx Unit := do
  match (← get).globalLockToken with
  | none => pure ()
  | some token => do
    deleteLock token
    modify fun t ↦ { t with globalLockToken := none }

/-! ## Validation -/

/-- `start_validation`; after `lockTimeout` the lock is not held. -/
def startValidation (fuel : ℕ) : Tx (Validation × VersionMaps) := do
  let t ← get
  if t.cfg.levels.l2 then
    let maps := VersionMaps.ofTables t.tables
    if ← acquireGlobalLock fuel then
      if ← check .globalLog then
        match ← readRetry .globalLog with
        | none => pure (.invalid, maps)
        | some o =>
          match o.content with
          | .globalLog lines =>
            match VersionMaps.validateLines t.cfg.options.isolation lines maps with
            | some maps => pure (.valid, maps)
            | none => pure (.invalid, maps)
          | _ => pure (.valid, maps)
      else pure (.valid, maps)
    else pure (.lockTimeout, maps)
  else pure (.valid, {})

def writeAttempts (k : Key) (c : Content) : ℕ → Tx Bool
  | 0 => pure false
  | n + 1 => do
    if ← write k c then pure true else writeAttempts k c n

/-- `create_global_snapshot` -/
def createGlobalSnapshot (maps : VersionMaps) : Tx Unit := do
  let t ← get
  if t.cfg.levels.l2 then
    let _ ← writeAttempts .globalLog (.globalLog maps.lines) t.cfg.storageRetries
    releaseGlobalLock

/-! ## Changing one entry -/

/-- The lines of the global log with the entry of a table replaced or removed. -/
def replaceEntry (entries : List (Table × ℕ)) (path : Table) (next : Option ℕ) :
    List (Table × ℕ) :=
  let others := entries.filter (·.1 ≠ path)
  match next with
  | none => others
  | some v =>
    if entries.any (·.1 = path) then
      -- at the place of the first entry
      (entries.takeWhile (·.1 ≠ path)) ++ (path, v) ::
        (entries.dropWhile (·.1 ≠ path)).filter (·.1 ≠ path)
    else others ++ [(path, v)]

/-- The lines of the global log; `none` if it cannot be read. -/
def globalEntries : Tx (Option (List (Table × ℕ))) := do
  if ← check .globalLog then
    match ← readRetry .globalLog with
    | none => pure none
    | some ⟨.globalLog lines, _, _⟩ => pure (some lines)
    | some _ => pure (some [])
  else pure (some [])

/-- `update_global_entry` -/
def updateGlobalEntry (path : Table) (update : Option ℕ → Option ℕ) : Tx Bool := do
  match ← globalEntries with
  | none => pure false
  | some entries =>
    -- of several entries of a table the last one counts
    let current := entries.reverse.lookup path
    let next := update current
    if next = current then pure true
    else do
      let t ← get
      writeAttempts .globalLog (.globalLog (replaceEntry entries path next)) t.cfg.storageRetries

end Tx

end LakeVilla

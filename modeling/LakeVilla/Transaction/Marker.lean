import LakeVilla.Transaction.Operations

/-!
# Reserved versions

A transaction reserves the next version of a table by placing a marker with a put-if-absent
(`reserveVersion`). Every later overwrite of the marker is conditional on its ETag: the commit, the
release by its holder (`release`), and the takeover by a waiter after the lease has ended.

Loops without a bound take `fuel`.
-/

namespace LakeVilla

open Concurrency

namespace Txn

/-- The version of a path is remembered: it has to be waited for. -/
def remember (t : Txn) (basePath : Table) (vs : List ℕ) : Txn :=
  { t with prevMarkers := t.prevMarkers ++ vs.map fun v ↦ (basePath, v) }

end Txn

namespace Tx

/-! ## The connector -/

def check (k : Key) : Tx Bool := call (.check k)

def read (k : Key) : Tx (Option Object) := call (.read k)

def write (k : Key) (c : Content) : Tx Bool := call (.write k c)

def writeAtomic (k : Key) (c : Content) : Tx (WriteStatus × ETag) := call (.writeAtomic k c)

def writeIfMatch (k : Key) (c : Content) (etag : ETag) : Tx WriteStatus :=
  call (.writeIfMatch k c etag)

def deleteFile (k : Key) : Tx Bool := call (.deleteFile k)

def listObjects (table : Table) : Tx (Option (List ℕ)) := call (.listObjects table)

def storeTime : Tx StoreTime := call .storeTime

def localTimeMs : Tx ℤ := call .localTimeMs

def schedule (n : ℕ) : Tx ℕ := call (.schedule n)

def nextOp : Tx Op := call .nextOp

/-- `read_retry`: up to `storage_retries` attempts. -/
def readAttempts (k : Key) : ℕ → Tx (Option Object)
  | 0 => pure none
  | n + 1 => do
    match ← read k with
    | some o => pure (some o)
    | none => readAttempts k n

def readRetry (k : Key) : Tx (Option Object) := do
  readAttempts k (← get).cfg.storageRetries

/-- `list_retry` -/
def listAttempts (table : Table) : ℕ → Tx (Option (List ℕ))
  | 0 => pure none
  | n + 1 => do
    match ← listObjects table with
    | some vs => pure (some vs)
    | none => listAttempts table n

def listRetry (table : Table) : Tx (Option (List ℕ)) := do
  listAttempts table (← get).cfg.storageRetries

/-! ## Releasing -/

def releaseAttempts : ℕ → Marker → Tx (Bool × Marker)
  | 0, mk => pure (false, mk)
  | n + 1, mk =>
    match mk.etag with
    | none => do
      if ← write mk.path emptyCommit then pure (true, mk.setInvalid)
      else releaseAttempts n mk
    | some etag => do
      match ← writeIfMatch mk.path emptyCommit etag with
      -- released, or another transaction took the expired lease over
      | .ok | .preconditionFailed => pure (true, mk.setInvalid)
      | _ => releaseAttempts n mk

/-- `Marker::release` -/
def release (mk : Marker) : Tx (Bool × Marker) :=
  if mk.valid then releaseAttempts 5 mk else pure (true, mk)

/-- Releases the version of table `i` if it is still reserved. -/
def abortTable (i : ℕ) : Tx Unit := do
  match (← get).tables[i]? with
  | some tbl =>
    match tbl.marker with
    | some mk => do
      let (ok, mk) ← release mk
      modifyTable i fun tbl ↦ { tbl with marker := some (if ok then mk else mk.setInvalid) }
    | none => pure ()
  | none => pure ()

def abortTables : List ℕ → Tx Unit
  | [] => pure ()
  | i :: is => do
    abortTable i
    abortTables is

/-- `clear_subdirectory`: a redo skips the steps whose sublogs are gone. -/
def clearSubdirectory : Tx Unit := modify fun t ↦ { t with sublog := [] }

/-- `abort` -/
def abort (clearSubdir : Bool) : Tx Unit := do
  let t ← get
  when t.markers (abortTables (List.range t.tables.length))
  when clearSubdir clearSubdirectory

/-! ## Reserving -/

/-- `~Marker` of a reservation that is replaced. -/
def destroyMarker : Option Marker → Tx Unit
  | some mk => do
    let _ ← release mk
  | none => pure ()

/-- `reserve_version`: reserves the next free version after `highest`; returns the table and the
last version before the reserved one. -/
def reserveVersion : ℕ → TableStats → ℕ → Tx (TableStats × ℕ)
  | 0, _, _ => diverge
  | fuel + 1, tbl, highest => do
    let t ← get
    let path := Key.version tbl.basePath (highest + 1)
    if t.markers then
      if ← check path then reserveVersion fuel tbl (highest + 1)
      else
        let now ← storeTime
        let deadline := now.nowMs + t.cfg.options.markerLeaseMs
        match ← writeAtomic path (.marker t.transactionId (some deadline)) with
        | (.error, _) => reserveVersion fuel tbl highest
        | (.ok, etag) =>
          destroyMarker tbl.marker
          pure ({ tbl with
            marker := some ⟨tbl.basePath, highest + 1, some etag, deadline, true⟩
            markerVersion := highest + 1 }, highest)
        | _ => reserveVersion fuel tbl (highest + 1)
    else
      -- the version is claimed at commit time
      pure ({ tbl with
        marker := some ⟨tbl.basePath, highest + 1, none, 0, false⟩
        markerVersion := highest + 1 }, highest)

/-- `lease_expiring`: the table's lease ends before a commit could be written. -/
def leaseExpiring (tbl : TableStats) : Tx Bool := do
  let t ← get
  match tbl.marker with
  | some mk =>
    if !t.markers || !mk.valid || mk.deadlineMs = 0 then pure false
    else
      let margin := min 500 (t.cfg.options.markerLeaseMs / 4)
      pure (decide (mk.deadlineMs ≤ (← storeTime).latest + margin))
  | none => pure false

/-- `marker_lost`: the reserved version was taken over by another transaction. -/
def markerLost (i : ℕ) (tbl : TableStats) : Tx Bool := do
  match tbl.marker with
  | some mk =>
    match mk.valid, mk.etag with
    | true, some etag =>
      match ← read mk.path with
      | some o =>
        if o.etag ≠ etag then
          modifyTable i fun tbl ↦ { tbl with marker := some mk.setInvalid }
          pure true
        else pure false
      | none => pure false
    | _, _ => pure false
  | none => pure false

/-- `table.marker->release()` -/
def releaseMarker : Option Marker → Tx (Option Marker)
  | some mk => do
    let (_, mk) ← release mk
    pure (some mk)
  | none => pure none

/-- `shift_marker`: gives up the reserved version of table `i` and reserves a later one. The
versions in between are waited for and checked like the markers seen at begin. -/
def shiftMarker (fuel : ℕ) (i : ℕ) : Tx Unit := do
  match (← get).tables[i]? with
  | none => pure ()
  | some tbl => do
    let mk ← releaseMarker tbl.marker
    let (tbl', _) ← reserveVersion fuel { tbl with marker := mk } tbl.markerVersion
    modifyTable i fun _ ↦ tbl'
    modify fun t ↦ t.remember tbl.basePath
      (List.range' (tbl.markerVersion + 1) (tbl'.markerVersion - (tbl.markerVersion + 1)))

end Tx

end LakeVilla

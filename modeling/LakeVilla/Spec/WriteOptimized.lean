import Mathlib.Data.Finset.Lattice.Fold
import Mathlib.Data.Fintype.Basic
import Mathlib.Order.Lattice.Nat
import LakeVilla.Concurrency.Machine

/-!
# The specification of LV[R] and LV[CT]

`LakeVillaWriteOptimized_spec.tla`: markers and sublogs, and dependencies between transactions that
are checked before they are added. `Next` is translated action by action. `tableData` and
`txnOperations`, which no action changes from their initial values, are left out, and so are the
actions that are not part of `Next`.
-/

namespace LakeVilla.WriteOptimized

open Concurrency Function

inductive TxnState
  | idle
  | active
  | committed
  | aborted
  | crashed
  deriving DecidableEq, Repr

inductive LogState
  | empty
  | committed
  deriving DecidableEq, Repr

inductive SublogMode
  | physical
  | logical
  | mixed
  deriving DecidableEq, Repr

/-- `MarkerType` -/
structure Marker (TRANSACTIONS : Type) where
  txnId : TRANSACTIONS
  dependencies : Finset TRANSACTIONS
  timestamp : ℕ

inductive PhysicalAction
  | addFile
  | removeFile
  | readFile
  deriving DecidableEq, Repr

inductive PhysicalCompensation
  | addFile
  | removeFile
  | skip
  deriving DecidableEq, Repr

inductive LogicalAction
  | seek
  | merge
  | bufferOp
  deriving DecidableEq, Repr

inductive LogicalCompensation
  | restore
  | replace
  deriving DecidableEq, Repr

structure PhysicalSublogEntry (TABLES FILES : Type) where
  action : PhysicalAction
  table : TABLES
  file : FILES
  compensation : PhysicalCompensation

structure LogicalSublogEntry (TABLES : Type) where
  action : LogicalAction
  table : TABLES
  compensation : LogicalCompensation

inductive Buffer
  | empty
  | updated
  deriving DecidableEq, Repr

/-- The variables. -/
structure State (TABLES TRANSACTIONS FILES : Type) where
  markers : TABLES → List (Marker TRANSACTIONS)
  markerVersions : TABLES → TRANSACTIONS → ℕ
  physicalSublogs : TRANSACTIONS → List (PhysicalSublogEntry TABLES FILES)
  logicalSublogs : TRANSACTIONS → List (LogicalSublogEntry TABLES)
  sublogMode : TRANSACTIONS → SublogMode
  txnDependencies : TRANSACTIONS → Finset TRANSACTIONS
  txnAccessedTables : TRANSACTIONS → Finset TABLES
  tableVersions : TABLES → ℕ
  tableLogs : TABLES → ℕ → LogState
  txnState : TRANSACTIONS → TxnState
  txnReadVersions : TRANSACTIONS → TABLES → ℕ
  txnWriteVersions : TRANSACTIONS → TABLES → ℕ
  txnBuffer : TRANSACTIONS → Buffer
  crashedTxns : Finset TRANSACTIONS
  conflictCycles : Finset TRANSACTIONS
  retryCount : TRANSACTIONS → ℕ
  crashCount : TRANSACTIONS → ℕ

/-- `MAX_VERSION`, and what `CHOOSE t \in S : TRUE` chooses. -/
structure Constants (TABLES : Type) where
  MAX_VERSION : ℕ
  choose : (S : Finset TABLES) → S.Nonempty → {t // t ∈ S}

variable {TABLES TRANSACTIONS FILES : Type}

/-- `Init` -/
def initial : State TABLES TRANSACTIONS FILES where
  markers _ := []
  markerVersions _ _ := 0
  physicalSublogs _ := []
  logicalSublogs _ := []
  sublogMode _ := .physical
  txnDependencies _ := ∅
  txnAccessedTables _ := ∅
  tableVersions _ := 0
  tableLogs _ _ := .empty
  txnState _ := .idle
  txnReadVersions _ _ := 0
  txnWriteVersions _ _ := 0
  txnBuffer _ := .empty
  crashedTxns := ∅
  conflictCycles := ∅
  retryCount _ := 0
  crashCount _ := 0

variable [DecidableEq TABLES] [DecidableEq TRANSACTIONS]

namespace State

variable (s : State TABLES TRANSACTIONS FILES) (txn : TRANSACTIONS)

/-- The markers without those of a transaction, in the tables it accessed. -/
def freeMarkers : TABLES → List (Marker TRANSACTIONS) := fun t ↦
  if t ∈ s.txnAccessedTables txn then (s.markers t).filter (·.txnId ≠ txn) else s.markers t

/-- The reserved versions without those of a transaction, in the tables it accessed. -/
def freeVersions : TABLES → TRANSACTIONS → ℕ := fun t ↦
  if t ∈ s.txnAccessedTables txn then update (s.markerVersions t) txn 0 else s.markerVersions t

end State

/-! ## Placing markers -/

section PlaceMarker

variable [Fintype TRANSACTIONS]

/-- `writeVersion` of `PlaceMarker`: the next version after the table's and all reserved ones. -/
def nextVersion (s : State TABLES TRANSACTIONS FILES) (table : TABLES) : ℕ :=
  let readVersion := s.tableVersions table
  let maxReserved :=
    if ∃ t, 0 < s.markerVersions table t then Finset.univ.sup (s.markerVersions table)
    else readVersion
  max maxReserved readVersion + 1

omit [DecidableEq TABLES] [DecidableEq TRANSACTIONS] in
/-- The new version is above all reserved ones. -/
theorem reserved_lt_nextVersion {s : State TABLES TRANSACTIONS FILES} {table : TABLES}
    (x : TRANSACTIONS) : s.markerVersions table x < nextVersion s table := by
  rw [nextVersion, Nat.lt_succ_iff]
  refine le_trans ?_ (le_max_left _ _)
  split
  · exact Finset.le_sup (f := s.markerVersions table) (Finset.mem_univ x)
  · next hn => exact le_trans (Nat.le_of_not_lt fun hx ↦ hn ⟨x, hx⟩) (Nat.zero_le _)

def placeMarker (K : Constants TABLES) (txn : TRANSACTIONS) (table : TABLES) :
    GuardedAction (State TABLES TRANSACTIONS FILES) where
  guard s :=
    s.txnState txn = .active ∧ table ∉ s.txnAccessedTables txn ∧ s.markerVersions table txn = 0 ∧
      nextVersion s table ≤ K.MAX_VERSION
  effect s :=
    let hasPreceding := (s.markers table).any (·.txnId ≠ txn)
    { s with
      markerVersions := update s.markerVersions table
        (update (s.markerVersions table) txn (nextVersion s table))
      markers := update s.markers table
        (s.markers table ++ [⟨txn, s.txnDependencies txn, s.tableVersions table⟩])
      txnReadVersions := update s.txnReadVersions txn
        (update (s.txnReadVersions txn) table (s.tableVersions table))
      txnWriteVersions := update s.txnWriteVersions txn
        (update (s.txnWriteVersions txn) table (nextVersion s table))
      txnAccessedTables := update s.txnAccessedTables txn (insert table (s.txnAccessedTables txn))
      sublogMode :=
        if hasPreceding then
          update s.sublogMode txn (if s.sublogMode txn = .physical then .logical else .mixed)
        else s.sublogMode }

end PlaceMarker

/-! ## Sublogs -/

def addPhysicalSublog (txn : TRANSACTIONS) (table : TABLES) (action : PhysicalAction) (file : FILES)
    (comp : PhysicalCompensation) : GuardedAction (State TABLES TRANSACTIONS FILES) where
  guard s :=
    s.txnState txn = .active ∧ table ∈ s.txnAccessedTables txn ∧
      (s.sublogMode txn = .physical ∨ s.sublogMode txn = .mixed)
  effect s :=
    { s with
      physicalSublogs := update s.physicalSublogs txn
        (s.physicalSublogs txn ++ [⟨action, table, file, comp⟩]) }

def addLogicalSublog (txn : TRANSACTIONS) (table : TABLES) (action : LogicalAction)
    (comp : LogicalCompensation) : GuardedAction (State TABLES TRANSACTIONS FILES) where
  guard s :=
    s.txnState txn = .active ∧ table ∈ s.txnAccessedTables txn ∧
      (s.sublogMode txn = .logical ∨ s.sublogMode txn = .mixed)
  effect s :=
    { s with
      logicalSublogs := update s.logicalSublogs txn
        (s.logicalSublogs txn ++ [⟨action, table, comp⟩])
      txnBuffer := update s.txnBuffer txn .updated }

/-! ## Dependencies -/

/-- `newDeps`: the other transactions with a marker in the table. -/
def newDeps (s : State TABLES TRANSACTIONS FILES) (txn : TRANSACTIONS) (table : TABLES) :
    Finset TRANSACTIONS :=
  ((s.markers table).map (·.txnId)).toFinset.erase txn

/-- `wouldCreateCycle` -/
def WouldCreateCycle (s : State TABLES TRANSACTIONS FILES) (txn : TRANSACTIONS) (table : TABLES) :
    Prop :=
  ∃ targetTxn ∈ newDeps s txn table,
    targetTxn ∈ s.txnDependencies txn ∨ txn ∈ s.txnDependencies targetTxn ∨
      ∃ intermediate ∈ s.txnDependencies targetTxn,
        txn ∈ s.txnDependencies intermediate ∨ intermediate = txn

instance (s : State TABLES TRANSACTIONS FILES) (txn : TRANSACTIONS) (table : TABLES) :
    Decidable (WouldCreateCycle s txn table) :=
  inferInstanceAs (Decidable (∃ targetTxn ∈ newDeps s txn table, _))

def updateDependencies (txn : TRANSACTIONS) (table : TABLES) :
    GuardedAction (State TABLES TRANSACTIONS FILES) where
  guard s :=
    s.txnState txn = .active ∧ table ∈ s.txnAccessedTables txn ∧ ¬ WouldCreateCycle s txn table
  effect s :=
    { s with
      txnDependencies := update s.txnDependencies txn
        (s.txnDependencies txn ∪ newDeps s txn table) }

def markerShift (K : Constants TABLES) [Fintype TRANSACTIONS] (txn : TRANSACTIONS) :
    GuardedAction (State TABLES TRANSACTIONS FILES) where
  guard s :=
    s.txnState txn = .active ∧ ∃ _table ∈ s.txnAccessedTables txn, ∃ otherTxn, otherTxn ≠ txn ∧
      otherTxn ∈ s.txnDependencies txn ∧ txn ∈ s.txnDependencies otherTxn
  effect s :=
    { s with
      markers := s.freeMarkers txn
      -- only one of the reserved versions is given back
      markerVersions :=
        if h : (s.txnAccessedTables txn).Nonempty then
          let t := (K.choose _ h).1
          update s.markerVersions t (update (s.markerVersions t) txn 0)
        else s.markerVersions
      txnDependencies := update s.txnDependencies txn ∅
      conflictCycles := insert txn s.conflictCycles
      txnState := update s.txnState txn .aborted }

/-! ## Life cycle -/

def startTransaction (txn : TRANSACTIONS) : GuardedAction (State TABLES TRANSACTIONS FILES) where
  guard s := s.txnState txn = .idle ∧ s.retryCount txn < 3 ∧ s.crashCount txn < 2
  effect s := { s with txnState := update s.txnState txn .active }

def commitTransaction (txn : TRANSACTIONS) : GuardedAction (State TABLES TRANSACTIONS FILES) where
  guard s :=
    s.txnState txn = .active ∧ s.txnAccessedTables txn ≠ ∅ ∧
      (∀ table ∈ s.txnAccessedTables txn, 0 < s.markerVersions table txn) ∧
      ∀ table ∈ s.txnAccessedTables txn,
        s.tableVersions table = s.txnReadVersions txn table ∧
          s.txnWriteVersions txn table = s.txnReadVersions txn table + 1
  effect s :=
    { s with
      tableLogs := fun t ↦
        if t ∈ s.txnAccessedTables txn then
          update (s.tableLogs t) (s.txnWriteVersions txn t) .committed
        else s.tableLogs t
      tableVersions := fun t ↦
        if t ∈ s.txnAccessedTables txn then s.txnWriteVersions txn t else s.tableVersions t
      markers := s.freeMarkers txn
      txnState := update s.txnState txn .committed }

def abortOnCycleDetection (txn : TRANSACTIONS) (table : TABLES) :
    GuardedAction (State TABLES TRANSACTIONS FILES) where
  guard s :=
    s.txnState txn = .active ∧ table ∈ s.txnAccessedTables txn ∧ WouldCreateCycle s txn table ∧
      s.retryCount txn < 3
  effect s :=
    { s with
      physicalSublogs := update s.physicalSublogs txn []
      logicalSublogs := update s.logicalSublogs txn []
      markers := s.freeMarkers txn
      markerVersions := s.freeVersions txn
      txnState := update s.txnState txn .aborted
      retryCount := update s.retryCount txn (s.retryCount txn + 1)
      conflictCycles := insert txn s.conflictCycles }

def abortWhenVersionSpaceExhausted (K : Constants TABLES) [Fintype TABLES] (txn : TRANSACTIONS) :
    GuardedAction (State TABLES TRANSACTIONS FILES) where
  guard s :=
    s.txnState txn = .active ∧ s.txnAccessedTables txn = ∅ ∧
      ∀ table, K.MAX_VERSION ≤ s.tableVersions table
  effect s := { s with txnState := update s.txnState txn .aborted }

def resetTransaction (txn : TRANSACTIONS) : GuardedAction (State TABLES TRANSACTIONS FILES) where
  guard s :=
    s.txnState txn = .committed ∨ (s.txnState txn = .aborted ∧ s.retryCount txn < 3) ∨
      s.txnState txn = .crashed ∧ s.crashCount txn < 2
  effect s :=
    { s with
      txnState := update s.txnState txn .idle
      txnAccessedTables := update s.txnAccessedTables txn ∅
      txnReadVersions := update s.txnReadVersions txn s.tableVersions
      txnWriteVersions := update s.txnWriteVersions txn fun _ ↦ 0
      txnDependencies := update s.txnDependencies txn ∅
      physicalSublogs := update s.physicalSublogs txn []
      logicalSublogs := update s.logicalSublogs txn []
      markers := s.freeMarkers txn
      markerVersions := s.freeVersions txn
      retryCount := update s.retryCount txn
        (if s.txnState txn = .committed then 0 else s.retryCount txn)
      crashCount := update s.crashCount txn
        (if s.txnState txn = .committed then 0 else s.crashCount txn)
      crashedTxns := s.crashedTxns.erase txn
      conflictCycles := s.conflictCycles.erase txn }

def crashTransaction (txn : TRANSACTIONS) : GuardedAction (State TABLES TRANSACTIONS FILES) where
  guard s := s.txnState txn = .active ∧ s.txnAccessedTables txn ≠ ∅ ∧ s.crashCount txn < 2
  effect s :=
    { s with
      txnState := update s.txnState txn .crashed
      crashedTxns := insert txn s.crashedTxns
      crashCount := update s.crashCount txn (s.crashCount txn + 1) }

/-- What both recoveries do: the reserved versions stay. -/
def State.recover (s : State TABLES TRANSACTIONS FILES) (txn : TRANSACTIONS) :
    State TABLES TRANSACTIONS FILES :=
  { s with
    physicalSublogs := update s.physicalSublogs txn []
    logicalSublogs := update s.logicalSublogs txn []
    markers := s.freeMarkers txn
    txnState := update s.txnState txn .aborted
    crashedTxns := s.crashedTxns.erase txn }

def recoverCrashedTransaction (txn cleaner : TRANSACTIONS) :
    GuardedAction (State TABLES TRANSACTIONS FILES) where
  guard s := txn ∈ s.crashedTxns ∧ s.txnState txn = .crashed ∧ s.txnState cleaner = .active
  effect s := s.recover txn

def externalRecovery [Fintype TRANSACTIONS] (txn : TRANSACTIONS) :
    GuardedAction (State TABLES TRANSACTIONS FILES) where
  guard s :=
    txn ∈ s.crashedTxns ∧ s.txnState txn = .crashed ∧
      ∀ t, s.txnState t = .crashed ∨ s.txnState t = .idle ∨ s.txnState t = .committed ∨
        s.txnState t = .aborted
  effect s := s.recover txn

def terminateWhenLimitsExhausted [Fintype TRANSACTIONS] :
    GuardedAction (State TABLES TRANSACTIONS FILES) where
  guard s :=
    ∀ txn, (s.txnState txn = .idle ∨ s.txnState txn = .aborted ∨ s.txnState txn = .committed) ∧
      (3 ≤ s.retryCount txn ∨ 2 ≤ s.crashCount txn)
  effect s := s

/-- The disjuncts of `Next`. -/
inductive Label (TABLES TRANSACTIONS FILES : Type)
  | startTransaction (txn : TRANSACTIONS)
  | placeMarker (txn : TRANSACTIONS) (table : TABLES)
  | addPhysicalSublog (txn : TRANSACTIONS) (table : TABLES) (file : FILES)
  | addLogicalSublog (txn : TRANSACTIONS) (table : TABLES)
  | updateDependencies (txn : TRANSACTIONS) (table : TABLES)
  | markerShift (txn : TRANSACTIONS)
  | commitTransaction (txn : TRANSACTIONS)
  | abortOnCycleDetection (txn : TRANSACTIONS) (table : TABLES)
  | abortWhenVersionSpaceExhausted (txn : TRANSACTIONS)
  | resetTransaction (txn : TRANSACTIONS)
  | crashTransaction (txn : TRANSACTIONS)
  | recoverCrashedTransaction (txn cleaner : TRANSACTIONS)
  | externalRecovery (txn : TRANSACTIONS)
  | terminateWhenLimitsExhausted

/-- `Init` and `Next`. -/
def spec [Fintype TABLES] [Fintype TRANSACTIONS] (K : Constants TABLES) :
    Machine (State TABLES TRANSACTIONS FILES) (Label TABLES TRANSACTIONS FILES) where
  init s := s = initial
  action
    | .startTransaction txn => startTransaction txn
    | .placeMarker txn table => placeMarker K txn table
    | .addPhysicalSublog txn table file => addPhysicalSublog txn table .addFile file .removeFile
    | .addLogicalSublog txn table => addLogicalSublog txn table .seek .restore
    | .updateDependencies txn table => updateDependencies txn table
    | .markerShift txn => markerShift K txn
    | .commitTransaction txn => commitTransaction txn
    | .abortOnCycleDetection txn table => abortOnCycleDetection txn table
    | .abortWhenVersionSpaceExhausted txn => abortWhenVersionSpaceExhausted K txn
    | .resetTransaction txn => resetTransaction txn
    | .crashTransaction txn => crashTransaction txn
    | .recoverCrashedTransaction txn cleaner => recoverCrashedTransaction txn cleaner
    | .externalRecovery txn => externalRecovery txn
    | .terminateWhenLimitsExhausted => terminateWhenLimitsExhausted

/-! ## Properties -/

section Properties

variable (s : State TABLES TRANSACTIONS FILES)

def UniqueMarkerVersions : Prop :=
  ∀ table txn1 txn2, txn1 ≠ txn2 → 0 < s.markerVersions table txn1 →
    0 < s.markerVersions table txn2 → s.markerVersions table txn1 ≠ s.markerVersions table txn2

def NoLostUpdates : Prop :=
  ∀ txn1 txn2 table, txn1 ≠ txn2 → s.txnState txn1 = .committed → s.txnState txn2 = .committed →
    table ∈ s.txnAccessedTables txn1 → table ∈ s.txnAccessedTables txn2 →
      s.txnWriteVersions txn1 table ≠ s.txnWriteVersions txn2 table

def MultiTableRepeatableReads : Prop :=
  ∀ txn, s.txnState txn = .committed → 1 < (s.txnAccessedTables txn).card →
    ∀ table ∈ s.txnAccessedTables txn, ∀ ver,
      s.txnReadVersions txn table + 1 ≤ ver → ver ≤ s.tableVersions table →
      ∀ otherTxn, otherTxn ≠ txn → s.txnState otherTxn = .committed →
        table ∈ s.txnAccessedTables otherTxn → s.txnWriteVersions otherTxn table = ver →
          otherTxn ∈ s.txnDependencies txn ∨ s.txnWriteVersions txn table < ver

def NoDirtyReads : Prop :=
  ∀ txn table, s.txnState txn = .active → table ∈ s.txnAccessedTables txn →
    s.txnReadVersions txn table = 0 ∨
      s.tableLogs table (s.txnReadVersions txn table) = .committed ∨
      ∃ m ∈ s.markers table, m.txnId = txn

/-- `MarkerUniqueness`: at most one marker of a transaction in a table. -/
def MarkerUniqueness : Prop :=
  ∀ table txn, (s.markers table).countP (·.txnId = txn) ≤ 1

end Properties

end LakeVilla.WriteOptimized

import Mathlib.Data.Finset.Card
import Mathlib.Data.Fintype.Basic
import Mathlib.Data.Int.Order.Basic
import LakeVilla.Concurrency.Machine

/-!
# The specification of LV[I]

`LakeVillaReadOptimized_spec.tla`: a global version log and a validation phase that one transaction
at a time enters. The module is translated action by action; a function of the specification is a
function here, `EXCEPT` is `Function.update`, and versions above `MAX_VERSION` are never used.
-/

namespace LakeVilla.ReadOptimized

open Concurrency Function

inductive TxnState
  | idle
  | active
  | validating
  | committed
  | aborted
  deriving DecidableEq, Repr

inductive LogState
  | empty
  | pending
  | committed
  deriving DecidableEq, Repr

/-- The variables; the lock is `none` where the specification has `"NONE"`. -/
structure State (TABLES TRANSACTIONS : Type) where
  globalVersionLog : TABLES → ℕ
  txnState : TRANSACTIONS → TxnState
  txnReadVersions : TRANSACTIONS → TABLES → ℕ
  txnHiddenVersions : TRANSACTIONS → TABLES → ℕ
  txnWriteVersions : TRANSACTIONS → TABLES → ℕ
  txnLogVersions : TRANSACTIONS → TABLES → ℕ
  txnReadSet : TRANSACTIONS → Finset TABLES
  txnWriteSet : TRANSACTIONS → Finset TABLES
  txnSlack : TRANSACTIONS → ℕ
  txnBlindAppend : TRANSACTIONS → Bool
  validationLock : Option TRANSACTIONS
  tableLogs : TABLES → ℕ → LogState
  tableData : TABLES → ℕ → Finset TRANSACTIONS

/-- `VERSIONS` -/
def versions (MAX_VERSION : ℕ) : Finset ℕ := Finset.range (MAX_VERSION + 1)

variable {TABLES TRANSACTIONS : Type}

/-- `Init` -/
def initial : State TABLES TRANSACTIONS where
  globalVersionLog _ := 0
  txnState _ := .idle
  txnReadVersions _ _ := 0
  txnHiddenVersions _ _ := 0
  txnWriteVersions _ _ := 0
  txnLogVersions _ _ := 0
  txnReadSet _ := ∅
  txnWriteSet _ := ∅
  txnSlack _ := 0
  txnBlindAppend _ := false
  validationLock := none
  tableLogs _ _ := .empty
  tableData _ _ := ∅

variable [DecidableEq TABLES] [DecidableEq TRANSACTIONS]

/-! ## Actions -/

def startTransaction (txn : TRANSACTIONS) : GuardedAction (State TABLES TRANSACTIONS) where
  guard s := s.txnState txn = .idle
  effect s :=
    { s with
      txnState := update s.txnState txn .active
      txnReadVersions := update s.txnReadVersions txn s.globalVersionLog
      txnHiddenVersions := update s.txnHiddenVersions txn s.globalVersionLog
      txnLogVersions := update s.txnLogVersions txn s.globalVersionLog }

def readTable (txn : TRANSACTIONS) (table : TABLES) :
    GuardedAction (State TABLES TRANSACTIONS) where
  guard s :=
    s.txnState txn = .active ∧ table ∉ s.txnReadSet txn ∧
      s.txnReadVersions txn table ≤ s.globalVersionLog table
  effect s :=
    { s with
      txnReadSet := update s.txnReadSet txn (insert table (s.txnReadSet txn))
      txnHiddenVersions := update s.txnHiddenVersions txn
        (update (s.txnHiddenVersions txn) table (s.globalVersionLog table)) }

/-- The next version after the hidden one. -/
def proposedWriteVersion (s : State TABLES TRANSACTIONS) (txn : TRANSACTIONS)
    (table : TABLES) : ℕ :=
  s.txnHiddenVersions txn table + 1

def writeTable (MAX_VERSION : ℕ) (txn : TRANSACTIONS) (table : TABLES) :
    GuardedAction (State TABLES TRANSACTIONS) where
  guard s :=
    s.txnState txn = .active ∧ table ∉ s.txnWriteSet txn ∧
      proposedWriteVersion s txn table ≤ MAX_VERSION ∧
      s.globalVersionLog table < proposedWriteVersion s txn table ∧
      s.tableLogs table (proposedWriteVersion s txn table) = .empty
  effect s :=
    { s with
      txnWriteVersions := update s.txnWriteVersions txn
        (update (s.txnWriteVersions txn) table (proposedWriteVersion s txn table))
      txnWriteSet := update s.txnWriteSet txn (insert table (s.txnWriteSet txn))
      tableLogs := update s.tableLogs table
        (update (s.tableLogs table) (proposedWriteVersion s txn table) .pending)
      tableData := update s.tableData table
        (update (s.tableData table) (proposedWriteVersion s txn table) {txn}) }

def enterValidation (txn : TRANSACTIONS) : GuardedAction (State TABLES TRANSACTIONS) where
  guard s :=
    s.txnState txn = .active ∧ s.validationLock = none ∧ s.txnReadSet txn ∪ s.txnWriteSet txn ≠ ∅
  effect s :=
    { s with
      validationLock := some txn
      txnState := update s.txnState txn .validating
      txnLogVersions := update s.txnLogVersions txn s.globalVersionLog
      txnHiddenVersions := update s.txnHiddenVersions txn s.globalVersionLog }

/-- Rules R1 (freshness), R2 (unique write versions) and R3 (no lost updates). -/
def IsCompatible (MAX_VERSION : ℕ) (s : State TABLES TRANSACTIONS) (txn : TRANSACTIONS) : Prop :=
  (∀ table ∈ s.txnReadSet txn,
    ¬ (s.txnReadVersions txn table : ℤ) < s.txnHiddenVersions txn table - s.txnSlack txn) ∧
  (∀ table ∈ s.txnWriteSet txn,
    ¬ s.txnWriteVersions txn table ≤ s.txnHiddenVersions txn table) ∧
  ∀ table ∈ s.txnWriteSet txn,
    let writtenLogs := ((versions MAX_VERSION).filter fun v ↦
      (s.tableLogs table v = .pending ∨ s.tableLogs table v = .committed) ∧
        s.txnLogVersions txn table < v ∧ v < s.txnWriteVersions txn table).card
    ¬ s.txnLogVersions txn table + writtenLogs + 1 ≠ s.txnWriteVersions txn table

instance (MAX_VERSION : ℕ) (s : State TABLES TRANSACTIONS) (txn : TRANSACTIONS) :
    Decidable (IsCompatible MAX_VERSION s txn) :=
  inferInstanceAs (Decidable (_ ∧ _ ∧ _))

/-- The log of every table in the write set with `l` at the write version. -/
def State.mark (s : State TABLES TRANSACTIONS) (txn : TRANSACTIONS) (l : LogState) :
    TABLES → ℕ → LogState := fun t ↦
  if t ∈ s.txnWriteSet txn then update (s.tableLogs t) (s.txnWriteVersions txn t) l
  else s.tableLogs t

section Mark

omit [DecidableEq TRANSACTIONS]

variable {s : State TABLES TRANSACTIONS} {txn : TRANSACTIONS} {table : TABLES} {l : LogState}

theorem State.mark_of_mem (ht : table ∈ s.txnWriteSet txn) :
    s.mark txn l table (s.txnWriteVersions txn table) = l := by
  rw [State.mark, if_pos ht, update_self]

theorem State.mark_of_notMem (ht : table ∉ s.txnWriteSet txn) :
    s.mark txn l table = s.tableLogs table := by
  rw [State.mark, if_neg ht]

theorem State.mark_of_ne {v : ℕ} (hv : v ≠ s.txnWriteVersions txn table) :
    s.mark txn l table v = s.tableLogs table v := by
  rw [State.mark]
  split
  · rw [update_of_ne hv]
  · rfl

end Mark

def commitTransaction (MAX_VERSION : ℕ) (txn : TRANSACTIONS) :
    GuardedAction (State TABLES TRANSACTIONS) where
  guard s :=
    s.txnState txn = .validating ∧ s.validationLock = some txn ∧ IsCompatible MAX_VERSION s txn
  effect s :=
    { s with
      globalVersionLog := fun t ↦
        if t ∈ s.txnWriteSet txn then s.txnWriteVersions txn t else s.globalVersionLog t
      tableLogs := s.mark txn .committed
      txnState := update s.txnState txn .committed
      validationLock := none }

def abortTransaction (MAX_VERSION : ℕ) (txn : TRANSACTIONS) :
    GuardedAction (State TABLES TRANSACTIONS) where
  guard s :=
    s.txnState txn = .validating ∧ s.validationLock = some txn ∧ ¬ IsCompatible MAX_VERSION s txn
  effect s :=
    { s with
      tableLogs := s.mark txn .empty
      tableData := fun t ↦
        if t ∈ s.txnWriteSet txn then update (s.tableData t) (s.txnWriteVersions txn t) ∅
        else s.tableData t
      txnState := update s.txnState txn .aborted
      validationLock := none }

def blindAppendCommit (txn : TRANSACTIONS) : GuardedAction (State TABLES TRANSACTIONS) where
  guard s :=
    s.txnState txn = .validating ∧ s.validationLock = some txn ∧ s.txnBlindAppend txn = true ∧
      s.txnReadSet txn = ∅
  effect s :=
    { s with
      globalVersionLog := fun t ↦
        if t ∈ s.txnWriteSet txn then max (s.globalVersionLog t) (s.txnWriteVersions txn t)
        else s.globalVersionLog t
      tableLogs := s.mark txn .committed
      txnState := update s.txnState txn .committed
      validationLock := none }

def resetTransaction (txn : TRANSACTIONS) : GuardedAction (State TABLES TRANSACTIONS) where
  guard s := s.txnState txn = .committed ∨ s.txnState txn = .aborted
  effect s :=
    { s with
      txnState := update s.txnState txn .idle
      txnReadSet := update s.txnReadSet txn ∅
      txnWriteSet := update s.txnWriteSet txn ∅
      txnReadVersions := update s.txnReadVersions txn fun _ ↦ 0
      txnHiddenVersions := update s.txnHiddenVersions txn fun _ ↦ 0
      txnWriteVersions := update s.txnWriteVersions txn fun _ ↦ 0
      txnLogVersions := update s.txnLogVersions txn fun _ ↦ 0
      txnSlack := update s.txnSlack txn 0
      txnBlindAppend := update s.txnBlindAppend txn false }

def commitIdleTransaction (txn : TRANSACTIONS) : GuardedAction (State TABLES TRANSACTIONS) where
  guard s := s.txnState txn = .idle ∧ s.txnReadSet txn = ∅ ∧ s.txnWriteSet txn = ∅
  effect s := { s with txnState := update s.txnState txn .committed }

def commitReadOnlyTransaction (txn : TRANSACTIONS) : GuardedAction (State TABLES TRANSACTIONS) where
  guard s :=
    s.txnState txn = .validating ∧ s.validationLock = some txn ∧ s.txnWriteSet txn = ∅ ∧
      s.txnReadSet txn ≠ ∅
  effect s :=
    { s with
      txnState := update s.txnState txn .committed
      validationLock := none }

def commitEmptyActiveTransaction (txn : TRANSACTIONS) :
    GuardedAction (State TABLES TRANSACTIONS) where
  guard s := s.txnState txn = .active ∧ s.txnReadSet txn = ∅ ∧ s.txnWriteSet txn = ∅
  effect s := { s with txnState := update s.txnState txn .committed }

/-- The disjuncts of `Next`. -/
inductive Label (TABLES TRANSACTIONS : Type)
  | startTransaction (txn : TRANSACTIONS)
  | readTable (txn : TRANSACTIONS) (table : TABLES)
  | writeTable (txn : TRANSACTIONS) (table : TABLES)
  | enterValidation (txn : TRANSACTIONS)
  | commitTransaction (txn : TRANSACTIONS)
  | abortTransaction (txn : TRANSACTIONS)
  | blindAppendCommit (txn : TRANSACTIONS)
  | resetTransaction (txn : TRANSACTIONS)
  | commitIdleTransaction (txn : TRANSACTIONS)
  | commitReadOnlyTransaction (txn : TRANSACTIONS)
  | commitEmptyActiveTransaction (txn : TRANSACTIONS)

/-- `Init` and `Next`. -/
def spec (MAX_VERSION : ℕ) : Machine (State TABLES TRANSACTIONS) (Label TABLES TRANSACTIONS) where
  init s := s = initial
  action
    | .startTransaction txn => startTransaction txn
    | .readTable txn table => readTable txn table
    | .writeTable txn table => writeTable MAX_VERSION txn table
    | .enterValidation txn => enterValidation txn
    | .commitTransaction txn => commitTransaction MAX_VERSION txn
    | .abortTransaction txn => abortTransaction MAX_VERSION txn
    | .blindAppendCommit txn => blindAppendCommit txn
    | .resetTransaction txn => resetTransaction txn
    | .commitIdleTransaction txn => commitIdleTransaction txn
    | .commitReadOnlyTransaction txn => commitReadOnlyTransaction txn
    | .commitEmptyActiveTransaction txn => commitEmptyActiveTransaction txn

/-! ## Properties -/

/-- `R2_UniqueVersions`: each write version is unique. -/
def R2UniqueVersions (MAX_VERSION : ℕ) (s : State TABLES TRANSACTIONS) : Prop :=
  ∀ table, ∀ version ∈ versions MAX_VERSION, (s.tableData table version).card ≤ 1

/-- `R3_NoLostUpdates`: the write version accounts for all committed logs since validation. -/
def R3NoLostUpdates (MAX_VERSION : ℕ) (s : State TABLES TRANSACTIONS) : Prop :=
  ∀ txn, s.txnState txn = .committed → ∀ table ∈ s.txnWriteSet txn,
    let writtenLogs := ((versions MAX_VERSION).filter fun v ↦
      s.tableLogs table v = .committed ∧ s.txnLogVersions txn table < v ∧
        v < s.txnWriteVersions txn table).card
    s.txnLogVersions txn table + writtenLogs + 1 = s.txnWriteVersions txn table

def MonotonicVersionLog (MAX_VERSION : ℕ) (s : State TABLES TRANSACTIONS) : Prop :=
  ∀ table, ∀ version ∈ versions MAX_VERSION,
    s.tableLogs table version = .committed → version ≤ s.globalVersionLog table

def NoDirtyReads (s : State TABLES TRANSACTIONS) : Prop :=
  ∀ txn, s.txnState txn = .committed ∨ s.txnState txn = .aborted → ∀ table ∈ s.txnReadSet txn,
    s.txnReadVersions txn table = 0 ∨
      s.tableLogs table (s.txnReadVersions txn table) = .committed

def AtomicCommit (s : State TABLES TRANSACTIONS) : Prop :=
  ∀ txn, s.txnState txn = .committed → ∀ table ∈ s.txnWriteSet txn,
    s.tableLogs table (s.txnWriteVersions txn table) = .committed

end LakeVilla.ReadOptimized

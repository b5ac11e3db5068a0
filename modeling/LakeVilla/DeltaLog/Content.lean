import LakeVilla.Data.Rows

/-!
# What the shared objects contain

The contents of a version of a table's `_delta_log/`, of the global log and of its lock file, as
far as some function of LakeVilla reads them back. A version is either a *running marker* (a
version reserved by a transaction until a deadline) or a commit: a `commitInfo` line and actions.
-/

namespace LakeVilla

/-- An action of a commit that changes the table's files. -/
inductive Action
  | add (file : DataFile) (size : ℤ)
  | remove (file : DataFile) (size : ℤ)
  deriving DecidableEq, Repr

namespace Action

def file : Action → DataFile
  | add f _ => f
  | remove f _ => f

def isRemove : Action → Bool
  | add _ _ => false
  | remove _ _ => true

/-- The files that some actions remove. -/
def removed (as : List Action) : List DataFile := (as.filter (·.isRemove)).map (·.file)

/-- The files that some actions add. -/
def added (as : List Action) : List DataFile := (as.filter (!·.isRemove)).map (·.file)

end Action

/-- A commit of a table. -/
structure Commit where
  /-- `commitInfo.txnId`; `none` for the constant of `empty_commit` and for other engines -/
  txnId : Option TxnId
  /-- `commitInfo.engineInfo` starts with "LHTransactions" -/
  lakeVilla : Bool
  actions : List Action
  deriving DecidableEq, Repr

/-- The files a commit removes. -/
def Commit.removes (c : Commit) : List DataFile := Action.removed c.actions

/-- The content of the lock file: unique for each attempt to acquire the lock. -/
structure Token where
  transactionId : TxnId
  random : ℕ
  deriving DecidableEq, Repr

inductive Content
  /-- a running marker: `marker.txnid`, `marker.deadline` -/
  | marker (txnid : TxnId) (deadline : Option ℤ)
  | commit (c : Commit)
  /-- the global log: lines "table version" -/
  | globalLog (lines : List (Table × ℕ))
  | lock (token : Token)
  deriving DecidableEq, Repr

/-- `Marker::empty_commit`: releases a version or takes it over. -/
def emptyCommit : Content := .commit ⟨none, true, []⟩

end LakeVilla

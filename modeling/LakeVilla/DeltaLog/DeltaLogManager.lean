import LakeVilla.Data.AssocList
import LakeVilla.DeltaLog.Content

/-!
# The snapshot of a table

`DeltaLogManager` keeps, for every file the log mentions, the newest action. Actions of the log
arrive in any order and are merged by their version (`registerAction`); the operations of the
transaction itself are merged on top of them without a version (`registerOperation`).

The field `versions` is a history variable: the log versions whose actions were merged. No function
branches on it.
-/

namespace LakeVilla

/-- `DLOperation` -/
inductive DLOperation
  | none
  | add
  | delete
  | metadata
  | marker
  deriving DecidableEq, Repr

structure DeltaLogEntry where
  operation : DLOperation
  /-- size in bytes (-1 if unknown) -/
  size : ℤ := -1
  /-- log version of the action (-1 if unknown) -/
  version : ℤ := -1
  deriving DecidableEq, Repr

namespace DeltaLogEntry

/-- `DeltaLogEntry::update`: without `overwrite` a remove beats an add. -/
def update (e : DeltaLogEntry) (op : DLOperation) (overwrite : Bool) : DeltaLogEntry :=
  if overwrite then { e with operation := op }
  else
    match e.operation, op with
    | .add, .delete => { e with operation := .delete }
    | .none, .add => { e with operation := .add }
    | .none, .delete => { e with operation := .delete }
    | .none, .metadata => { e with operation := .metadata }
    | _, _ => e

/-- `DeltaLogEntry::from_action` -/
def fromAction (v : ℕ) : Action → DeltaLogEntry
  | .add _ size => ⟨.add, size, v⟩
  | .remove _ size => ⟨.delete, size, v⟩

end DeltaLogEntry

structure DeltaLogManager where
  files : List (DataFile × DeltaLogEntry) := []
  /-- history: the versions merged into `files` -/
  versions : List ℕ := []
  deriving DecidableEq, Repr

namespace DeltaLogManager

def find (m : DeltaLogManager) (file : DataFile) : Option DeltaLogEntry := m.files.lookup file

/-- The merge of two actions of the log for one file: the higher version wins, and a remove wins
over an add of the same version. -/
def mergeAction (current entry : DeltaLogEntry) : DeltaLogEntry :=
  if entry.version < current.version ∨
      (entry.version = current.version ∧
        (current.operation = .delete ∨ entry.operation ≠ .delete)) then current
  else if entry.operation = .delete ∧ entry.size < 0 ∧ current.operation = .add then
    -- a remove without extended file metadata keeps that of the add
    { entry with size := current.size }
  else entry

/-- `register_action` -/
def registerAction (m : DeltaLogManager) (file : DataFile) (entry : DeltaLogEntry) :
    DeltaLogManager :=
  { m with
    files := AssocList.insertOrAssign m.files file <|
      match m.find file with
      | some current => mergeAction current entry
      | none => entry }

/-- `register_operation`: inserts the entry, or merges the operation into an existing one. -/
def registerOperation (m : DeltaLogManager) (op : DLOperation) (file : DataFile)
    (entry : DeltaLogEntry) (overwrite : Bool) : DeltaLogManager :=
  { m with
    files := AssocList.insertOrAssign m.files file <|
      match m.find file with
      | some current => current.update op overwrite
      | none => entry }

/-- The actions of one version (`apply_log_action` for each line of the commit). -/
def applyActions (m : DeltaLogManager) (v : ℕ) (actions : List Action) : DeltaLogManager :=
  { actions.foldl (fun m a ↦ m.registerAction a.file (.fromAction v a)) m with
    versions := v :: m.versions }

@[simp] theorem applyActions_versions (m : DeltaLogManager) (v : ℕ) (actions : List Action) :
    (m.applyActions v actions).versions = v :: m.versions := rfl

/-- A file is live when its newest action adds it. -/
def Live (m : DeltaLogManager) (file : DataFile) : Prop :=
  ∃ e, m.find file = some e ∧ e.operation = .add

instance (m : DeltaLogManager) (file : DataFile) : Decidable (m.Live file) :=
  match h : m.find file with
  | some e =>
    if he : e.operation = .add then isTrue ⟨e, h, he⟩
    else isFalse fun ⟨e', h', he'⟩ ↦ he (by rw [h] at h'; exact Option.some.inj h' ▸ he')
  | none => isFalse fun ⟨_, h', _⟩ ↦ by rw [h] at h'; cases h'

/-- `get_list` -/
def getList (m : DeltaLogManager) : List DataFile :=
  (m.files.filter fun e ↦ e.2.operation = .add).map (·.1)

/-- `get_size` -/
def getSize (m : DeltaLogManager) (file : DataFile) : ℤ :=
  match m.find file with
  | some e => e.size
  | none => -1

end DeltaLogManager

end LakeVilla

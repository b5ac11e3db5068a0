import LakeVilla.DeltaLog.DeltaLogManager

/-!
# Everything that a checkpoint keeps of a log

The snapshot of a transaction (`LakeVilla.DeltaLogManager`) keeps of a file what commits need: its
operation, size and version. A checkpoint stores the rest of the actions as well, and the actions
that are about no file. `Checkpoint.DeltaLogManager` is the class with these fields; its `snapshot`
is the one that transactions work with.

A line of a version is a JSON object with one or more actions. `apply_log_action` turns it into
calls of the manager (`LogLine.registrations`), each under the manager's mutex: the calls for
different versions may interleave.
-/

namespace LakeVilla.Checkpoint

/-! ## Actions -/

/-- The application of a `txn` action. Only equality of names is ever used. -/
abbrev AppId := ℕ

/-- The domain of a `domainMetadata` action. Only equality of names is ever used. -/
abbrev Domain := ℕ

/-- A JSON object whose members are strings or null. -/
abbrev JsonObject := List (Text × Option Text)

/-- The `protocol` action, with the fields of the checkpoint schema; `none` also stands for a value
of another type. -/
structure Protocol where
  minReaderVersion : Option ℤ := none
  minWriterVersion : Option ℤ := none
  readerFeatures : Option (List (Option Text)) := none
  writerFeatures : Option (List (Option Text)) := none
  deriving DecidableEq, Repr

structure Format where
  provider : Option Text := none
  options : Option JsonObject := none
  deriving DecidableEq, Repr

/-- The `metaData` action, with the fields of the checkpoint schema. -/
structure Metadata where
  id : Option Text := none
  name : Option Text := none
  description : Option Text := none
  format : Option Format := none
  schemaString : Option Text := none
  partitionColumns : Option (List (Option Text)) := none
  configuration : Option JsonObject := none
  createdTime : Option ℤ := none
  deriving DecidableEq, Repr

structure TxnAction where
  appId : Option AppId
  version : Option ℤ
  lastUpdated : Option ℤ := none
  deriving DecidableEq, Repr

structure DomainMetadataAction where
  domain : Option Domain
  configuration : Option Text := none
  removed : Bool := false
  deriving DecidableEq, Repr

structure AddAction where
  path : Option DataFile
  stats : Option Text := none
  size : Option ℤ := none
  modificationTime : Option ℤ := none
  partitionValues : Option JsonObject := none
  tags : Option JsonObject := none
  /-- there is a deletion vector -/
  deletionVector : Bool := false
  deriving DecidableEq, Repr

structure RemoveAction where
  path : Option DataFile
  size : Option ℤ := none
  deletionTimestamp : Option ℤ := none
  partitionValues : Option JsonObject := none
  tags : Option JsonObject := none
  deriving DecidableEq, Repr

/-- A line of a version. -/
structure LogLine where
  metaData : Option Metadata := none
  protocol : Option Protocol := none
  txn : Option TxnAction := none
  domainMetadata : Option DomainMetadataAction := none
  add : Option AddAction := none
  remove : Option RemoveAction := none
  deriving DecidableEq, Repr

/-! ## The manager -/

/-- `DeltaLogEntry` of an action of the log. The parsed statistics are a function of `stats`. -/
structure FileEntry extends LakeVilla.DeltaLogEntry where
  /-- raw stats JSON ("" if unknown) -/
  stats : Text := []
  deletionTimestamp : ℤ := 0
  /-- -1 if unknown -/
  modificationTime : ℤ := -1
  partitionValues : Option JsonObject := none
  tags : Option JsonObject := none
  deriving DecidableEq, Repr

namespace FileEntry

/-- `from_action` of an add; the version is set when the action is registered. -/
def ofAdd (a : AddAction) : FileEntry where
  operation := .add
  size := a.size.getD (-1)
  stats := a.stats.getD []
  modificationTime := a.modificationTime.getD (-1)
  partitionValues := a.partitionValues
  tags := a.tags

/-- `from_action` of a remove -/
def ofRemove (a : RemoveAction) : FileEntry where
  operation := .delete
  size := a.size.getD (-1)
  deletionTimestamp := a.deletionTimestamp.getD 0
  partitionValues := a.partitionValues
  tags := a.tags

/-- The merge of `register_action`: the higher version wins, and a remove wins over an add of the
same version. -/
def mergeAction (current entry : FileEntry) : FileEntry :=
  if entry.version < current.version ∨
      (entry.version = current.version ∧
        (current.operation = .delete ∨ entry.operation ≠ .delete)) then current
  else if entry.operation = .delete ∧ entry.size < 0 ∧ current.operation = .add then
    -- a remove without extended file metadata keeps that of the add
    { entry with size := current.size, partitionValues := current.partitionValues }
  else entry

end FileEntry

/-- `CheckpointTxn` without the application's name. -/
structure CheckpointTxn where
  version : ℤ
  /-- -1: absent -/
  lastUpdated : ℤ
  deriving DecidableEq, Repr

/-- What a checkpoint stores of `DeltaLogManager`. Protocol, metaData, application transactions and
domains are kept with the version of their action; `none` is the empty text of version -1. -/
structure DeltaLogManager where
  files : List (DataFile × FileEntry) := []
  protocol : Option (ℤ × Protocol) := none
  metadata : Option (ℤ × Metadata) := none
  /-- why a checkpoint would be incomplete ("" if it would not) -/
  unsupported : Text := []
  transactions : List (AppId × (ℤ × CheckpointTxn)) := []
  /-- without a configuration: the domain was removed -/
  domains : List (Domain × (ℤ × Option Text)) := []
  deriving DecidableEq, Repr

/-- A value is replaced by one of the same or a later version. -/
def newer {α : Type} (version : ℤ) (x : α) : Option (ℤ × α) → Option (ℤ × α)
  | some (u, y) => if u ≤ version then some (version, x) else some (u, y)
  | none => some (version, x)

/-- The same for the entry of a key. -/
def assignNewer {α : Type} (l : List (ℕ × (ℤ × α))) (key : ℕ) (x : α) (version : ℤ) :
    List (ℕ × (ℤ × α)) :=
  match l.lookup key with
  | some (u, _) => if version < u then l else AssocList.insertOrAssign l key (version, x)
  | none => AssocList.insertOrAssign l key (version, x)

namespace DeltaLogManager

/-- `register_action` -/
def registerAction (m : DeltaLogManager) (path : DataFile) (entry : FileEntry) : DeltaLogManager :=
  { m with
    files := AssocList.insertOrAssign m.files path <|
      match m.files.lookup path with
      | some current => current.mergeAction entry
      | none => entry }

def setProtocol (m : DeltaLogManager) (protocol : Protocol) (version : ℤ) : DeltaLogManager :=
  { m with protocol := newer version protocol m.protocol }

def setMetadata (m : DeltaLogManager) (metadata : Metadata) (version : ℤ) : DeltaLogManager :=
  { m with metadata := newer version metadata m.metadata }

/-- The first reason is kept. -/
def markUnsupported (m : DeltaLogManager) (reason : Text) : DeltaLogManager :=
  { m with unsupported := if m.unsupported.isEmpty then reason else m.unsupported }

def setTransaction (m : DeltaLogManager) (appId : AppId) (txn : CheckpointTxn) (version : ℤ) :
    DeltaLogManager :=
  { m with transactions := assignNewer m.transactions appId txn version }

def setDomainMetadata (m : DeltaLogManager) (domain : Domain) (configuration : Option Text)
    (version : ℤ) : DeltaLogManager :=
  { m with domains := assignNewer m.domains domain configuration version }

/-- The snapshot that transactions work with. -/
def snapshot (m : DeltaLogManager) : List (DataFile × LakeVilla.DeltaLogEntry) :=
  m.files.map fun e ↦ (e.1, e.2.toDeltaLogEntry)

end DeltaLogManager

/-! ## Applying a log -/

/-- A call that registers an action of some version. -/
inductive Registration
  | metadata (metadata : Metadata)
  | protocol (protocol : Protocol)
  | transaction (appId : AppId) (txn : CheckpointTxn)
  | domain (domain : Domain) (configuration : Option Text)
  | add (path : DataFile) (entry : FileEntry)
  | remove (path : DataFile) (entry : FileEntry)
  | unsupported (reason : Text)
  deriving DecidableEq, Repr

def TxnAction.registration (txn : TxnAction) : Registration :=
  match txn.appId, txn.version with
  | some appId, some version => .transaction appId ⟨version, txn.lastUpdated.getD (-1)⟩
  | _, _ => .unsupported "invalid txn action".toList

def DomainMetadataAction.registration (a : DomainMetadataAction) : Registration :=
  match a.domain with
  | some domain => .domain domain (if a.removed then none else some (a.configuration.getD []))
  | none => .unsupported "invalid domainMetadata action".toList

def AddAction.registrations (a : AddAction) : List Registration :=
  match a.path with
  | some path =>
    (if a.deletionVector then [.unsupported "deletion vectors".toList] else []) ++
      [.add path (.ofAdd a)]
  | none => []

def RemoveAction.registrations (a : RemoveAction) : List Registration :=
  match a.path with
  | some path => [.remove path (.ofRemove a)]
  | none => []

/-- `apply_log_action`: the calls that a line leads to. -/
def LogLine.registrations (line : LogLine) : List Registration :=
  line.metaData.toList.map .metadata ++ line.protocol.toList.map .protocol ++
    line.txn.toList.map (·.registration) ++ line.domainMetadata.toList.map (·.registration) ++
    line.add.toList.flatMap (·.registrations) ++ line.remove.toList.flatMap (·.registrations)

/-- One call for an action of version `e.1`. -/
def DeltaLogManager.perform (m : DeltaLogManager) (e : ℤ × Registration) : DeltaLogManager :=
  match e.2 with
  | .metadata metadata => m.setMetadata metadata e.1
  | .protocol protocol => m.setProtocol protocol e.1
  | .transaction appId txn => m.setTransaction appId txn e.1
  | .domain domain configuration => m.setDomainMetadata domain configuration e.1
  | .add path entry => m.registerAction path { entry with operation := .add, version := e.1 }
  | .remove path entry => m.registerAction path { entry with operation := .delete, version := e.1 }
  | .unsupported reason => m.markUnsupported reason

def DeltaLogManager.performAll (m : DeltaLogManager) (es : List (ℤ × Registration)) :
    DeltaLogManager := es.foldl perform m

/-- The calls for one version. -/
def versionCalls (version : ℤ) (lines : List LogLine) : List (ℤ × Registration) :=
  (lines.flatMap (·.registrations)).map (Prod.mk version)

/-- The calls for the versions from `first` on. -/
def logCalls : ℤ → List (List LogLine) → List (ℤ × Registration)
  | _, [] => []
  | first, lines :: log => versionCalls first lines ++ logCalls (first + 1) log

/-! ## The snapshot of a transaction -/

theorem FileEntry.mergeAction_toDeltaLogEntry (current entry : FileEntry) :
    (current.mergeAction entry).toDeltaLogEntry =
      LakeVilla.DeltaLogManager.mergeAction current.toDeltaLogEntry entry.toDeltaLogEntry := by
  unfold FileEntry.mergeAction LakeVilla.DeltaLogManager.mergeAction
  split
  · rfl
  · split <;> rfl

/-- Registering an action does to the snapshot what it does in the model of transactions. -/
theorem DeltaLogManager.registerAction_snapshot (m : DeltaLogManager) (path : DataFile)
    (entry : FileEntry) (vs : List ℕ) :
    (m.registerAction path entry).snapshot =
      (LakeVilla.DeltaLogManager.registerAction ⟨m.snapshot, vs⟩ path
        entry.toDeltaLogEntry).files := by
  have hlookup : m.snapshot.lookup path = (m.files.lookup path).map (·.toDeltaLogEntry) :=
    AssocList.lookup_map m.files path
  simp only [DeltaLogManager.registerAction, snapshot, LakeVilla.DeltaLogManager.registerAction,
    LakeVilla.DeltaLogManager.find] at hlookup ⊢
  rw [hlookup, AssocList.map_insertOrAssign]
  cases m.files.lookup path with
  | none => rfl
  | some current => simp only [Option.map_some, FileEntry.mergeAction_toDeltaLogEntry]

end LakeVilla.Checkpoint

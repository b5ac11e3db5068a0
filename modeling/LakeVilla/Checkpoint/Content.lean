import LakeVilla.Checkpoint.Actions

/-!
# The content of a checkpoint

`write_checkpoint` collects the content of a checkpoint from a snapshot, `generateCheckpoint` makes
it into rows of the checkpoint schema, `readDLCheckpointContent` reads the rows, and
`parse_checkpoint` registers them as actions of the checkpoint's version. A row is kept here as the
record of its non-null columns: Parquet and Arrow give it back as it was written.

Removed domains, and the tombstones of files that were removed long ago, are not written.
-/

namespace LakeVilla.Checkpoint

/-! ## Protocols that LakeVilla can checkpoint -/

/-- Reader features that do not change the content of a checkpoint. -/
def readerFeatures : List Text :=
  ["columnMapping", "timestampNtz", "typeWidening", "typeWidening-preview",
    "vacuumProtocolCheck"].map String.toList

def writerFeatures : List Text :=
  ["appendOnly", "invariants", "checkConstraints", "changeDataFeed", "generatedColumns",
    "columnMapping", "identityColumns", "timestampNtz", "domainMetadata", "icebergCompatV1",
    "icebergCompatV2", "typeWidening", "typeWidening-preview", "vacuumProtocolCheck",
    "allowColumnDefaults"].map String.toList

/-- The first feature that is not known ("?" if it is not a string). -/
def unknownFeature (kind : Text) (known : List Text) (features : Option (List (Option Text))) :
    Text :=
  match (features.getD []).find? fun f ↦ f.all fun name ↦ !known.contains name with
  | some f => kind ++ " feature ".toList ++ f.getD "?".toList
  | none => []

/-- `checkpoint_blocker`: why a table with this protocol gets no checkpoint ("" if it gets one). -/
def checkpointBlocker (p : Protocol) : Text :=
  if 3 < p.minReaderVersion.getD 1 ∨ 7 < p.minWriterVersion.getD 1 then
    "an unknown protocol version".toList
  else
    let reader := unknownFeature "the reader".toList readerFeatures p.readerFeatures
    if reader.isEmpty then unknownFeature "the writer".toList writerFeatures p.writerFeatures
    else reader

/-! ## Collecting the content -/

structure CheckpointEntry where
  path : DataFile
  stats : Text := []
  size : ℤ := -1
  modificationTime : ℤ := -1
  partitionValues : Option JsonObject := none
  tags : Option JsonObject := none
  deriving DecidableEq, Repr

structure CheckpointRemove where
  path : DataFile
  deletionTimestamp : ℤ := 0
  size : ℤ := -1
  partitionValues : Option JsonObject := none
  deriving DecidableEq, Repr

structure CheckpointContent where
  adds : List CheckpointEntry := []
  removes : List CheckpointRemove := []
  txns : List (AppId × CheckpointTxn) := []
  domains : List (Domain × Text) := []
  protocol : Option Protocol := none
  metadata : Option Metadata := none
  deriving DecidableEq, Repr

namespace DeltaLogManager

/-- `get_entries`, as far as a checkpoint takes it -/
def getEntries (m : DeltaLogManager) : List CheckpointEntry :=
  m.files.filterMap fun e ↦
    if e.2.operation = .add then
      some ⟨e.1, e.2.stats, e.2.size, e.2.modificationTime, e.2.partitionValues, e.2.tags⟩
    else none

/-- `get_tombstones`, without the files removed before `retentionStart` -/
def getTombstones (m : DeltaLogManager) (retentionStart : ℤ) : List CheckpointRemove :=
  m.files.filterMap fun e ↦
    if e.2.operation = .delete ∧ retentionStart ≤ e.2.deletionTimestamp then
      some ⟨e.1, e.2.deletionTimestamp, e.2.size, e.2.partitionValues⟩
    else none

/-- `get_transactions` -/
def getTransactions (m : DeltaLogManager) : List (AppId × CheckpointTxn) :=
  m.transactions.map fun e ↦ (e.1, e.2.2)

/-- `get_domain_metadata` -/
def getDomainMetadata (m : DeltaLogManager) : List (Domain × Text) :=
  m.domains.filterMap fun e ↦ e.2.2.map (Prod.mk e.1)

/-- The first part of `write_checkpoint`: the content of a checkpoint of a snapshot, `none` if the
table cannot be checkpointed. `retentionStart` is the clock less the table's
`delta.deletedFileRetentionDuration`. -/
def checkpointContent (m : DeltaLogManager) (retentionStart : ℤ) : Option CheckpointContent :=
  if !m.unsupported.isEmpty then none
  else
    match m.protocol, m.metadata with
    | some (_, protocol), some (_, metadata) =>
      if !(checkpointBlocker protocol).isEmpty then none
      else
        some
          { adds := m.getEntries
            removes := m.getTombstones retentionStart
            txns := m.getTransactions
            domains := m.getDomainMetadata
            protocol := some protocol
            metadata := some metadata }
    | _, _ => none

end DeltaLogManager

/-! ## Rows -/

/-- A row of a checkpoint: one action. -/
inductive CheckpointRow
  | txn (appId : AppId) (version : ℤ) (lastUpdated : Option ℤ)
  | add (path : DataFile) (partitionValues : JsonObject) (size modificationTime : ℤ)
    (stats : Option Text) (tags : Option JsonObject)
  /-- `extended`: with `extendedFileMetadata`, partition values and size -/
  | remove (path : DataFile) (deletionTimestamp : ℤ) (extended : Option (JsonObject × ℤ))
  | metaData (metadata : Metadata)
  | protocol (protocol : Protocol)
  | domainMetadata (domain : Domain) (configuration : Text)
  deriving DecidableEq, Repr

def CheckpointEntry.row (now : ℤ) (e : CheckpointEntry) : CheckpointRow :=
  .add e.path (e.partitionValues.getD []) (if e.size < 0 then 0 else e.size)
    (if e.modificationTime < 0 then now else e.modificationTime)
    (if e.stats.isEmpty then none else some e.stats) e.tags

def CheckpointRemove.row (e : CheckpointRemove) : CheckpointRow :=
  .remove e.path e.deletionTimestamp
    (if 0 ≤ e.size then some (e.partitionValues.getD [], e.size) else none)

def CheckpointTxn.row (appId : AppId) (txn : CheckpointTxn) : CheckpointRow :=
  .txn appId txn.version (if 0 ≤ txn.lastUpdated then some txn.lastUpdated else none)

/-- `generateCheckpoint` at time `now`; protocol and metaData are required. -/
def generateCheckpoint (now : ℤ) (content : CheckpointContent) : Option (List CheckpointRow) := do
  let protocol ← content.protocol
  let metadata ← content.metadata
  return [.protocol protocol, .metaData metadata] ++ content.txns.map (fun e ↦ e.2.row e.1) ++
    content.domains.map (fun e ↦ .domainMetadata e.1 e.2) ++ content.removes.map (·.row) ++
    content.adds.map (·.row now)

namespace CheckpointRow

def entry : CheckpointRow → Option CheckpointEntry
  | add path partitionValues size modificationTime stats tags =>
    some ⟨path, stats.getD [], size, modificationTime, some partitionValues, tags⟩
  | _ => none

def tombstone : CheckpointRow → Option CheckpointRemove
  | remove path deletionTimestamp extended =>
    some ⟨path, deletionTimestamp, (extended.map (·.2)).getD (-1), extended.map (·.1)⟩
  | _ => none

def application : CheckpointRow → Option (AppId × CheckpointTxn)
  | txn appId version lastUpdated => some (appId, ⟨version, lastUpdated.getD (-1)⟩)
  | _ => none

def domainConfiguration : CheckpointRow → Option (Domain × Text)
  | domainMetadata domain configuration => some (domain, configuration)
  | _ => none

def protocolAction : CheckpointRow → Option Protocol
  | protocol p => some p
  | _ => none

def metadataAction : CheckpointRow → Option Metadata
  | metaData metadata => some metadata
  | _ => none

end CheckpointRow

/-- `readDLCheckpointContent` -/
def readDLCheckpointContent (rows : List CheckpointRow) : CheckpointContent where
  adds := rows.filterMap (·.entry)
  removes := rows.filterMap (·.tombstone)
  txns := rows.filterMap (·.application)
  domains := rows.filterMap (·.domainConfiguration)
  protocol := rows.findSome? (·.protocolAction)
  metadata := rows.findSome? (·.metadataAction)

/-! ## Parsing -/

def CheckpointEntry.registration (e : CheckpointEntry) : Registration :=
  .add e.path
    { operation := .add, size := e.size, stats := e.stats, modificationTime := e.modificationTime
      partitionValues := e.partitionValues, tags := e.tags }

def CheckpointRemove.registration (e : CheckpointRemove) : Registration :=
  .remove e.path
    { operation := .delete, size := e.size, deletionTimestamp := e.deletionTimestamp
      partitionValues := e.partitionValues }

/-- `parse_checkpoint`: the actions of a checkpoint. -/
def CheckpointContent.registrations (content : CheckpointContent) : List Registration :=
  content.adds.map CheckpointEntry.registration ++
    content.removes.map CheckpointRemove.registration ++
    content.txns.map (fun e ↦ .transaction e.1 e.2) ++
    content.domains.map (fun e ↦ .domain e.1 (some e.2)) ++
    content.protocol.toList.map .protocol ++ content.metadata.toList.map .metadata

/-- The calls for a checkpoint of the given version. -/
def CheckpointContent.calls (version : ℤ) (content : CheckpointContent) :
    List (ℤ × Registration) := content.registrations.map (Prod.mk version)

/-- The calls for the checkpoint of version `version` that is written from snapshot `m`. -/
def DeltaLogManager.checkpointCalls (m : DeltaLogManager) (version retentionStart now : ℤ) :
    Option (List (ℤ × Registration)) := do
  let content ← m.checkpointContent retentionStart
  let rows ← generateCheckpoint now content
  return (readDLCheckpointContent rows).calls version

/-! ## What is read back -/

/-- An entry after it was written at time `now` and read. -/
def CheckpointEntry.reread (now : ℤ) (e : CheckpointEntry) : CheckpointEntry :=
  { e with
    size := if e.size < 0 then 0 else e.size
    modificationTime := if e.modificationTime < 0 then now else e.modificationTime
    partitionValues := some (e.partitionValues.getD []) }

def CheckpointRemove.reread (e : CheckpointRemove) : CheckpointRemove :=
  { e with
    size := if 0 ≤ e.size then e.size else -1
    partitionValues := if 0 ≤ e.size then some (e.partitionValues.getD []) else none }

def CheckpointTxn.reread (txn : CheckpointTxn) : CheckpointTxn :=
  { txn with lastUpdated := if 0 ≤ txn.lastUpdated then txn.lastUpdated else -1 }

theorem CheckpointEntry.entry_row (now : ℤ) (e : CheckpointEntry) :
    (e.row now).entry = some (e.reread now) := by
  cases hs : e.stats <;> simp [row, CheckpointRow.entry, reread, hs]

theorem CheckpointRemove.tombstone_row (e : CheckpointRemove) :
    e.row.tombstone = some e.reread := by
  by_cases hs : 0 ≤ e.size <;> simp [row, CheckpointRow.tombstone, reread, hs]

theorem CheckpointTxn.application_row (appId : AppId) (txn : CheckpointTxn) :
    (txn.row appId).application = some (appId, txn.reread) := by
  by_cases hs : 0 ≤ txn.lastUpdated <;> simp [row, CheckpointRow.application, reread, hs]

/-- **Reading a checkpoint.** The content comes back, with sizes and times filled in. -/
theorem readDLCheckpointContent_generateCheckpoint {now : ℤ} {content : CheckpointContent}
    {rows : List CheckpointRow} (h : generateCheckpoint now content = some rows) :
    readDLCheckpointContent rows =
      { content with
        adds := content.adds.map (·.reread now)
        removes := content.removes.map (·.reread)
        txns := content.txns.map fun e ↦ (e.1, e.2.reread) } := by
  obtain ⟨protocol, hp, h⟩ := Option.bind_eq_some_iff.mp h
  obtain ⟨metadata, hm, h⟩ := Option.bind_eq_some_iff.mp h
  obtain rfl := Option.some.inj h
  -- the rows of one kind are read back, the others are not of this kind
  have hadds : content.adds.filterMap (fun e ↦ (e.row now).entry) =
      content.adds.map (·.reread now) := by
    simp only [CheckpointEntry.entry_row, List.filterMap_eq_map']
  have hremoves : content.removes.filterMap (fun e ↦ e.row.tombstone) =
      content.removes.map (·.reread) := by
    simp only [CheckpointRemove.tombstone_row, List.filterMap_eq_map']
  have htxns : content.txns.filterMap (fun e ↦ (e.2.row e.1).application) =
      content.txns.map fun e ↦ (e.1, e.2.reread) := by
    simp only [CheckpointTxn.application_row, List.filterMap_eq_map']
  have hdomains : content.domains.filterMap
      (fun e ↦ (CheckpointRow.domainMetadata e.1 e.2).domainConfiguration) = content.domains := by
    simp [CheckpointRow.domainConfiguration]
  simp only [readDLCheckpointContent, List.filterMap_append, List.filterMap_map, Function.comp_def,
    hadds, hremoves, htxns, hdomains]
  simp [CheckpointRow.entry, CheckpointEntry.row, CheckpointRemove.row, CheckpointTxn.row,
    CheckpointRow.tombstone, CheckpointRow.application, CheckpointRow.domainConfiguration,
    CheckpointRow.protocolAction, CheckpointRow.metadataAction, hp, hm]

end LakeVilla.Checkpoint

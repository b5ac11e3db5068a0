import LakeVilla.Checkpoint.Encoding

/-!
# Checkpoint decode undoes encode

The rows of a checkpoint go through one builder for all types, and are read by code of their own for
each action. What a known content holds comes back: its actions in order, `protocol` and `metaData`
as JSON objects, partition values as an object even if they were empty.
-/

namespace LakeVilla.CheckpointFile

open ByteString
open Keys (Json JsonText cString cString_eq_self InInt64)

/-! ## Contents -/

/-- Empty, or the canonical text of an object of strings and nulls. -/
def CanonicalText (json : JsonText) (text : ByteString) : Prop :=
  text = [] ∨ ∃ members, 0 ∉ text ∧ json.parse text = some (.object members) ∧
    json.write (.object members) = text ∧ ∀ m ∈ members, m.2 = .null ∨ HasType .string m.2

/-- The text of an object over some fields. -/
def ObjectText (json : JsonText) (fields : List (ByteString × ColumnType)) (text : ByteString) :
    Prop :=
  ∃ members, 0 ∉ text ∧ json.parse text = some (.object members) ∧
    HasType (.struct fields) (.object members)

/-- What is read of an object over some fields can be written and parsed. -/
def Rewritten (json : JsonText) (fields : List (ByteString × ColumnType)) (text : ByteString) :
    Prop :=
  ∀ members, json.parse text = some (.object members) →
    json.Faithful (reread json (.struct fields) (.object members))

/-- A time that is known or absent. -/
def KnownTime (t : ℤ) : Prop := InInt64 t ∧ (t = -1 ∨ 0 ≤ t)

structure CheckpointEntry.Known (json : JsonText) (e : CheckpointEntry) : Prop where
  path : 0 ∉ e.path
  stats : 0 ∉ e.stats
  size : InInt64 e.size ∧ 0 ≤ e.size
  modificationTime : InInt64 e.modificationTime ∧ 0 ≤ e.modificationTime
  partitionValues : CanonicalText json e.partitionValues
  tags : CanonicalText json e.tags

structure CheckpointRemove.Known (json : JsonText) (e : CheckpointRemove) : Prop where
  path : 0 ∉ e.path
  deletionTimestamp : InInt64 e.deletionTimestamp
  size : InInt64 e.size ∧ 0 ≤ e.size
  partitionValues : CanonicalText json e.partitionValues

structure CheckpointTxn.Known (e : CheckpointTxn) : Prop where
  appId : 0 ∉ e.appId
  version : InInt64 e.version
  lastUpdated : KnownTime e.lastUpdated

structure CheckpointDomain.Known (e : CheckpointDomain) : Prop where
  domain : 0 ∉ e.domain
  configuration : 0 ∉ e.configuration

/-- Sizes and times are known, and the texts are those of objects. -/
structure CheckpointContent.Known (json : JsonText) (content : CheckpointContent) : Prop where
  adds : ∀ e ∈ content.adds, e.Known json
  removes : ∀ e ∈ content.removes, e.Known json
  txns : ∀ e ∈ content.txns, e.Known
  domains : ∀ e ∈ content.domains, e.Known
  protocol : ObjectText json protocolFields content.protocol
  metadata : ObjectText json metadataFields content.metadata

/-- Empty partition values are those of an empty object. -/
def orEmptyObject (text : ByteString) : ByteString := if text = [] then ascii "\x7b\x7d" else text

/-- The same JSON object. -/
def SameObject (json : JsonText) (text text' : ByteString) : Prop :=
  ∃ value value', json.parse text = some value ∧ json.parse text' = some value' ∧ Same value value'

/-- The same content, with objects for empty partition values. -/
structure SameContent (json : JsonText) (content content' : CheckpointContent) : Prop where
  adds : content'.adds =
    content.adds.map fun e ↦ { e with partitionValues := orEmptyObject e.partitionValues }
  removes : content'.removes =
    content.removes.map fun e ↦ { e with partitionValues := orEmptyObject e.partitionValues }
  txns : content'.txns = content.txns
  domains : content'.domains = content.domains
  protocol : SameObject json content.protocol content'.protocol
  metadata : SameObject json content.metadata content'.metadata

/-! ## Rows -/

section Rows

variable {json : JsonText} {now : ℤ}

theorem mapM_eq_ok {ε α β : Type} {f : α → Except ε β} {g : α → β} {l : List α}
    (h : ∀ x ∈ l, f x = .ok (g x)) : l.mapM f = .ok (l.map g) := by
  induction l with
  | nil => rfl
  | cons x l ih =>
    rw [List.mapM_cons, h x List.mem_cons_self, ih fun y hy ↦ h y (List.mem_cons_of_mem _ hy)]
    rfl

theorem filterMap_map_eq {α β γ : Type} {f : α → β} {g : β → Option γ} {k : α → γ} {l : List α}
    (h : ∀ x ∈ l, g (f x) = some (k x)) : (l.map f).filterMap g = l.map k := by
  rw [List.filterMap_map, ← List.filterMap_eq_map]
  exact List.filterMap_congr h

/-- The object of a text. -/
def objectOf (json : JsonText) (text : ByteString) : Json :=
  match jsonObject json text with
  | .ok value => value
  | .error _ => .null

/-- The cell of a text of partition values or tags. -/
def objectCell (json : JsonText) (text : ByteString) : Cell :=
  appendJson json stringMap (some (objectOf json text))

/-- The object of a canonical text is written back. -/
theorem objectOf_canonical (hempty : json.write (.object []) = ascii "\x7b\x7d")
    {text : ByteString} (h : CanonicalText json text) :
    jsonObject json text = .ok (objectOf json text) ∧
      elementJson json (some (stringMap, objectCell json text)) = orEmptyObject text := by
  by_cases hnil : text = []
  · subst hnil
    exact ⟨rfl, hempty⟩
  · obtain ⟨members, hnul, hparse, hwrite, hvalues⟩ := h.resolve_left hnil
    have hobject : jsonObject json text = .ok (.object members) := by
      rw [jsonObject, if_neg hnil, cString_eq_self hnul, hparse]
    have hof : objectOf json text = .object members := by rw [objectOf, hobject]
    have hreread : reread json stringMap (.object members) = .object members := by
      rw [stringMap, reread_map]
      refine congrArg Json.object ((List.map_congr_left fun m hm ↦ ?_).trans (List.map_id _))
      obtain ⟨name, value⟩ := m
      rcases hvalues _ hm with hvalue | hvalue
      · rw [show value = .null from hvalue, reread_null]
        rfl
      · cases value with
        | string s => rfl
        | _ => exact hvalue.elim
    refine ⟨hof ▸ hobject, ?_⟩
    rw [objectCell, hof]
    change json.write (reread json stringMap (.object members)) = _
    rw [hreread, hwrite, orEmptyObject, if_neg hnil]

/-- The members of an add action. -/
def addMembers (json : JsonText) (e : CheckpointEntry) : List (ByteString × Json) :=
  [(ascii "path", .string e.path), (ascii "partitionValues", objectOf json e.partitionValues),
    (ascii "size", .int e.size), (ascii "modificationTime", .int e.modificationTime),
    (ascii "dataChange", .bool false)] ++
    (if e.tags = [] then [] else [(ascii "tags", objectOf json e.tags)]) ++
    if e.stats = [] then [] else [(ascii "stats", .string e.stats)]

theorem addRow_known (hempty : json.write (.object []) = ascii "\x7b\x7d") {e : CheckpointEntry}
    (h : e.Known json) :
    addRow json now e = .ok (actionRow (ascii "add") (.object (addMembers json e))) := by
  have hvalues := (objectOf_canonical hempty h.partitionValues).1
  have htags := (objectOf_canonical hempty h.tags).1
  rw [addRow, hvalues, htags, cString_eq_self h.path, cString_eq_self h.stats,
    if_neg h.size.2.not_gt, if_neg h.modificationTime.2.not_gt, addMembers]
  split_ifs <;> rfl

/-- An add action is read back. -/
theorem readAdd_known (hempty : json.write (.object []) = ascii "\x7b\x7d") {e : CheckpointEntry}
    (h : e.Known json) : readAdd json addFields (appendFields json addFields (addMembers json e)) =
      some { e with partitionValues := orEmptyObject e.partitionValues } := by
  have hcells : appendFields json addFields (addMembers json e) =
      [.string e.path, objectCell json e.partitionValues, .int e.size, .int e.modificationTime,
        .bool false, if e.stats = [] then .null else .string e.stats,
        if e.tags = [] then .null else objectCell json e.tags] := by
    have hsize : appendJson json .int64 (some (.int e.size)) = .int e.size := if_pos h.size.1
    have htime : appendJson json .int64 (some (.int e.modificationTime)) =
        .int e.modificationTime := if_pos h.modificationTime.1
    rw [← hsize, ← htime, addMembers]
    split_ifs <;> rfl
  have hstats : (if e.stats = [] then Cell.null else .string e.stats).text = e.stats := by
    split_ifs with hnil
    · exact hnil.symm
    · rfl
  have htags : elementJson json (some (stringMap,
      if e.tags = [] then .null else objectCell json e.tags)) = e.tags := by
    split_ifs with hnil
    · exact hnil.symm
    · rw [(objectOf_canonical hempty h.tags).2, orEmptyObject, if_neg hnil]
  rw [hcells]
  change some (CheckpointEntry.mk e.path
    (if e.stats = [] then Cell.null else .string e.stats).text e.size e.modificationTime
    (elementJson json (some (stringMap, objectCell json e.partitionValues)))
    (elementJson json
      (some (stringMap, if e.tags = [] then .null else objectCell json e.tags)))) = _
  rw [hstats, htags, (objectOf_canonical hempty h.partitionValues).2]

/-- The members of a remove action. -/
def removeMembers (json : JsonText) (e : CheckpointRemove) : List (ByteString × Json) :=
  [(ascii "path", .string e.path), (ascii "deletionTimestamp", .int e.deletionTimestamp),
    (ascii "dataChange", .bool false), (ascii "extendedFileMetadata", .bool true),
    (ascii "partitionValues", objectOf json e.partitionValues), (ascii "size", .int e.size)]

theorem removeRow_known (hempty : json.write (.object []) = ascii "\x7b\x7d")
    {e : CheckpointRemove} (h : e.Known json) :
    removeRow json e = .ok (actionRow (ascii "remove") (.object (removeMembers json e))) := by
  have hvalues := (objectOf_canonical hempty h.partitionValues).1
  rw [removeRow, if_pos h.size.2, hvalues, cString_eq_self h.path, decide_eq_true h.size.2]
  rfl

/-- A remove action is read back. -/
theorem readRemove_known (hempty : json.write (.object []) = ascii "\x7b\x7d")
    {e : CheckpointRemove} (h : e.Known json) :
    readRemove json removeFields (appendFields json removeFields (removeMembers json e)) =
      some { e with partitionValues := orEmptyObject e.partitionValues } := by
  have hcells : appendFields json removeFields (removeMembers json e) =
      [.string e.path, .int e.deletionTimestamp, .bool false, .bool true,
        objectCell json e.partitionValues, .int e.size] := by
    have hsize : appendJson json .int64 (some (.int e.size)) = .int e.size := if_pos h.size.1
    have htime : appendJson json .int64 (some (.int e.deletionTimestamp)) =
        .int e.deletionTimestamp := if_pos h.deletionTimestamp
    rw [← hsize, ← htime]
    rfl
  rw [hcells]
  change some (CheckpointRemove.mk e.path e.deletionTimestamp e.size
    (elementJson json (some (stringMap, objectCell json e.partitionValues)))) = _
  rw [(objectOf_canonical hempty h.partitionValues).2]

/-- The members of a txn action. -/
def txnMembers (e : CheckpointTxn) : List (ByteString × Json) :=
  [(ascii "appId", .string e.appId), (ascii "version", .int e.version)] ++
    if 0 ≤ e.lastUpdated then [(ascii "lastUpdated", .int e.lastUpdated)] else []

theorem txnRow_known {e : CheckpointTxn} (h : e.Known) :
    txnRow e = actionRow (ascii "txn") (.object (txnMembers e)) := by
  rw [txnRow, cString_eq_self h.appId]
  rfl

/-- A txn action is read back. -/
theorem readTxn_known (json : JsonText) {e : CheckpointTxn} (h : e.Known) :
    readTxn txnFields (appendFields json txnFields (txnMembers e)) = some e := by
  have hversion : appendJson json .int64 (some (.int e.version)) = .int e.version :=
    if_pos h.version
  have hupdated : appendJson json .int64 (some (.int e.lastUpdated)) = .int e.lastUpdated :=
    if_pos h.lastUpdated.1
  have hcells : appendFields json txnFields (txnMembers e) =
      [.string e.appId, .int e.version,
        if 0 ≤ e.lastUpdated then .int e.lastUpdated else .null] := by
    rw [← hversion, ← hupdated, txnMembers]
    split_ifs <;> rfl
  have htime : (if 0 ≤ e.lastUpdated then Cell.int e.lastUpdated else .null).number (-1) =
      e.lastUpdated := by
    split_ifs with hknown
    · rfl
    · exact (h.lastUpdated.2.resolve_right hknown).symm
  rw [hcells]
  change some (CheckpointTxn.mk e.appId e.version
    ((if 0 ≤ e.lastUpdated then Cell.int e.lastUpdated else .null).number (-1))) = _
  rw [htime]

/-- The members of a domainMetadata action. -/
def domainMembers (e : CheckpointDomain) : List (ByteString × Json) :=
  [(ascii "domain", .string e.domain), (ascii "configuration", .string e.configuration),
    (ascii "removed", .bool false)]

theorem domainRow_known {e : CheckpointDomain} (h : e.Known) :
    domainRow e = actionRow (ascii "domainMetadata") (.object (domainMembers e)) := by
  rw [domainRow, cString_eq_self h.domain, cString_eq_self h.configuration]
  rfl

/-- A domainMetadata action is read back. -/
theorem readDomain_known (json : JsonText) (e : CheckpointDomain) :
    readDomain domainFields (appendFields json domainFields (domainMembers e)) = some e := rfl

/-- The rows of a known content. -/
def knownRows (json : JsonText) (content : CheckpointContent)
    (protocol metadata : List (ByteString × Json)) : List Json :=
  actionRow (ascii "protocol") (.object protocol) ::
    actionRow (ascii "metaData") (.object metadata) ::
      content.txns.map (fun e ↦ actionRow (ascii "txn") (.object (txnMembers e))) ++
      content.domains.map
        (fun e ↦ actionRow (ascii "domainMetadata") (.object (domainMembers e))) ++
      content.removes.map (fun e ↦ actionRow (ascii "remove") (.object (removeMembers json e))) ++
      content.adds.map fun e ↦ actionRow (ascii "add") (.object (addMembers json e))

theorem textRow_ok {action text : ByteString} {members : List (ByteString × Json)}
    (hnul : 0 ∉ text) (hparse : json.parse text = some (.object members)) :
    textRow json action text = .ok (actionRow action (.object members)) := by
  rw [textRow, cString_eq_self hnul, hparse]

theorem checkpointRows_known (hempty : json.write (.object []) = ascii "\x7b\x7d")
    {content : CheckpointContent} (h : content.Known json)
    {protocol metadata : List (ByteString × Json)}
    (hprotocol : textRow json (ascii "protocol") content.protocol =
      .ok (actionRow (ascii "protocol") (.object protocol)))
    (hmetadata : textRow json (ascii "metaData") content.metadata =
      .ok (actionRow (ascii "metaData") (.object metadata))) :
    checkpointRows json now content = .ok (knownRows json content protocol metadata) := by
  have hremoves := mapM_eq_ok fun e he ↦ removeRow_known hempty (h.removes e he)
  have hadds : content.adds.mapM (addRow json now) = .ok (content.adds.map fun e ↦
      actionRow (ascii "add") (.object (addMembers json e))) :=
    mapM_eq_ok fun e he ↦ addRow_known hempty (h.adds e he)
  have htxns := List.map_congr_left fun e he ↦ txnRow_known (h.txns e he)
  have hdomains := List.map_congr_left fun e he ↦ domainRow_known (h.domains e he)
  rw [checkpointRows, hprotocol, hmetadata, hremoves, hadds, htxns, hdomains]
  rfl

end Rows

/-! ## Columns -/

section Columns

variable {json : JsonText} {table table' : Table} {name action : ByteString}
  {fields : List (ByteString × ColumnType)}

/-- The columns without their chunks. -/
def Table.flat (table : Table) : List (ByteString × ColumnType × List Cell) :=
  table.map fun column ↦ (column.1, column.2.type, column.2.chunks.flatten)

theorem lookup_flat (table : Table) (name : ByteString) : table.flat.lookup name =
    (table.lookup name).map fun column ↦ (column.type, column.chunks.flatten) := by
  have h := AssocList.lookup_map (f := fun column : Column ↦ (column.type, column.chunks.flatten))
    table name
  exact h

/-- Only the order of the cells counts, not their chunks. -/
theorem structColumn_congr (h : table.flat = table'.flat) :
    structColumn table name = structColumn table' name := by
  have hlookup := (lookup_flat table name).symm.trans (h ▸ lookup_flat table' name)
  unfold structColumn
  cases hcolumn : table.lookup name with
  | none =>
    rw [hcolumn] at hlookup
    rw [Option.map_eq_none_iff.mp hlookup.symm]
  | some column =>
    rw [hcolumn] at hlookup
    obtain ⟨column', hcolumn', heq⟩ := Option.map_eq_some_iff.mp hlookup.symm
    obtain ⟨type, chunks⟩ := column
    obtain ⟨type', chunks'⟩ := column'
    obtain ⟨rfl, hchunks⟩ := Prod.mk.inj heq
    rw [hcolumn']
    cases type' with
    | struct fields => exact congrArg (Prod.mk fields) (congrArg _ hchunks.symm)
    | _ => rfl

theorem firstActionJson_congr (h : table.flat = table'.flat) :
    firstActionJson json table name = firstActionJson json table' name := by
  have hlookup := (lookup_flat table name).symm.trans (h ▸ lookup_flat table' name)
  unfold firstActionJson
  cases hcolumn : table.lookup name with
  | none =>
    rw [hcolumn] at hlookup
    rw [Option.map_eq_none_iff.mp hlookup.symm]
  | some column =>
    rw [hcolumn] at hlookup
    obtain ⟨column', hcolumn', heq⟩ := Option.map_eq_some_iff.mp hlookup.symm
    obtain ⟨htype, hchunks⟩ := Prod.mk.inj heq
    rw [hcolumn']
    simp only [htype, hchunks]

/-- The structs of an action among some rows. -/
def structRows (json : JsonText) (fields : List (ByteString × ColumnType)) (name : ByteString)
    (rows : List Json) : List (List Cell) :=
  rows.filterMap fun row ↦
    match row.member name with
    | some (.object members) => some (appendFields json fields members)
    | _ => none

theorem structRows_actionRow {α : Type} (members : α → List (ByteString × Json)) (l : List α) :
    structRows json fields name (l.map fun e ↦ actionRow action (.object (members e))) =
      if name = action then l.map fun e ↦ appendFields json fields (members e) else [] := by
  rw [structRows, List.filterMap_map]
  split_ifs with hname
  · subst hname
    rw [← List.filterMap_eq_map]
    apply List.filterMap_congr
    intro e he
    simp [actionRow, Json.member]
  · rw [List.filterMap_eq_nil_iff]
    intro e he
    have hmember : (actionRow action (.object (members e))).member name = none :=
      AssocList.lookup_cons_of_ne hname _ _
    rw [Function.comp_apply, hmember]

/-- The structs of an action among the rows of a known content. -/
theorem structRows_knownRows {content : CheckpointContent}
    {protocol metadata : List (ByteString × Json)} :
    structRows json fields name (knownRows json content protocol metadata) =
      structRows json fields name ([protocol].map fun e ↦
        actionRow (ascii "protocol") (.object e)) ++
      structRows json fields name ([metadata].map fun e ↦
        actionRow (ascii "metaData") (.object e)) ++
      structRows json fields name (content.txns.map fun e ↦
        actionRow (ascii "txn") (.object (txnMembers e))) ++
      structRows json fields name (content.domains.map fun e ↦
        actionRow (ascii "domainMetadata") (.object (domainMembers e))) ++
      structRows json fields name (content.removes.map fun e ↦
        actionRow (ascii "remove") (.object (removeMembers json e))) ++
      structRows json fields name (content.adds.map fun e ↦
        actionRow (ascii "add") (.object (addMembers json e))) := by
  simp only [structRows, ← List.filterMap_append]
  rfl

/-- A struct column of the rows. -/
theorem structColumn_rows {rows : List Json}
    (h : table.lookup name = some (columnOf json rows name (.struct fields))) :
    structColumn table name = (fields, structRows json fields name rows) := by
  rw [structColumn, h]
  refine congrArg (Prod.mk fields) ?_
  rw [List.flatten_singleton, List.filterMap_map, structRows]
  apply List.filterMap_congr
  intro row hrow
  rw [Function.comp_apply]
  cases row.member name with
  | none => rfl
  | some value => cases value <;> rfl

/-- The first action of its kind. -/
theorem firstActionJson_rows (rows : List Json) {rest : List Json} {type : ColumnType}
    {value : Json}
    (h : table.lookup name = some (columnOf json (rows ++ actionRow name value :: rest) name type))
    (hrows : ∀ row ∈ rows, row.member name = none)
    (hne : appendJson json type (some value) ≠ .null) :
    firstActionJson json table name = json.write (reread json type value) := by
  have hfirst : (rows.map fun row ↦ appendJson json type (row.member name)).find?
      (fun cell ↦ !cell.isNull) = none := by
    rw [List.find?_eq_none]
    intro cell hcell
    obtain ⟨row, hrow, rfl⟩ := List.mem_map.mp hcell
    rw [hrows row hrow]
    cases type <;> exact Bool.false_ne_true
  have hmember : (actionRow name value).member name = some value := List.lookup_cons_self
  have hcell : (!(appendJson json type (some value)).isNull) = true := by
    rw [Cell.isNull_of_ne hne, Bool.not_false]
  unfold firstActionJson
  rw [h]
  simp only [columnOf, List.flatten_singleton, List.map_append, List.map_cons, hmember]
  rw [List.find?_append, hfirst, Option.none_or,
    List.find?_cons_of_pos (p := fun cell : Cell ↦ !cell.isNull) hcell]
  rfl

end Columns

/-! ## The round trip -/

section RoundTrip

variable {parquet : Parquet} {json : JsonText} {now : ℤ} {content : CheckpointContent}
  {protocol metadata : List (ByteString × Json)} {table table' : Table}

/-- The table of a known content. -/
def knownTable (json : JsonText) (content : CheckpointContent)
    (protocol metadata : List (ByteString × Json)) : Table :=
  checkpointSchema.map fun field ↦
    (field.1, columnOf json (knownRows json content protocol metadata) field.1 field.2)

theorem structColumn_txn (h : table.flat = (knownTable json content protocol metadata).flat) :
    structColumn table (ascii "txn") =
      (txnFields, content.txns.map fun e ↦ appendFields json txnFields (txnMembers e)) := by
  rw [structColumn_congr h, structColumn_rows rfl, structRows_knownRows]
  simp +decide only [structRows_actionRow, if_true, if_false, List.nil_append, List.append_nil]

theorem structColumn_domainMetadata
    (h : table.flat = (knownTable json content protocol metadata).flat) :
    structColumn table (ascii "domainMetadata") = (domainFields,
      content.domains.map fun e ↦ appendFields json domainFields (domainMembers e)) := by
  rw [structColumn_congr h, structColumn_rows rfl, structRows_knownRows]
  simp +decide only [structRows_actionRow, if_true, if_false, List.nil_append, List.append_nil]

theorem structColumn_remove (h : table.flat = (knownTable json content protocol metadata).flat) :
    structColumn table (ascii "remove") = (removeFields,
      content.removes.map fun e ↦ appendFields json removeFields (removeMembers json e)) := by
  rw [structColumn_congr h, structColumn_rows rfl, structRows_knownRows]
  simp +decide only [structRows_actionRow, if_true, if_false, List.nil_append, List.append_nil]

theorem structColumn_add (h : table.flat = (knownTable json content protocol metadata).flat) :
    structColumn table (ascii "add") =
      (addFields, content.adds.map fun e ↦ appendFields json addFields (addMembers json e)) := by
  rw [structColumn_congr h, structColumn_rows rfl, structRows_knownRows]
  simp +decide only [structRows_actionRow, if_true, if_false, List.nil_append, List.append_nil]

theorem lacksPaths_known (h : table.flat = (knownTable json content protocol metadata).flat) :
    lacksPaths table = false := by
  have hlookup := lookup_flat table (ascii "add")
  rw [h, lookup_flat] at hlookup
  obtain ⟨column, hcolumn, heq⟩ := Option.map_eq_some_iff.mp hlookup.symm
  obtain ⟨type, chunks⟩ := column
  obtain ⟨rfl, -⟩ := Prod.mk.inj heq
  rw [lacksPaths, hcolumn]
  exact Bool.and_false _

theorem firstActionJson_protocol
    (h : table.flat = (knownTable json content protocol metadata).flat) :
    firstActionJson json table (ascii "protocol") =
      json.write (reread json (.struct protocolFields) (.object protocol)) := by
  rw [firstActionJson_congr h]
  apply firstActionJson_rows [] rfl
  · exact fun row hrow ↦ absurd hrow List.not_mem_nil
  · exact fun h ↦ nomatch h

theorem firstActionJson_metaData
    (h : table.flat = (knownTable json content protocol metadata).flat) :
    firstActionJson json table (ascii "metaData") =
      json.write (reread json (.struct metadataFields) (.object metadata)) := by
  rw [firstActionJson_congr h]
  apply firstActionJson_rows [actionRow (ascii "protocol") (.object protocol)] rfl
  · intro row hrow
    rw [List.mem_singleton.mp hrow]
    rfl
  · exact fun h ↦ nomatch h

/-- An object of a type is read back. -/
theorem sameObject_reread {fields : List (ByteString × ColumnType)} {text : ByteString}
    {members : List (ByteString × Json)} (hparse : json.parse text = some (.object members))
    (htype : HasType (.struct fields) (.object members))
    (hfaithful : json.Faithful (reread json (.struct fields) (.object members))) :
    SameObject json text (json.write (reread json (.struct fields) (.object members))) := by
  have hback : ComesBack json (.struct fields) (.object members) := comesBack _ htype
  obtain ⟨value', hread, hreads⟩ := hfaithful.parse_write
  rw [hback.exact hreads] at hread
  exact ⟨_, _, hparse, hread, hback.same⟩

/-- What is read of a known content. -/
def knownContent (json : JsonText) (content : CheckpointContent)
    (protocol metadata : List (ByteString × Json)) : CheckpointContent where
  adds := content.adds.map fun e ↦
    { e with partitionValues := orEmptyObject e.partitionValues }
  removes := content.removes.map fun e ↦
    { e with partitionValues := orEmptyObject e.partitionValues }
  txns := content.txns
  domains := content.domains
  protocol := json.write (reread json (.struct protocolFields) (.object protocol))
  metadata := json.write (reread json (.struct metadataFields) (.object metadata))

theorem hasDeletionVector_known (members : List (ByteString × Json)) :
    hasDeletionVector addFields (appendFields json addFields members) = false := by
  have hchild : child addFields (appendFields json addFields members)
      (ascii "deletionVector") = none := rfl
  rw [hasDeletionVector, hchild]
  split
  · next h => cases h
  · rfl

theorem unsupportedContent_known (htxns : ∀ e ∈ content.txns, e.Known) :
    unsupportedContent
      (addFields, content.adds.map fun e ↦ appendFields json addFields (addMembers json e))
      (txnFields, content.txns.map fun e ↦ appendFields json txnFields (txnMembers e))
      (domainFields, content.domains.map fun e ↦
        appendFields json domainFields (domainMembers e)) = [] := by
  rw [unsupportedContent, if_neg, if_neg, if_neg]
  · rw [List.any_map, List.any_eq_true]
    rintro ⟨e, -, hvector⟩
    rw [Function.comp_apply, hasDeletionVector_known] at hvector
    exact Bool.false_ne_true hvector
  · rw [List.any_map, List.any_eq_true]
    rintro ⟨e, he, hinvalid⟩
    rw [Function.comp_apply, readTxn_known json (htxns e he)] at hinvalid
    exact Bool.false_ne_true hinvalid
  · rw [List.any_map, List.any_eq_true]
    rintro ⟨e, -, hunnamed⟩
    exact Bool.false_ne_true hunnamed

/-- The table of a known content is read back. -/
theorem tableContent_known (hempty : json.write (.object []) = ascii "\x7b\x7d")
    (hknown : content.Known json)
    (h : table.flat = (knownTable json content protocol metadata).flat) :
    tableContent json table = some (knownContent json content protocol metadata) := by
  have hadds := filterMap_map_eq fun e he ↦ readAdd_known hempty (hknown.adds e he)
  have hremoves := filterMap_map_eq fun e he ↦ readRemove_known hempty (hknown.removes e he)
  have htxns := filterMap_map_eq fun e he ↦ readTxn_known json (hknown.txns e he)
  have hdomains := filterMap_map_eq (l := content.domains) fun e _ ↦
    readDomain_known json e
  rw [tableContent, lacksPaths_known h, structColumn_add h, structColumn_remove h,
    structColumn_txn h, structColumn_domainMetadata h, firstActionJson_protocol h,
    firstActionJson_metaData h, if_neg Bool.false_ne_true, unsupportedContent_known hknown.txns,
    hadds, hremoves, htxns, hdomains, List.map_id', List.map_id']
  rfl

/-- Parquet keeps the columns of a table, not their chunks. -/
def Parquet.Lossless (parquet : Parquet) (table : Table) : Prop :=
  ∃ table', parquet.decode (parquet.encode table) = some table' ∧ table'.flat = table.flat

/-- **A checkpoint comes back.** What is known of a table is the same after `generateCheckpoint` and
`readDLCheckpointContent`. -/
theorem checkpoint_round_trip (hempty : json.write (.object []) = ascii "\x7b\x7d")
    (hknown : content.Known json) (hprotocol : Rewritten json protocolFields content.protocol)
    (hmetadata : Rewritten json metadataFields content.metadata)
    (hlossless : ∀ table, checkpointTable json now content = .ok table → parquet.Lossless table) :
    ∃ data content', generateCheckpoint parquet json now content = .ok data ∧
      readDLCheckpointContent parquet json data = some content' ∧
      SameContent json content content' ∧ content'.unsupported = [] := by
  obtain ⟨protocol, hpnul, hpparse, hptype⟩ := hknown.protocol
  obtain ⟨metadata, hmnul, hmparse, hmtype⟩ := hknown.metadata
  have htable : checkpointTable json now content =
      .ok (knownTable json content protocol metadata) := by
    rw [checkpointTable, checkpointRows_known hempty hknown (textRow_ok hpnul hpparse)
      (textRow_ok hmnul hmparse)]
    rfl
  obtain ⟨table, hdecode, hflat⟩ := hlossless _ htable
  refine ⟨parquet.encode (knownTable json content protocol metadata),
    knownContent json content protocol metadata, ?_, ?_, ?_, rfl⟩
  · rw [generateCheckpoint, htable]
    rfl
  · rw [readDLCheckpointContent, hdecode, Option.bind_some, tableContent_known hempty hknown hflat]
  · exact ⟨rfl, rfl, rfl, rfl, sameObject_reread hpparse hptype (hprotocol _ hpparse),
      sameObject_reread hmparse hmtype (hmetadata _ hmparse)⟩

end RoundTrip

/-! ## A checkpoint with one action of each kind -/

def sampleValues : List (ByteString × Json) := [(ascii "p", .string (ascii "1"))]

def sampleProtocol : List (ByteString × Json) :=
  [(ascii "minReaderVersion", .int 1), (ascii "minWriterVersion", .int 2)]

def sampleMetadata : List (ByteString × Json) :=
  [(ascii "id", .string (ascii "t")), (ascii "partitionColumns", .array [.string (ascii "p")])]

def valuesText : ByteString := ascii "\x7b\"p\":\"1\"\x7d"

def protocolText : ByteString := ascii "\x7b\"minReaderVersion\":1,\"minWriterVersion\":2\x7d"

/-- Not in the order of the columns. -/
def metadataText : ByteString := ascii "\x7b\"partitionColumns\":[\"p\"],\"id\":\"t\"\x7d"

def orderedText : ByteString := ascii "\x7b\"id\":\"t\",\"partitionColumns\":[\"p\"]\x7d"

/-- rapidjson, for the documents of the sample. -/
def sampleJson : JsonText where
  write
    | .object [] => ascii "\x7b\x7d"
    | .object [(_, .string _)] => valuesText
    | .object [_, (_, .int _)] => protocolText
    | _ => orderedText
  parse text :=
    [(valuesText, .object sampleValues), (protocolText, .object sampleProtocol),
      (metadataText, .object sampleMetadata.reverse),
      (orderedText, .object sampleMetadata)].lookup text

def sampleContent : CheckpointContent where
  adds :=
    [{ path := ascii "a.parquet"
       stats := ascii "\x7b\"numRecords\":1\x7d"
       size := 10
       modificationTime := 3
       partitionValues := valuesText }]
  removes := [{ path := ascii "old.parquet", deletionTimestamp := 5, size := 20 }]
  txns := [{ appId := ascii "app", version := 7 }]
  domains := [{ domain := ascii "d", configuration := ascii "c" }]
  protocol := protocolText
  metadata := metadataText

/-- Parquet, for the table of the sample. -/
def sampleParquet : Parquet where
  encode _ := []
  decode _ := (checkpointTable sampleJson 0 sampleContent).toOption

theorem sampleProtocol_objectText : ObjectText sampleJson protocolFields protocolText := by
  refine ⟨sampleProtocol, by decide, rfl, by decide, by decide, by decide, ?_, ?_, ?_, ?_, trivial⟩
  all_goals rintro value ⟨⟩
  · exact ⟨by decide, by decide⟩
  · exact ⟨by decide, by decide⟩

theorem sampleProtocol_rewritten : Rewritten sampleJson protocolFields protocolText := by
  rintro members ⟨⟩
  exact ⟨⟨_, rfl, .refl _⟩, by decide, List.cons_ne_nil _ _⟩

theorem sampleMetadata_objectText : ObjectText sampleJson metadataFields metadataText := by
  refine ⟨sampleMetadata.reverse, by decide, rfl, by decide, by decide, by decide,
    ?_, ?_, ?_, ?_, ?_, ?_, ?_, ?_, trivial⟩
  all_goals rintro value ⟨⟩
  · trivial
  · intro item hitem
    rw [List.mem_singleton.mp hitem]
    exact .inr trivial

theorem sampleMetadata_rewritten : Rewritten sampleJson metadataFields metadataText := by
  rintro members ⟨⟩
  exact ⟨⟨_, rfl, .refl _⟩, by decide, List.cons_ne_nil _ _⟩

theorem canonicalText_valuesText : CanonicalText sampleJson valuesText := by
  refine .inr ⟨sampleValues, by decide, rfl, rfl, ?_⟩
  intro m hm
  rw [List.mem_singleton.mp hm]
  exact .inr trivial

theorem sampleContent_known : sampleContent.Known sampleJson where
  adds e he := by
    rw [List.mem_singleton.mp he]
    exact ⟨by decide, by decide, by decide, by decide, canonicalText_valuesText, .inl rfl⟩
  removes e he := by
    rw [List.mem_singleton.mp he]
    exact ⟨by decide, by decide, by decide, .inl rfl⟩
  txns e he := by
    rw [List.mem_singleton.mp he]
    exact ⟨by decide, by decide, by decide, .inl rfl⟩
  domains e he := by
    rw [List.mem_singleton.mp he]
    exact ⟨by decide, by decide⟩
  protocol := sampleProtocol_objectText
  metadata := sampleMetadata_objectText

theorem checkpoint_round_trip_sample :
    ∃ data content', generateCheckpoint sampleParquet sampleJson 0 sampleContent = .ok data ∧
      readDLCheckpointContent sampleParquet sampleJson data = some content' ∧
      SameContent sampleJson sampleContent content' ∧ content'.unsupported = [] :=
  checkpoint_round_trip rfl sampleContent_known sampleProtocol_rewritten sampleMetadata_rewritten
    fun table h ↦ ⟨table, congrArg Except.toOption h, rfl⟩

end LakeVilla.CheckpointFile

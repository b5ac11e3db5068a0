import LakeVilla.Keys.AddEntry
import LakeVilla.Keys.Rows

/-!
# Finding the files of a key

`find_key_files` asks the snapshot for the files that may hold a key and reads those of them whose
statistics leave a doubt.

Reading a data file, with Parquet and the conversion to the table's schema, is a function from paths
to tables; a file that cannot be read has none.
-/

namespace LakeVilla.Keys

variable {σ ρ : Type}

/-! ## The snapshot -/

/-- `DeltaLogEntry::update`: without `overwrite` a remove beats an add. -/
def DeltaLogEntry.update (e : DeltaLogEntry) (op : DLOperation) (overwrite : Bool) :
    DeltaLogEntry :=
  if overwrite then { e with operation := op }
  else
    match e.operation, op with
    | .add, .delete => { e with operation := .delete }
    | .none, .add => { e with operation := .add }
    | .none, .delete => { e with operation := .delete }
    | .none, .metadata => { e with operation := .metadata }
    | _, _ => e

/-- The files of a table by their paths below `basePath`. -/
@[ext]
structure DeltaLogManager where
  basePath : ByteString
  files : List (ByteString × DeltaLogEntry)
  /-- `files` is a map. -/
  nodup : (files.map (·.1)).Nodup

namespace DeltaLogManager

/-- `relative` -/
def relative (log : DeltaLogManager) (path : ByteString) : ByteString :=
  relativePath path log.basePath

/-- `register_operation` with the base path: inserts the entry, or merges the operation into an
existing one. -/
def registerOperation (log : DeltaLogManager) (op : DLOperation) (path : ByteString)
    (entry : DeltaLogEntry) (overwrite : Bool) : DeltaLogManager where
  basePath := log.basePath
  files := AssocList.insertOrAssign log.files (log.relative path) <|
    match log.files.lookup (log.relative path) with
    | some current => current.update op overwrite
    | none => entry
  nodup := AssocList.nodup_insertOrAssign log.nodup _ _

/-- `get_size` with the base path -/
def getSize (log : DeltaLogManager) (path : ByteString) : ℤ :=
  match log.files.lookup (log.relative path) with
  | some e => e.size
  | none => -1

/-- `find_files`: the live files that the classification does not exclude. -/
def findFiles (log : DeltaLogManager) (column : ByteString)
    (classify : Option ByteString → Option ByteString → ℤ → KeyMatch) :
    List (ByteString × KeyMatch) :=
  log.files.filterMap fun (path, e) ↦
    if e.operation ≠ .add then none
    else
      let found := classify (e.minOf column) (e.maxOf column) e.numRecords
      if found ≠ .none then some (log.basePath ++ path, found) else none

/-- `findFileWithStats`: the first live file whose minimum or maximum at a position is the key;
empty if there is none. -/
def findFileWithStats (log : DeltaLogManager) (pos : ℕ) (key : ByteString) : ByteString :=
  let found := log.files.find? fun (_, e) ↦
    e.operation = .add ∧ pos < e.min.length ∧ pos < e.max.length ∧
      (e.min[pos]? = some key ∨ e.max[pos]? = some key)
  match found with
  | some (path, _) => if path = [] then [] else log.basePath ++ path
  | none => []

/-- `get_list`: the live files. -/
def getList (log : DeltaLogManager) : List ByteString :=
  (log.files.filter fun e ↦ e.2.operation = .add).map (·.1)

end DeltaLogManager

/-! ## The state of a table -/

/-- `FileStats` -/
structure FileStats where
  path : ByteString
  size : ℤ := -1
  valid : Bool := true
  /-- the update that wrote the file (`none` is `UINT32_MAX`) -/
  updateId : Option ℕ := none
  stats : TableStatistics := {}
  deriving DecidableEq

/-- A column of the table schema, with its physical name. -/
structure Field where
  name : ByteString
  type : DataType
  physicalName : Option ByteString := none
  deriving DecidableEq

structure TableSchema where
  fields : List Field
  columnMapping : Bool := false
  deriving DecidableEq

/-- The parts of `TableStats` that the operations by key use. -/
structure TableStats where
  deltaLog : DeltaLogManager
  /-- `table_schema`: the error, or the schema if there is metaData -/
  schema : Except ByteString (Option TableSchema)
  createdFiles : List (ByteString × FileStats) := []
  deletedFiles : List (ByteString × FileStats) := []

/-- The first column of a table. -/
structure KeyColumn where
  type : DataType
  /-- its name in the statistics -/
  column : ByteString
  deriving DecidableEq

namespace TableStats

/-- The first column; `none` without metaData. With column mapping the statistics use the physical
name. -/
def keyColumn (schema : Option TableSchema) : Option KeyColumn :=
  match schema with
  | none => none
  | some s =>
    match s.fields with
    | [] => none
    | field :: _ => some
        { type := field.type
          column := if s.columnMapping then field.physicalName.getD field.name else field.name }

end TableStats

/-! ## `find_key_files` -/

/-- `KeyFile` -/
structure KeyFile (σ ρ : Type) where
  path : ByteString
  /-- the file as it was read (`none`: not read yet) -/
  data : Option (DataTable σ ρ) := none
  /-- the rows of the key in `data` -/
  rows : List ℕ := []
  /-- the statistics prove that the file holds exactly one row, the key's -/
  exact : Bool := false

/-- `all_rows`: all rows of the file have the key. -/
def KeyFile.allRows (f : KeyFile σ ρ) : Bool :=
  f.exact ||
    match f.data with
    | some data => f.rows.length = data.numRows
    | none => false

/-- `read_key_files`: the files that were not read yet, with all their rows. -/
def readKeyFiles (read : ByteString → Option (DataTable σ ρ)) (files : List (KeyFile σ ρ)) :
    Option (List (KeyFile σ ρ)) :=
  files.mapM fun f ↦
    match f.data with
    | some _ => some f
    | none => (read f.path).map fun data ↦
        { f with data := some data, rows := List.range data.numRows }

/-- The file was written by the update `skipUpdate` itself. -/
def skipped (created : List (ByteString × FileStats)) (skipUpdate : Option ℕ) (path : ByteString) :
    Bool :=
  skipUpdate.isSome && (created.lookup path).any fun s ↦ s.updateId = skipUpdate

/-- The loop of `find_key_files` over the candidates. -/
def keyFilesLoop (arrow : Arrow σ) (m : KeyMatcher σ) (read : ByteString → Option (DataTable σ ρ))
    (created : List (ByteString × FileStats)) (readExact : Bool) (skipUpdate : Option ℕ) :
    List (ByteString × KeyMatch) → Option (List (KeyFile σ ρ))
  | [] => some []
  | (path, found) :: candidates =>
    let rest := keyFilesLoop arrow m read created readExact skipUpdate candidates
    -- the new rows of the update itself
    if skipped created skipUpdate path then rest
    else
      let exact : Bool := found = .exact
      if exact && !readExact then rest.map ({ path := path, exact := exact } :: ·)
      else
        -- the statistics do not prove which rows the file holds: read it
        match read path with
        | none => none
        | some data =>
          let rows := m.rowsOf arrow data.chunks 0
          if rows.isEmpty then rest
          else rest.map ({ path := path, data := some data, rows := rows, exact := exact } :: ·)

/-- The file of a candidate, as it is read. -/
def keyFileOf (arrow : Arrow σ) (m : KeyMatcher σ) (readExact : Bool) (path : ByteString)
    (found : KeyMatch) (data : DataTable σ ρ) : Option (KeyFile σ ρ) :=
  if found = .exact ∧ readExact = false then some { path := path, exact := true }
  else
    let rows := m.rowsOf arrow data.chunks 0
    if rows.isEmpty then none
    else some { path := path, data := some data, rows := rows, exact := found = .exact }

/-- What the loop returns when all files can be read. -/
theorem keyFilesLoop_eq {arrow : Arrow σ} {m : KeyMatcher σ}
    {read : ByteString → Option (DataTable σ ρ)} {content : ByteString → DataTable σ ρ}
    {created : List (ByteString × FileStats)} {readExact : Bool} {skipUpdate : Option ℕ}
    {candidates : List (ByteString × KeyMatch)} {files : List (KeyFile σ ρ)}
    (hread : ∀ c ∈ candidates, ∀ data ∈ read c.1, data = content c.1)
    (h : keyFilesLoop arrow m read created readExact skipUpdate candidates = some files) :
    files = (candidates.filter fun c ↦ !skipped created skipUpdate c.1).filterMap fun c ↦
      keyFileOf arrow m readExact c.1 c.2 (content c.1) := by
  induction candidates generalizing files with
  | nil =>
    obtain rfl := Option.some.inj h
    rfl
  | cons c candidates ih =>
    obtain ⟨path, found⟩ := c
    have hread' := fun c hc ↦ hread c (List.mem_cons_of_mem _ hc)
    rw [keyFilesLoop] at h
    simp only at h
    rw [List.filter_cons]
    by_cases hskip : skipped created skipUpdate path = true
    · rw [if_pos hskip] at h
      rw [if_neg (by simp [hskip])]
      exact ih hread' h
    · rw [if_neg hskip] at h
      rw [if_pos (by simp [hskip]), List.filterMap_cons]
      by_cases hexact : found = .exact ∧ readExact = false
      · rw [if_pos (by simp [hexact])] at h
        obtain ⟨rest, hrest, rfl⟩ := Option.map_eq_some_iff.mp h
        have hfile : keyFileOf arrow m readExact path found (content path) =
            some { path := path, exact := true } := if_pos hexact
        simp only [hfile]
        rw [ih hread' hrest, decide_eq_true hexact.1]
      · rw [if_neg (by simpa using hexact)] at h
        cases hdata : read path with
        | none =>
          rw [hdata] at h
          cases h
        | some data =>
          obtain rfl := hread _ List.mem_cons_self data hdata
          rw [hdata] at h
          simp only at h
          split at h
          · next hrows =>
            have hfile : keyFileOf arrow m readExact path found (content path) = none := by
              rw [keyFileOf, if_neg hexact]
              exact if_pos hrows
            simp only [hfile]
            exact ih hread' h
          · next hrows =>
            obtain ⟨rest, hrest, rfl⟩ := Option.map_eq_some_iff.mp h
            have hfile : keyFileOf arrow m readExact path found (content path) = some
                { path := path, data := some (content path),
                  rows := m.rowsOf arrow (content path).chunks 0, exact := found = .exact } := by
              rw [keyFileOf, if_neg hexact]
              exact if_neg hrows
            simp only [hfile]
            rw [ih hread' hrest]

/-- `key_rows`: the rows of the key in the files that were read, as one table. -/
def keyRows (files : List (KeyFile σ ρ)) : Option (DataTable σ ρ) :=
  match files.filterMap fun f ↦ f.data.map (selectRows · f.rows) with
  | [] => none
  | [part] => some part
  | parts => some ⟨parts.flatMap (·.chunks)⟩

/-- `find_key_files`; `none` if a file cannot be read. -/
def findKeyFiles (arrow : Arrow σ) (read : ByteString → Option (DataTable σ ρ)) (tbl : TableStats)
    (key : ByteString) (readExact : Bool) (skipUpdate : Option ℕ) : Option (List (KeyFile σ ρ)) :=
  match tbl.schema with
  | .error _ => none
  | .ok schema =>
    match TableStats.keyColumn schema with
    | none =>
      -- without metaData: the first column of the statistics, whole files
      let path := tbl.deltaLog.findFileWithStats 0 key
      let files := if path = [] then [] else [{ path := path, exact := true }]
      if readExact then readKeyFiles read files else some files
    | some column =>
      let m := KeyMatcher.make arrow column.type key
      keyFilesLoop arrow m read tbl.createdFiles readExact skipUpdate
        (tbl.deltaLog.findFiles column.column (m.classify arrow))

/-! ## Valid statistics -/

/-- The first column of a table with metaData. -/
def TableStats.firstColumn (tbl : TableStats) : Option KeyColumn :=
  match tbl.schema with
  | .error _ => none
  | .ok schema => keyColumn schema

/-- The values of the first column that are not null. -/
def DataTable.values (t : DataTable σ ρ) : List (Scalar σ) := t.rows.filterMap (·.key)

/-- The statistics of a file are valid: `numRecords` is right when it is present, and whatever is
recorded for the first column (by its name in any case) bounds its values. -/
structure ValidFile (arrow : Arrow σ) (c : KeyColumn) (data : DataTable σ ρ) (e : DeltaLogEntry) :
    Prop where
  hasType : ∀ v ∈ data.values, v.HasType c.type
  numRecords : e.numRecords ≠ -1 → e.numRecords = data.numRows
  min : ∀ name t, (name, t) ∈ e.minColumns.zip e.min → DeltaLogEntry.sameName name c.column = true →
    ValidMin arrow c.type data.values t
  max : ∀ name t, (name, t) ∈ e.maxColumns.zip e.max → DeltaLogEntry.sameName name c.column = true →
    ValidMax arrow c.type data.values t

/-- The live files: path below the base path, and entry. -/
def DeltaLogManager.Live (log : DeltaLogManager) (path : ByteString) (e : DeltaLogEntry) : Prop :=
  (path, e) ∈ log.files ∧ e.operation = .add

/-- A row of a key. -/
def Row.HasKey (arrow : Arrow σ) (c : KeyColumn) (key : ByteString) (r : Row σ ρ) : Prop :=
  ∃ v ∈ r.key, arrow.HasKey c.type key v

instance (arrow : Arrow σ) (c : KeyColumn) (key : ByteString) (r : Row σ ρ) :
    Decidable (r.HasKey arrow c key) :=
  match h : r.key with
  | some v => decidable_of_iff (arrow.HasKey c.type key v)
      ⟨fun hv ↦ ⟨v, h, hv⟩, fun ⟨_, hv', hk⟩ ↦ Option.some.inj (h.symm.trans hv') ▸ hk⟩
  | none => isFalse fun ⟨_, hv, _⟩ ↦ nomatch h.symm.trans hv

/-- The rows of the live files, where `content` is what the files hold. -/
def DeltaLogManager.liveRows (log : DeltaLogManager) (content : ByteString → DataTable σ ρ) :
    List (Row σ ρ) :=
  log.files.flatMap fun e ↦
    if e.2.operation = .add then (content (log.basePath ++ e.1)).rows else []

/-- The statistics of all live files are valid. -/
def TableStats.Valid (arrow : Arrow σ) (c : KeyColumn) (content : ByteString → DataTable σ ρ)
    (tbl : TableStats) : Prop :=
  ∀ path e, tbl.deltaLog.Live path e →
    ValidFile arrow c (content (tbl.deltaLog.basePath ++ path)) e

/-- How `find_key_files` asks for the files of a key. -/
def TableStats.candidates (arrow : Arrow σ) (c : KeyColumn) (key : ByteString) (tbl : TableStats) :
    List (ByteString × KeyMatch) :=
  tbl.deltaLog.findFiles c.column ((KeyMatcher.make arrow c.type key).classify arrow)

section Valid

variable {arrow : Arrow σ} {c : KeyColumn} {data : DataTable σ ρ} {e : DeltaLogEntry}
  {key : ByteString}

theorem DeltaLogEntry.valueOf_mem {columns values : List ByteString} {column t : ByteString}
    (h : valueOf columns values column = some t) :
    ∃ name, (name, t) ∈ columns.zip values ∧ sameName name column = true := by
  simp only [valueOf] at h
  split at h
  · next e he =>
    obtain rfl := Option.some.inj h
    have heq : e.1 = column := by simpa using List.find?_some he
    exact ⟨e.1, List.mem_of_find?_eq_some he, by simp [heq, sameName]⟩
  · obtain ⟨e, he, rfl⟩ := Option.map_eq_some_iff.mp h
    have hsame := List.find?_some he
    exact ⟨e.1, List.mem_of_find?_eq_some he, hsame⟩

theorem ValidFile.validMin (h : ValidFile arrow c data e) :
    ∀ t ∈ e.minOf c.column, ValidMin arrow c.type data.values t := fun t ht ↦ by
  obtain ⟨name, hmem, hsame⟩ := DeltaLogEntry.valueOf_mem ht
  exact h.min name t hmem hsame

theorem ValidFile.validMax (h : ValidFile arrow c data e) :
    ∀ t ∈ e.maxOf c.column, ValidMax arrow c.type data.values t := fun t ht ↦ by
  obtain ⟨name, hmem, hsame⟩ := DeltaLogEntry.valueOf_mem ht
  exact h.max name t hmem hsame

/-- How `find_key_files` classifies a file. -/
def classifyEntry (arrow : Arrow σ) (c : KeyColumn) (key : ByteString) (e : DeltaLogEntry) :
    KeyMatch :=
  KeyMatcher.classify arrow (KeyMatcher.make arrow c.type key) (e.minOf c.column)
    (e.maxOf c.column) e.numRecords

/-- A file with a row of the key is not dropped. -/
theorem ValidFile.classify_ne_none (h : ValidFile arrow c data e) {r : Row σ ρ} (hr : r ∈ data.rows)
    (hkey : r.HasKey arrow c key) : classifyEntry arrow c key e ≠ .none := by
  obtain ⟨v, hv, hkey⟩ := hkey
  have hmem : v ∈ data.values := List.mem_filterMap.mpr ⟨r, hr, hv⟩
  refine KeyMatcher.classify_ne_none h.validMin h.validMax (fun hzero ↦ ?_) hmem hkey
  have hrows := h.numRecords (by omega)
  have hpos : 0 < data.numRows := List.length_pos_of_mem hr
  omega

/-- A file that is reported exact has one row, and the row has the key unless it is null. -/
theorem ValidFile.of_exact (h : ValidFile arrow c data e)
    (hexact : classifyEntry arrow c key e = .exact) :
    ∃ r, data.rows = [r] ∧ (r.key = none ∨ r.HasKey arrow c key) := by
  obtain ⟨hrec, hkeys⟩ := KeyMatcher.hasKey_of_exact h.hasType h.validMin h.validMax hexact
  have hlen : data.rows.length = 1 := by
    have := h.numRecords (by omega)
    rw [DataTable.numRows] at this
    omega
  obtain ⟨r, hr⟩ := List.length_eq_one_iff.mp hlen
  refine ⟨r, hr, ?_⟩
  cases hk : r.key with
  | none => exact .inl rfl
  | some v =>
    have hmem : v ∈ data.values := List.mem_filterMap.mpr ⟨r, hr ▸ List.mem_singleton_self r, hk⟩
    exact .inr ⟨v, hk, hkeys v hmem⟩

/-- The only row of a file is null, though its statistics show one row and the key. -/
def NullShownAsKey (arrow : Arrow σ) (c : KeyColumn) (key : ByteString) (data : DataTable σ ρ)
    (e : DeltaLogEntry) : Prop :=
  (∃ r, data.rows = [r] ∧ r.key = none) ∧ e.numRecords = 1 ∧
    (∃ t ∈ e.minOf c.column, KeyMatcher.Denotes arrow c.type key t) ∧
    ∃ t ∈ e.maxOf c.column, KeyMatcher.Denotes arrow c.type key t

theorem nullShownAsKey_iff : NullShownAsKey arrow c key data e ↔
    (∃ r, data.rows = [r] ∧ r.key = none) ∧ classifyEntry arrow c key e = .exact := by
  rw [classifyEntry, KeyMatcher.classify_eq_exact_iff]
  rfl

/-- Without such a row an exact file has one row, of the key. -/
theorem ValidFile.hasKey_of_exact (h : ValidFile arrow c data e)
    (hexact : classifyEntry arrow c key e = .exact) (hnull : ¬NullShownAsKey arrow c key data e) :
    ∃ r, data.rows = [r] ∧ r.HasKey arrow c key := by
  obtain ⟨r, hr, hkey⟩ := h.of_exact hexact
  refine ⟨r, hr, hkey.resolve_left fun hk ↦ hnull ?_⟩
  exact nullShownAsKey_iff.mpr ⟨⟨r, hr, hk⟩, hexact⟩

/-- The rows that the matcher finds are those of the key. -/
theorem matches_iff {r : Row σ ρ} (htype : ∀ v ∈ r.key, v.HasType c.type)
    (hvalid : (KeyMatcher.make arrow c.type key).valid = true) :
    r.matches arrow (KeyMatcher.make arrow c.type key) = true ↔ r.HasKey arrow c key := by
  unfold Row.matches
  cases hk : r.key with
  | none => exact iff_of_false (by simp) fun ⟨v, hv, _⟩ ↦ nomatch hk.symm.trans hv
  | some v =>
    rw [KeyMatcher.equals_make_iff (htype v hk) hvalid]
    exact ⟨fun h ↦ ⟨v, hk, h⟩, fun ⟨w, hw, h⟩ ↦ Option.some.inj (hk.symm.trans hw) ▸ h⟩

theorem ValidFile.matches_eq (h : ValidFile arrow c data e)
    (hfound : classifyEntry arrow c key e ≠ .none) {r : Row σ ρ} (hr : r ∈ data.rows) :
    r.matches arrow (KeyMatcher.make arrow c.type key) = decide (r.HasKey arrow c key) := by
  have hvalid : (KeyMatcher.make arrow c.type key).valid = true := by
    by_contra hinvalid
    exact hfound (KeyMatcher.classify_of_not_valid (.inl (Bool.eq_false_of_not_eq_true hinvalid)))
  have htype : ∀ v ∈ r.key, v.HasType c.type := fun v hv ↦
    h.hasType v (List.mem_filterMap.mpr ⟨r, hr, hv⟩)
  exact Bool.eq_iff_iff.mpr ((matches_iff htype hvalid).trans decide_eq_true_iff.symm)

theorem ValidFile.filter_matches (h : ValidFile arrow c data e)
    (hfound : classifyEntry arrow c key e ≠ .none) :
    data.rows.filter (·.matches arrow (KeyMatcher.make arrow c.type key)) =
      data.rows.filter (·.HasKey arrow c key) :=
  List.filter_congr fun _ hr ↦ h.matches_eq hfound hr

theorem ValidFile.filter_not_matches (h : ValidFile arrow c data e)
    (hfound : classifyEntry arrow c key e ≠ .none) :
    (data.rows.filter fun r ↦ !r.matches arrow (KeyMatcher.make arrow c.type key)) =
      data.rows.filter fun r ↦ ¬r.HasKey arrow c key :=
  List.filter_congr fun _ hr ↦ by rw [h.matches_eq hfound hr, decide_not]

/-- A file that is dropped has no rows of the key. -/
theorem ValidFile.filter_hasKey (h : ValidFile arrow c data e)
    (hnone : classifyEntry arrow c key e = .none) :
    data.rows.filter (·.HasKey arrow c key) = [] := by
  rw [List.filter_eq_nil_iff]
  intro r hr hkey
  exact h.classify_ne_none hr (of_decide_eq_true hkey) hnone

end Valid

/-! ## The files that are found -/

section Found

variable {arrow : Arrow σ} {c : KeyColumn} {key : ByteString}
  {read : ByteString → Option (DataTable σ ρ)} {content : ByteString → DataTable σ ρ}
  {tbl : TableStats} {readExact : Bool} {skipUpdate : Option ℕ} {files : List (KeyFile σ ρ)}

/-- What `find_key_files` makes of an entry of the snapshot whose file holds `data`. -/
def keyFileAt (arrow : Arrow σ) (c : KeyColumn) (key : ByteString) (readExact : Bool)
    (created : List (ByteString × FileStats)) (skipUpdate : Option ℕ) (path : ByteString)
    (data : DataTable σ ρ) (e : DeltaLogEntry) : Option (KeyFile σ ρ) :=
  if e.operation = .add ∧ skipped created skipUpdate path = false ∧
      classifyEntry arrow c key e ≠ .none then
    keyFileOf arrow (KeyMatcher.make arrow c.type key) readExact path (classifyEntry arrow c key e)
      data
  else none

theorem findFiles_classify (log : DeltaLogManager) :
    log.findFiles c.column ((KeyMatcher.make arrow c.type key).classify arrow) =
      log.files.filterMap fun e ↦
        if e.2.operation = .add ∧ classifyEntry arrow c key e.2 ≠ .none then
          some (log.basePath ++ e.1, classifyEntry arrow c key e.2)
        else none := by
  apply List.filterMap_congr
  rintro ⟨path, e⟩ -
  change (if e.operation ≠ .add then none
    else if classifyEntry arrow c key e ≠ .none then
      some (log.basePath ++ path, classifyEntry arrow c key e)
    else none) = _
  by_cases hadd : e.operation = .add
  · rw [if_neg (not_not.mpr hadd)]
    simp only [hadd, true_and]
  · rw [if_pos hadd, if_neg fun h ↦ hadd h.1]

theorem mem_candidates {candidate : ByteString × KeyMatch}
    (h : candidate ∈ tbl.candidates arrow c key) :
    ∃ q e, tbl.deltaLog.Live q e ∧ candidate.1 = tbl.deltaLog.basePath ++ q := by
  rw [TableStats.candidates, findFiles_classify] at h
  obtain ⟨⟨q, e⟩, hmem, he⟩ := List.mem_filterMap.mp h
  split at he
  · next hfound =>
    obtain rfl := Option.some.inj he
    exact ⟨q, e, ⟨hmem, hfound.1⟩, rfl⟩
  · cases he

/-- With metaData `find_key_files` runs through the candidates. -/
theorem findKeyFiles_of_firstColumn (hcol : tbl.firstColumn = some c) :
    findKeyFiles arrow read tbl key readExact skipUpdate =
      keyFilesLoop arrow (KeyMatcher.make arrow c.type key) read tbl.createdFiles readExact skipUpdate
        (tbl.candidates arrow c key) := by
  unfold TableStats.firstColumn at hcol
  unfold findKeyFiles
  split at hcol
  · cases hcol
  · simp only [hcol]
    rfl

/-- The files that `find_key_files` returns, entry by entry of the snapshot. -/
theorem findKeyFiles_eq (hcol : tbl.firstColumn = some c)
    (hread : ∀ path, ∀ data ∈ read path, data = content path)
    (h : findKeyFiles arrow read tbl key readExact skipUpdate = some files) :
    files = tbl.deltaLog.files.filterMap fun e ↦
      keyFileAt arrow c key readExact tbl.createdFiles skipUpdate (tbl.deltaLog.basePath ++ e.1)
        (content (tbl.deltaLog.basePath ++ e.1)) e.2 := by
  rw [findKeyFiles_of_firstColumn hcol] at h
  rw [keyFilesLoop_eq (fun c _ ↦ hread c.1) h, TableStats.candidates, findFiles_classify,
    List.filter_filterMap, List.filterMap_filterMap]
  apply List.filterMap_congr
  rintro ⟨path, e⟩ -
  unfold keyFileAt
  by_cases hfound : e.operation = .add ∧ classifyEntry arrow c key e ≠ .none
  · simp only [if_pos hfound]
    cases hskip : skipped tbl.createdFiles skipUpdate (tbl.deltaLog.basePath ++ path) with
    | true =>
      rw [Option.filter_some_neg (by simp [hskip]), if_neg (by simp)]
      rfl
    | false =>
      rw [Option.filter_some_pos (by simp [hskip]), if_pos ⟨hfound.1, rfl, hfound.2⟩]
      rfl
  · rw [if_neg hfound, if_neg fun h ↦ hfound ⟨h.1, h.2.2⟩]
    rfl

theorem keyFileAt_eq_some {created : List (ByteString × FileStats)} {path : ByteString}
    {data : DataTable σ ρ} {e : DeltaLogEntry} {f : KeyFile σ ρ}
    (h : keyFileAt arrow c key readExact created skipUpdate path data e = some f) :
    e.operation = .add ∧ f.path = path := by
  rw [keyFileAt] at h
  split at h
  · next hfound =>
    refine ⟨hfound.1, ?_⟩
    rw [keyFileOf] at h
    dsimp only at h
    split_ifs at h
    · exact (Option.some.inj h) ▸ rfl
    · exact (Option.some.inj h) ▸ rfl
  · cases h

theorem findFileWithStats_live {log : DeltaLogManager} {pos : ℕ}
    (h : log.findFileWithStats pos key ≠ []) :
    ∃ p e, log.Live p e ∧ log.findFileWithStats pos key = log.basePath ++ p := by
  unfold DeltaLogManager.findFileWithStats at h ⊢
  dsimp only at h ⊢
  split
  · next p e hfind =>
    rw [hfind] at h
    have hstats := List.find?_some hfind
    refine ⟨p, e, ⟨List.mem_of_find?_eq_some hfind, (of_decide_eq_true hstats).1⟩,
      if_neg fun hp ↦ h ?_⟩
    exact if_pos hp
  · next hfind =>
    rw [hfind] at h
    exact absurd rfl h

/-- The files that are found are live. -/
theorem findKeyFiles_live (h : findKeyFiles arrow read tbl key false skipUpdate = some files)
    {f : KeyFile σ ρ} (hf : f ∈ files) :
    ∃ p e, tbl.deltaLog.Live p e ∧ f.path = tbl.deltaLog.basePath ++ p := by
  cases hcol : tbl.firstColumn with
  | some c =>
    have hread : ∀ path, ∀ data ∈ read path, data = (read path).getD ⟨[]⟩ := fun path data hd ↦ by
      rw [Option.mem_def.mp hd, Option.getD_some]
    rw [findKeyFiles_eq hcol hread h] at hf
    obtain ⟨e, he, hf⟩ := List.mem_filterMap.mp hf
    obtain ⟨hadd, hpath⟩ := keyFileAt_eq_some hf
    exact ⟨e.1, e.2, ⟨he, hadd⟩, hpath⟩
  | none =>
    unfold TableStats.firstColumn at hcol
    unfold findKeyFiles at h
    split at hcol
    · next hschema =>
      rw [hschema] at h
      cases h
    · next schema hschema =>
      rw [hschema] at h
      simp only [hcol, Bool.false_eq_true, if_false] at h
      obtain rfl := Option.some.inj h
      split at hf
      · cases hf
      · next hne =>
        obtain rfl := List.mem_singleton.mp hf
        obtain ⟨p, e, hlive, hpath⟩ := findFileWithStats_live hne
        exact ⟨p, e, hlive, hpath⟩

/-! ### Their rows -/

/-- The rows of the key that `find_key_files` found in a file. -/
def KeyFile.keyRows (f : KeyFile σ ρ) : List (Row σ ρ) :=
  match f.data with
  | some data => (selectRows data f.rows).rows
  | none => []

/-- The combined rows are those of the files one after the other. -/
theorem keyRows_rows (files : List (KeyFile σ ρ)) :
    ((Keys.keyRows files).map (·.rows)).getD [] = files.flatMap KeyFile.keyRows := by
  have hparts : ∀ files : List (KeyFile σ ρ),
      (files.filterMap fun f ↦ f.data.map (selectRows · f.rows)).flatMap (·.rows) =
        files.flatMap KeyFile.keyRows := by
    intro files
    induction files with
    | nil => rfl
    | cons f files ih =>
      rw [List.filterMap_cons, List.flatMap_cons, KeyFile.keyRows, ← ih]
      cases f.data <;> rfl
  rw [← hparts, Keys.keyRows]
  split
  · next h => rw [h]; rfl
  · next part h => simp [h]
  · simp [DataTable.rows, List.flatMap_def, List.flatten_flatten, Function.comp_def]

end Found

end LakeVilla.Keys

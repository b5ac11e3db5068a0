import LakeVilla.Keys.Lookup
import Mathlib.Logic.Function.Basic

/-!
# Removing the rows of a key

`remove_file` with a key drops the files whose rows all have the key; of the other files with rows
of the key it writes the rest to a new file. With explicit logging this happens at once; otherwise
it is left to the redo at commit.

Sublog steps are left out: they do not change the table, and whether they are written is not looked
at.
-/

namespace LakeVilla.Keys

variable {σ ρ : Type}

/-! ## Registering files -/

namespace TableStats

/-- The entry of a created file: the statistics by column name. -/
def createdEntry (stats : FileStats) : DeltaLogEntry :=
  let columns := stats.stats.columns.filter (·.hasMinMax)
  { operation := .add
    min := columns.map (·.min)
    max := columns.map (·.max)
    minColumns := columns.map (·.name)
    maxColumns := columns.map (·.name)
    numRecords := stats.stats.numRecords }

/-- `created_files` and `deleted_files` in `register_created_file` -/
def noteCreated (tbl : TableStats) (stats : FileStats) : TableStats :=
  { tbl with
    createdFiles := AssocList.insertOrAssign tbl.createdFiles stats.path stats
    deletedFiles := AssocList.modify tbl.deletedFiles stats.path ({ · with valid := false }) }

/-- The snapshot in `register_created_file` -/
def logCreated (tbl : TableStats) (stats : FileStats) (overwrite : Bool) : TableStats :=
  { tbl with
    deltaLog := tbl.deltaLog.registerOperation .add stats.path (createdEntry stats) overwrite }

/-- `register_created_file` -/
def registerCreatedFile (tbl : TableStats) (stats : FileStats) (overwrite : Bool) : TableStats :=
  (tbl.noteCreated stats).logCreated stats overwrite

/-- `deleted_files` and `created_files` in `register_deleted_file`, where `size` is the size of the
file in the snapshot. -/
def noteDeleted (tbl : TableStats) (path : ByteString) (size : ℤ) : TableStats :=
  { tbl with
    deletedFiles :=
      AssocList.insertOrAssign tbl.deletedFiles path { path := path, size := size }
    createdFiles := AssocList.modify tbl.createdFiles path ({ · with valid := false }) }

/-- The snapshot in `register_deleted_file` -/
def logDeleted (tbl : TableStats) (path : ByteString) : TableStats :=
  { tbl with
    deltaLog := tbl.deltaLog.registerOperation .delete path { operation := .delete } false }

/-- `register_deleted_file` -/
def registerDeletedFile (tbl : TableStats) (path : ByteString) : TableStats :=
  (tbl.noteDeleted path (tbl.deltaLog.getSize path)).logDeleted path

/-- The path of a file below the table's path. -/
def fullPath (tbl : TableStats) (own : ByteString) : ByteString := tbl.deltaLog.basePath ++ own

end TableStats

/-! ### The snapshot after a registration -/

namespace DeltaLogManager

variable {log : DeltaLogManager} {p path : ByteString} {op : DLOperation} {entry : DeltaLogEntry}
  {overwrite : Bool}

@[simp]
theorem relative_append (log : DeltaLogManager) (p : ByteString) :
    log.relative (log.basePath ++ p) = p := by
  rw [relative, relativePath, if_pos (List.prefix_append _ _), List.drop_left]

@[simp]
theorem registerOperation_basePath :
    (log.registerOperation op path entry overwrite).basePath = log.basePath := rfl

theorem lookup_registerOperation_self {e : DeltaLogEntry}
    (h : log.files.lookup (log.relative path) = some e) :
    (log.registerOperation op path entry overwrite).files.lookup (log.relative path) =
      some (e.update op overwrite) := by
  simp only [registerOperation, AssocList.lookup_insertOrAssign, h, if_true]

theorem lookup_registerOperation_of_ne (h : p ≠ log.relative path) :
    (log.registerOperation op path entry overwrite).files.lookup p = log.files.lookup p := by
  simp only [registerOperation, AssocList.lookup_insertOrAssign, if_neg h]

theorem live_iff_lookup {e : DeltaLogEntry} :
    log.Live p e ↔ log.files.lookup p = some e ∧ e.operation = .add :=
  ⟨fun h ↦ ⟨AssocList.lookup_of_mem log.nodup h.1, h.2⟩,
    fun h ↦ ⟨AssocList.mem_of_lookup h.1, h.2⟩⟩

theorem live_registerOperation_of_ne {e : DeltaLogEntry} (h : p ≠ log.relative path) :
    (log.registerOperation op path entry overwrite).Live p e ↔ log.Live p e := by
  rw [live_iff_lookup, live_iff_lookup, lookup_registerOperation_of_ne h]

theorem mem_getList : p ∈ log.getList ↔ ∃ e, log.Live p e := by
  simp only [getList, List.mem_map, List.mem_filter, decide_eq_true_eq, Live]
  constructor
  · rintro ⟨⟨p, e⟩, he, rfl⟩
    exact ⟨e, he⟩
  · rintro ⟨e, he⟩
    exact ⟨(p, e), he, rfl⟩

/-- A file that was removed. -/
def Deleted (log : DeltaLogManager) (p : ByteString) : Prop :=
  ∃ e, log.files.lookup p = some e ∧ e.operation = .delete

theorem Deleted.not_mem_getList (h : log.Deleted p) : p ∉ log.getList := by
  intro hmem
  obtain ⟨e, he⟩ := mem_getList.mp hmem
  obtain ⟨hlookup, hadd⟩ := live_iff_lookup.mp he
  obtain ⟨e', hlookup', hdelete⟩ := h
  obtain rfl := Option.some.inj (hlookup.symm.trans hlookup')
  cases hadd.symm.trans hdelete

end DeltaLogManager

/-- A remove beats what comes later, unless it is overwritten. -/
theorem DeltaLogEntry.update_of_delete {e : DeltaLogEntry} (h : e.operation = .delete)
    (op : DLOperation) : e.update op false = e := by
  simp only [update, h, Bool.false_eq_true, if_false]

theorem DeltaLogEntry.update_add {e : DeltaLogEntry} (h : e.operation = .add) :
    e.update .add false = e := by
  simp only [update, h, Bool.false_eq_true, if_false]

theorem DeltaLogEntry.update_delete {e : DeltaLogEntry} (h : e.operation = .add) :
    e.update .delete false = { e with operation := .delete } := by
  simp only [update, h, Bool.false_eq_true, if_false]

namespace DeltaLogManager

variable {log : DeltaLogManager} {p path : ByteString} {op : DLOperation} {entry : DeltaLogEntry}

/-- A live file that is registered again stays as it is. -/
theorem Live.registerAdd {e : DeltaLogEntry} (h : log.Live p e) :
    (log.registerOperation .add path entry false).Live p e := by
  obtain ⟨hlookup, hadd⟩ := live_iff_lookup.mp h
  refine live_iff_lookup.mpr ⟨?_, hadd⟩
  by_cases hp : p = log.relative path
  · subst hp
    rw [lookup_registerOperation_self hlookup, e.update_add hadd]
  · rw [lookup_registerOperation_of_ne hp, hlookup]

theorem Live.registerDelete {e : DeltaLogEntry} (h : log.Live p e)
    (hpath : path = log.basePath ++ p) :
    (log.registerOperation .delete path entry false).Deleted p := by
  obtain ⟨hlookup, hadd⟩ := live_iff_lookup.mp h
  subst hpath
  refine ⟨e.update .delete false, ?_, by rw [e.update_delete hadd]⟩
  have hrel : log.files.lookup (log.relative (log.basePath ++ p)) = some e := by
    rw [relative_append, hlookup]
  have hself : (log.registerOperation .delete (log.basePath ++ p) entry false).files.lookup
      (log.relative (log.basePath ++ p)) = some (e.update .delete false) :=
    lookup_registerOperation_self hrel
  rwa [relative_append] at hself

/-- A removed file stays removed. -/
theorem Deleted.registerOperation (h : log.Deleted p) :
    (log.registerOperation op path entry false).Deleted p := by
  obtain ⟨e, he, hdelete⟩ := h
  by_cases hp : p = log.relative path
  · subst hp
    refine ⟨e, ?_, hdelete⟩
    rw [lookup_registerOperation_self he, e.update_of_delete hdelete]
  · exact ⟨e, (lookup_registerOperation_of_ne hp).trans he, hdelete⟩

end DeltaLogManager

/-! ## The operation -/

/-- What an operation takes from outside of the transaction. -/
structure Outside (σ ρ : Type) where
  arrow : Arrow σ
  /-- `conform_for_write` -/
  conform : DataTable σ ρ → Option (DataTable σ ρ)
  /-- `computeStatistics` -/
  statistics : DataTable σ ρ → TableStatistics
  /-- the length of a table in Parquet -/
  encodedSize : DataTable σ ρ → ℤ
  /-- the names of new data files, in the order in which they are asked for -/
  newName : ℕ → ByteString
  /-- the data files that can be read -/
  canRead : ByteString → Bool
  /-- the data files that can be written -/
  canWrite : ByteString → Bool

/-- A table in a transaction, with its data files. -/
structure State (σ ρ : Type) where
  table : TableStats
  stored : ByteString → Option (DataTable σ ρ)
  /-- how many names of new data files were asked for -/
  asked : ℕ := 0

namespace State

/-- `read_data_file` -/
def readDataFile (out : Outside σ ρ) (st : State σ ρ) (path : ByteString) :
    Option (DataTable σ ρ) :=
  if out.canRead path then st.stored path else none

/-- `new_data_file_path`, for the `n`-th name -/
def newDataFilePath (out : Outside σ ρ) (st : State σ ρ) (n : ℕ) : ByteString :=
  st.table.fullPath (out.newName n)

end State

/-- The rows of a file that are not the key's, as they are written. -/
def KeyFile.rest (out : Outside σ ρ) (f : KeyFile σ ρ) : Option (DataTable σ ρ) :=
  f.data.bind fun data ↦ out.conform (selectRows data (otherRows data.numRows f.rows))

/-- The file is removed. -/
def State.drop (st : State σ ρ) (f : KeyFile σ ρ) : State σ ρ :=
  { st with table := st.table.registerDeletedFile f.path }

/-- What is known of the next new file, with some rows. -/
def State.createdStats (out : Outside σ ρ) (st : State σ ρ) (rows : DataTable σ ρ) : FileStats where
  path := st.newDataFilePath out st.asked
  size := out.encodedSize rows
  stats := out.statistics rows

/-- A new file with some rows. -/
def State.create (out : Outside σ ρ) (st : State σ ρ) (rows : DataTable σ ρ) : State σ ρ where
  table := st.table.registerCreatedFile (st.createdStats out rows) false
  stored := Function.update st.stored (st.newDataFilePath out st.asked) (some rows)
  asked := st.asked + 1

/-- The file is removed and its other rows stand in a new file. -/
def State.rewrite (out : Outside σ ρ) (st : State σ ρ) (f : KeyFile σ ρ) (rest : DataTable σ ρ) :
    State σ ρ :=
  let path := st.newDataFilePath out st.asked
  let stats : FileStats :=
    { path := path, size := out.encodedSize rest, stats := out.statistics rest }
  { table := (st.table.registerCreatedFile stats false).registerDeletedFile f.path
    stored := Function.update st.stored path (some rest)
    asked := st.asked + 1 }

/-- `remove_key_rows` -/
def removeKeyRows (out : Outside σ ρ) (st : State σ ρ) (f : KeyFile σ ρ) : Bool × State σ ρ :=
  if f.allRows then (true, st.drop f)
  else
    -- the other rows of the file stay: they are written to a new file
    match f.rest out with
    | none => (false, st)
    | some rest =>
      if out.canWrite (st.newDataFilePath out st.asked) then (true, st.rewrite out f rest)
      else (false, { st with asked := st.asked + 1 })

/-- The loop of `remove_file` over the found files. -/
def removeLoop (out : Outside σ ρ) : List (KeyFile σ ρ) → State σ ρ → Bool × State σ ρ
  | [], st => (true, st)
  | f :: files, st =>
    match removeKeyRows out st f with
    | (true, st) => removeLoop out files st
    | (false, st) => (false, st)

/-- What `remove_file` returns. -/
structure Removal (σ ρ : Type) where
  ok : Bool
  /-- `path_ptr` -/
  path : ByteString
  state : State σ ρ

/-- `remove_file` with a key and the update `prev` it is part of. -/
def removeFile (out : Outside σ ρ) (explicitLog : Bool) (st : State σ ρ) (key : ByteString)
    (prev : Option ℕ) : Removal σ ρ :=
  match findKeyFiles out.arrow (st.readDataFile out) st.table key false prev with
  | none => { ok := false, path := [], state := st }
  | some [] => { ok := false, path := [], state := st }
  | some (f :: files) =>
    if explicitLog then
      let result := removeLoop out (f :: files) st
      { ok := result.1, path := f.path, state := result.2 }
    -- executed at commit
    else { ok := true, path := f.path, state := st }

/-! ## What one file does -/

section Step

variable {out : Outside σ ρ} {st : State σ ρ} {f : KeyFile σ ρ}

/-- The rest of a file cannot be written, when the `n`-th name is asked for. -/
def CannotRewrite (out : Outside σ ρ) (st : State σ ρ) (n : ℕ) (f : KeyFile σ ρ) : Prop :=
  f.allRows = false ∧
    ∀ rest, f.rest out = some rest → out.canWrite (st.newDataFilePath out n) = false

theorem removeKeyRows_cases (out : Outside σ ρ) (st : State σ ρ) (f : KeyFile σ ρ) :
    (f.allRows = true ∧ removeKeyRows out st f = (true, st.drop f)) ∨
      (f.allRows = false ∧ ∃ rest, f.rest out = some rest ∧
        out.canWrite (st.newDataFilePath out st.asked) = true ∧
        removeKeyRows out st f = (true, st.rewrite out f rest)) ∨
      CannotRewrite out st st.asked f ∧
        ∃ asked, removeKeyRows out st f = (false, { st with asked := asked }) := by
  unfold removeKeyRows CannotRewrite
  cases hall : f.allRows with
  | true => exact .inl ⟨rfl, rfl⟩
  | false =>
    simp only [Bool.false_eq_true, if_false]
    cases hrest : f.rest out with
    | none => exact .inr (.inr ⟨⟨trivial, fun _ h ↦ nomatch h⟩, st.asked, rfl⟩)
    | some rest =>
      cases hwrite : out.canWrite (st.newDataFilePath out st.asked) with
      | true => exact .inr (.inl ⟨trivial, rest, rfl, rfl, rfl⟩)
      | false => exact .inr (.inr ⟨⟨trivial, fun _ _ ↦ rfl⟩, st.asked + 1, rfl⟩)

theorem removeKeyRows_fst :
    (removeKeyRows out st f).1 = false ↔ CannotRewrite out st st.asked f := by
  rcases removeKeyRows_cases out st f with
    ⟨hall, h⟩ | ⟨-, rest, hrest, hwrite, h⟩ | ⟨hc, asked, h⟩
  · simp [h, CannotRewrite, hall]
  · rw [h]
    refine iff_of_false (fun h ↦ nomatch h) fun hc ↦ ?_
    cases hwrite.symm.trans (hc.2 rest hrest)
  · simp [h, hc]

/-- How many of some files have other rows, and need a new file. -/
def rewrites (files : List (KeyFile σ ρ)) : ℕ := (files.filter fun f ↦ !f.allRows).length

/-- A file that is removed takes a name if it has other rows. -/
theorem removeKeyRows_true {st' : State σ ρ} (h : removeKeyRows out st f = (true, st')) :
    st'.asked = st.asked + rewrites [f] ∧
      st'.table.deltaLog.basePath = st.table.deltaLog.basePath := by
  rcases removeKeyRows_cases out st f with ⟨hall, hf⟩ | ⟨hall, rest, -, -, hf⟩ | ⟨-, asked, hf⟩
  · obtain ⟨-, rfl⟩ := Prod.mk.inj (hf.symm.trans h)
    exact ⟨by simp [rewrites, hall, State.drop], rfl⟩
  · obtain ⟨-, rfl⟩ := Prod.mk.inj (hf.symm.trans h)
    exact ⟨by simp [rewrites, hall, State.rewrite], rfl⟩
  · cases hf.symm.trans h

end Step

end LakeVilla.Keys

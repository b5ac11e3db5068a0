import LakeVilla.Transaction.State

/-!
# The operations of a transaction and their redo

Every operation of the user is logged in the transaction's sublog (level 0). With *explicit*
logging it also takes effect at once: files are registered as created or deleted and merged into
the snapshot. Once a running marker was seen, logging is *implicit*: operations by key are only
logged, and `redo` executes the sublog at commit time against the newest snapshot.

Operations touch the transaction's own sublog and data files under fresh names only, so no other
client can observe or disturb them: they are functions on the state of the transaction.
-/

namespace LakeVilla

namespace Txn

/-! ## The sublog -/

/-- `SubOpType` -/
inductive SubOpType
  | read
  | add
  | delete
  deriving DecidableEq, Repr

def logStep (t : Txn) (i : ℕ) (step : SublogStep) : Txn :=
  { t with sublog := t.sublog ++ [(i, step)] }

/-- `add_substep_explicit` -/
def addSubstepExplicit (t : Txn) (type : SubOpType) (i : ℕ) (file : DataFile) : Txn :=
  match type with
  | .read => t.logStep i (.r file)
  | .add => t.logStep i (.a file)
  | .delete => t.logStep i (.d file)

/-- `add_substep_implicit`; `update_vals.size() - 1` is an unsigned difference. -/
def addSubstepImplicit (t : Txn) (type : SubOpType) (i : ℕ) (file : DataFile) (key : Option Text) :
    Txn :=
  match type, key with
  | .read, some key => t.logStep i (.s key)
  | .read, none => t.logStep i (.r file)
  | .add, some _ =>
    t.logStep i (.e (if t.updateVals.isEmpty then 2 ^ 64 - 1 else t.updateVals.length - 1))
  | .add, none => t.logStep i (.a file)
  | .delete, some _ => t.logStep i .dFound
  | .delete, none => t.logStep i (.d file)

/-- `add_substep` -/
def addSubstep (t : Txn) (type : SubOpType) (i : ℕ) (file : DataFile) (key : Option Text) : Txn :=
  if t.cfg.levels.l0 then
    if t.explicitLog then t.addSubstepExplicit type i file
    else t.addSubstepImplicit type i file key
  else t

/-- `log_add_substep` -/
def logAddSubstep (t : Txn) (i : ℕ) (file : DataFile) (prev : Option ℕ) : Txn :=
  t.addSubstep .add i file (prev.map (Nat.toDigits 10))

/-- `log_delete_substep` -/
def logDeleteSubstep (t : Txn) (i : ℕ) (file : DataFile) (prev : Option ℕ) : Txn :=
  t.addSubstep .delete i file (prev.map (Nat.toDigits 10))

/-! ## Local changes -/

def modifyTable (t : Txn) (i : ℕ) (f : TableStats → TableStats) : Txn :=
  { t with tables := t.tables.modify i f }

end Txn

namespace TableStats

/-- `register_created_file` -/
def registerCreatedFile (tbl : TableStats) (file : DataFile) (stats : FileStats)
    (overwrite : Bool) : TableStats :=
  { tbl with
    createdFiles := AssocList.insertOrAssign tbl.createdFiles file stats
    deletedFiles := AssocList.modify tbl.deletedFiles file fun s ↦ { s with valid := false }
    deltaLog := tbl.deltaLog.registerOperation .add file ⟨.add, -1, -1⟩ overwrite }

/-- `register_deleted_file` -/
def registerDeletedFile (tbl : TableStats) (file : DataFile) : TableStats :=
  { tbl with
    deletedFiles := AssocList.insertOrAssign tbl.deletedFiles file
      { size := tbl.deltaLog.getSize file }
    createdFiles := AssocList.modify tbl.createdFiles file fun s ↦ { s with valid := false }
    deltaLog := tbl.deltaLog.registerOperation .delete file ⟨.delete, -1, -1⟩ false }

/-- `find_key_files`: the live files with rows of the key, except the files the transaction wrote
for the update `skip`. The statistics only save reading files without such rows. -/
def findKeyFiles (tbl : TableStats) (key : Text) (skip : Option ℕ) : List DataFile :=
  tbl.deltaLog.getList.filter fun f ↦
    !(skip.isSome && (tbl.createdFiles.lookup f).any fun s ↦ s.updateId = skip) &&
      !(f.rowsOf key).isEmpty

end TableStats

namespace Txn

/-- `new_data_file_path` together with the rows written there. -/
def newDataFile (t : Txn) (tbl : TableStats) (rows : List Row) : DataFile × Txn :=
  (⟨some t.transactionId, t.nextFile, rows, t.cfg.foundIn tbl.basePath⟩,
    { t with nextFile := t.nextFile + 1 })

/-- Writes rows as a new data file of table `i` (`write_rows` of the redo). -/
def writeRows (t : Txn) (i : ℕ) (tbl : TableStats) (rows : List Row) (updateId : Option ℕ) : Txn :=
  let (file, t) := t.newDataFile tbl rows
  t.modifyTable i fun tbl ↦
    tbl.registerCreatedFile file { size := t.cfg.encodedSize rows, updateId := updateId } false

/-- `remove_key_rows`: the file is removed; its rows of other keys are written to a new file. -/
def removeKeyRows (t : Txn) (i : ℕ) (file : DataFile) (key : Text) (prev : Option ℕ) (log : Bool) :
    Txn :=
  match t.tables[i]? with
  | none => t
  | some tbl =>
    let rest := file.otherRows key
    let t :=
      if rest.isEmpty then t
      else
        let (path, t) := t.newDataFile tbl rest
        let t := if log then t.logAddSubstep i path none else t
        t.modifyTable i fun tbl ↦
          tbl.registerCreatedFile path { size := t.cfg.encodedSize rest } false
    let t := if log then t.logDeleteSubstep i file prev else t
    t.modifyTable i fun tbl ↦ tbl.registerDeletedFile file

/-! ## Operations of the user

Each returns whether it succeeded. -/

/-- `get_table_for_read` -/
def getTableForRead (t : Txn) (i : ℕ) : Txn :=
  t.modifyTable i fun tbl ↦ { tbl with wasRead := true }

/-- `read_file_as_table` -/
def readFileAsTable (t : Txn) (i : ℕ) (key : Text) : Bool × Txn :=
  match t.tables[i]? with
  | none => (false, t)
  | some tbl =>
    let t := t.getTableForRead i
    match tbl.findKeyFiles key none with
    | [] => (false, t)
    | file :: _ => (true, t.addSubstep .read i file (some key))

/-- `add_file` with the path of a file -/
def addFilePath (t : Txn) (i : ℕ) (file : DataFile) (overwrite : Bool) (prev : Option ℕ)
    (listed : ℤ) : Bool × Txn :=
  match t.tables[i]? with
  | none => (false, t)
  | some tbl =>
    let t := t.logAddSubstep i file prev
    if t.explicitLog || prev.isNone then
      let size := if tbl.deltaLog.getSize file < 0 then listed else tbl.deltaLog.getSize file
      if size < 0 then (false, t)
      else (true, t.modifyTable i fun tbl ↦
        tbl.registerCreatedFile file { size := size } overwrite)
    else (true, t)

/-- `add_file` with rows -/
def addFileRows (t : Txn) (i : ℕ) (rows : List Row) (prev : Option ℕ) : Bool × Txn :=
  match t.tables[i]? with
  | none => (false, t)
  | some tbl =>
    let (file, t) := t.newDataFile tbl rows
    let t := t.logAddSubstep i file prev
    if t.explicitLog || prev.isNone then
      (true, t.modifyTable i fun tbl ↦
        tbl.registerCreatedFile file { size := t.cfg.encodedSize rows, updateId := prev } false)
    else (true, t)

/-- `remove_file` with a path -/
def removeFilePath (t : Txn) (i : ℕ) (file : DataFile) (prev : Option ℕ) : Bool × Txn :=
  match t.tables[i]? with
  | none => (false, t)
  | some _ =>
    let t := t.logDeleteSubstep i file prev
    (true, if t.explicitLog then t.modifyTable i fun tbl ↦ tbl.registerDeletedFile file else t)

/-- `remove_file` with a key -/
def removeFileKey (t : Txn) (i : ℕ) (key : Text) (prev : Option ℕ) : Bool × Txn :=
  match t.tables[i]? with
  | none => (false, t)
  | some tbl =>
    let t := t.getTableForRead i
    match tbl.findKeyFiles key prev with
    | [] => (false, t)
    | file :: files =>
      if t.explicitLog then
        (true, (file :: files).foldl (fun t f ↦ t.removeKeyRows i f key prev true) t)
      else
        -- executed at commit: the redo searches the key again and removes its rows
        (true, (t.addSubstep .read i file (some key)).logDeleteSubstep i file prev)

/-- `register_update_pairs(values)` -/
def registerUpdateValues (t : Txn) (values : List UpdatePair) : ℕ × Txn :=
  (t.updateVals.length, { t with updateVals := t.updateVals ++ [values] })

/-- `register_update_pairs(values, op, impl)` -/
def registerUpdatePairs (t : Txn) (values : List UpdatePair) (op : UpdateOperations)
    (impl : List UpdatePair) : ℕ × Txn :=
  (t.updateVals.length,
    if t.explicitLog then { t with updateVals := t.updateVals ++ [values] }
    else
      { t with
        updateVals := t.updateVals ++ [impl]
        updateOps := t.updateOps ++ [op] })

/-! ## Redo -/

/-- The first line of a text: what `redo` keeps of a sublog entry. -/
def firstLine (text : Text) : Text := text.takeWhile (· ≠ '\n')

/-- `remove_found_rows`: the rows of the searched key are removed from their files once. -/
def removeFoundRows (t : Txn) (i : ℕ) : Txn :=
  t.foundFiles.foldl (fun t (f, key) ↦
    if f ∈ t.retiredFiles then t
    else { t with retiredFiles := f :: t.retiredFiles }.removeKeyRows i f key none false) t

/-- `key_rows`: the rows of the searched key; `none` if no file has any. -/
def keyRows (t : Txn) : Option (List Row) :=
  if t.foundFiles.isEmpty then none else some (t.foundFiles.flatMap fun (f, key) ↦ f.rowsOf key)

/-- The `a` step for a path: REDO of an add, UNDO of a remove. -/
def toggleAdd (tbl : TableStats) (file : DataFile) : TableStats :=
  { tbl with
    deltaLog := tbl.deltaLog.registerOperation .add file ⟨.add, -1, -1⟩ true
    createdFiles := AssocList.modify tbl.createdFiles file fun s ↦ { s with valid := true }
    deletedFiles := AssocList.modify tbl.deletedFiles file fun s ↦ { s with valid := false } }

/-- The `d` step for a path: REDO of a remove, UNDO of an add. -/
def toggleDelete (tbl : TableStats) (file : DataFile) : TableStats :=
  { tbl with
    deltaLog := tbl.deltaLog.registerOperation .delete file ⟨.delete, -1, -1⟩ true
    createdFiles := AssocList.modify tbl.createdFiles file fun s ↦ { s with valid := false }
    deletedFiles := AssocList.modify tbl.deletedFiles file fun s ↦ { s with valid := true } }

/-- `execute_reroll_step`; `false` if the step fails. -/
def executeRerollStep (t : Txn) (i : ℕ) (step : SublogStep) : Bool × Txn :=
  match t.tables[i]? with
  | none => (false, t)
  | some tbl =>
    match step with
    | .r _ => (true, t)
    | .s key =>
      (true,
        { t with
          foundFiles := (tbl.findKeyFiles (firstLine key) none).map fun f ↦ (f, firstLine key)
          retiredFiles := [] })
    | .a file =>
      match file.found with
      | none => (true, t.modifyTable i fun tbl ↦ toggleAdd tbl file)
      | some none => (false, t)
      | some (some idx) =>
        match t.updateVals[idx]?, t.keyRows with
        | some values, some rows =>
          (true, t.writeRows i tbl (rows.map (updateRow t.cfg.floatArith .rep values)) none)
        | _, _ => (false, t)
    | .e idx =>
      match t.updateVals[idx]?, t.updateOps[idx]?, t.keyRows with
      | some values, some op, some rows =>
        -- the updated rows replace those of the key in the old files
        (true, (t.writeRows i tbl (rows.map (updateRow t.cfg.floatArith op values)) none
          ).removeFoundRows i)
      | _, _, _ => (false, t)
    | .dFound => (true, t.removeFoundRows i)
    | .d file =>
      match file.found with
      | none => (true, t.modifyTable i fun tbl ↦ toggleDelete tbl file)
      | some _ => (true, t.removeFoundRows i)

/-- `redo(1)`: executes the sublog in order and stops at the first step that fails. -/
def redoSteps : List (ℕ × SublogStep) → Txn → Bool × Txn
  | [], t => (true, t)
  | (i, step) :: steps, t =>
    match t.executeRerollStep i step with
    | (true, t) => redoSteps steps t
    | (false, t) => (false, t)

/-- `redo(1)` -/
def redo (t : Txn) : Bool × Txn := redoSteps t.sublog t

end Txn

end LakeVilla

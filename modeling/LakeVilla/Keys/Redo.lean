import LakeVilla.Keys.RemovalRun
import LakeVilla.Sublog.Lines

/-!
# Redo steps on the rows of a key

With implicit logging the rows of a key are removed and updated at commit: `execute_reroll_step`
searches the key in the newest snapshot, keeps the files that it finds, and later steps refer to
them. A file that was found is removed once; the removal and the update share this.

Updates need the columns of the rows, so the rest of a row is here the list of its other cells. The
table has metaData, and all steps are of this table. The operations on `float` are a parameter.
-/

namespace LakeVilla.Keys

open ByteString
open Sublog (UpdateOperation UpdateValues RedoStep)

variable {σ ρ : Type}

/-! ## Registered operations -/

/-- A value of a column, or null. -/
abbrev Cell (σ : Type) := Option (Scalar σ)

/-- A row with all its columns. -/
abbrev FullRow (σ : Type) := Row σ (List (Cell σ))

namespace Row

def cell (r : FullRow σ) : ℕ → Cell σ
  | 0 => r.key
  | i + 1 => r.rest[i]?.join

def setCell (r : FullRow σ) : ℕ → Cell σ → FullRow σ
  | 0, v => { r with key := v }
  | i + 1, v => { r with rest := r.rest.set i v }

end Row

/-- A result of 32-bit arithmetic; an overflow is undefined. -/
def int32 (n : ℤ) : Option ℤ := if InInt32 n then some n else none

/-- `std::stoi`; `none` if it throws. -/
def stoi (text : ByteString) : Option ℤ :=
  match stoll text with
  | .ok n => int32 n
  | .error _ => none

/-- `std::stof` of the old value and the change, the operation, and `std::to_string` of the result;
`none` if a text is not a number. -/
abbrev FloatOp := UpdateOperation → ByteString → ByteString → Option ByteString

/-- What `build_string_col` makes of a cell. -/
def buildString (float : FloatOp) (op : UpdateOperation) (val : ByteString) (old : Cell σ) :
    Option (Cell σ) :=
  if op = .rep then some (some (.text val))
  else
    match old with
    | some (.text s) => if op = .none then some old else (float op s val).map (some ∘ .text)
    | _ => some old

/-- What `build_int_col` makes of a cell; a division by zero is undefined. -/
def buildInt (op : UpdateOperation) (val : ℤ) (old : Cell σ) : Option (Cell σ) :=
  if op = .rep then some (some (.number val))
  else
    match old with
    | some (.number n) =>
      (match op with
      | .add => int32 (n + val)
      | .sub => int32 (n - val)
      | .mul => int32 (n * val)
      | .div => if val = 0 then none else int32 (n.tdiv val)
      | _ => some n).map (some ∘ .number)
    | _ => some old

/-- The loop of `e` for one column: it is skipped if there is no such column, or no operation for
its type. -/
def applyValue (float : FloatOp) (columns : List Field) (op : UpdateOperation)
    (rows : List (FullRow σ)) (ref : ByteString × ByteString) : Option (List (FullRow σ)) :=
  match columns.findIdx? fun column ↦ DeltaLogEntry.sameName column.name ref.1 with
  | none => some rows
  | some i =>
    match columns[i]?.map Field.type with
    | some .string => rows.mapM fun r ↦ (buildString float op ref.2 (r.cell i)).map (r.setCell i)
    | some .int32 => do
      let val ← stoi ref.2
      rows.mapM fun r ↦ (buildInt op val (r.cell i)).map (r.setCell i)
    | _ => some rows

/-- The registered operation on some rows; `none` if it throws or is undefined. -/
def applyUpdate (float : FloatOp) (columns : List Field) (op : UpdateOperation)
    (values : UpdateValues) (rows : List (FullRow σ)) : Option (List (FullRow σ)) :=
  values.foldlM (applyValue float columns op) rows

/-- The loop of `a`: the columns of a name are replaced. -/
def replaceValue (columns : List Field) (rows : List (FullRow σ)) (ref : ByteString × ByteString) :
    List (FullRow σ) :=
  (List.range columns.length).foldl (fun rows i ↦
    if columns[i]?.any fun column ↦ DeltaLogEntry.sameName column.name ref.1 then
      rows.map (·.setCell i (some (.text ref.2)))
    else rows) rows

def TableStats.columns (tbl : TableStats) : List Field :=
  match tbl.schema with
  | .ok (some schema) => schema.fields
  | _ => []

/-! ## Writing and removing rows -/

/-- `write_rows` -/
def State.writeRows (out : Outside σ ρ) (st : State σ ρ) (rows : DataTable σ ρ) :
    Option (State σ ρ) :=
  match out.conform rows with
  | none => none
  | some rows =>
    if out.canWrite (st.newDataFilePath out st.asked) then some (st.create out rows) else none

/-- `remove_found_rows`: the files that are not retired yet are removed; `none` if this fails. -/
def removeFoundRows (out : Outside σ ρ) :
    List (KeyFile σ ρ) → List ByteString → State σ ρ → Option (List ByteString × State σ ρ)
  | [], retired, st => some (retired, st)
  | f :: files, retired, st =>
    if f.path ∈ retired then removeFoundRows out files retired st
    else
      match removeKeyRows out st f with
      | (true, st) => removeFoundRows out files (f.path :: retired) st
      | (false, _) => none

/-- The path of a sublog step becomes live or is removed, whatever it was. -/
def TableStats.redoPath (tbl : TableStats) (op : DLOperation) (path : ByteString) : TableStats :=
  { tbl with
    deltaLog := tbl.deltaLog.registerOperation op path { operation := op } true
    createdFiles := AssocList.modify tbl.createdFiles path ({ · with valid := op = .add })
    deletedFiles := AssocList.modify tbl.deletedFiles path ({ · with valid := op = .delete }) }

/-! ## `execute_reroll_step` -/

/-- A table in a redo. -/
structure Redo (σ : Type) where
  state : State σ (List (Cell σ))
  foundFiles : List (KeyFile σ (List (Cell σ))) := []
  /-- the found files that were removed already -/
  retiredFiles : List ByteString := []
  found : ByteString × ByteString := ([], [])

/-- What a redo takes from outside of the table. -/
structure RedoContext (σ : Type) where
  out : Outside σ (List (Cell σ))
  float : FloatOp
  updateVals : List UpdateValues
  updateOps : List UpdateOperation

namespace Redo

/-- The rows of the key are removed. -/
def removeFound (ctx : RedoContext σ) (r : Redo σ) : Option (Redo σ) :=
  (removeFoundRows ctx.out r.foundFiles r.retiredFiles r.state).map fun removed ↦
    { r with retiredFiles := removed.1, state := removed.2 }

def writeRows (ctx : RedoContext σ) (r : Redo σ) (rows : List (FullRow σ)) : Option (Redo σ) :=
  (r.state.writeRows ctx.out ⟨[rows]⟩).map ({ r with state := · })

/-- `execute_reroll_step`; `none` if it fails or throws. -/
def execute (ctx : RedoContext σ) (r : Redo σ) : RedoStep → Option (Redo σ)
  -- what is read is not used
  | .read _ => some r
  | .search key =>
    (findKeyFiles ctx.out.arrow (r.state.readDataFile ctx.out) r.state.table key true none).map
      fun files ↦
        { r with
          foundFiles := files
          retiredFiles := []
          found := (key, (files.head?.map (·.path)).getD []) }
  | .recall path => some { r with found := ([], path) }
  | .add path => some { r with state.table := r.state.table.redoPath .add path }
  | .replace index => do
    let values ← ctx.updateVals[index]?
    let rows ← keyRows r.foundFiles
    r.writeRows ctx (values.foldl (replaceValue r.state.table.columns) rows.rows)
  | .update index => do
    let values ← ctx.updateVals[index]?
    let op ← ctx.updateOps[index]?
    let rows ← keyRows r.foundFiles
    let rows ← applyUpdate ctx.float r.state.table.columns op values rows.rows
    -- the updated rows replace those of the key in the old files
    let r ← r.writeRows ctx rows
    r.removeFound ctx
  | .delete path => some { r with state.table := r.state.table.redoPath .delete path }
  | .deleteFound => r.removeFound ctx

/-- Steps in the order of their sublog numbers. -/
def run (ctx : RedoContext σ) (r : Redo σ) (steps : List RedoStep) : Option (Redo σ) :=
  steps.foldlM (execute ctx) r

end Redo

end LakeVilla.Keys

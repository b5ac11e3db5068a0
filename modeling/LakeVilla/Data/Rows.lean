import Mathlib.Data.Int.Notation
import Mathlib.Data.List.Basic

/-!
# Rows, data files and updates

A data file is written once and never changed, so its path stands for its rows: `DataFile` carries
them. New paths contain the transaction's id and a fresh part (`new_data_file_path`), modelled by
the pair `owner`, `seq`.

The first column of a table is its key; the other columns hold `int32` or string values. Updates
(`register_update_pairs`) name a value column and an operand. The arithmetic on string columns goes
through `float` and `std::to_string`, which is left to a parameter.
-/

namespace LakeVilla

abbrev TxnId := ℕ

/-- The base path of a table. Only equality of paths is ever used. -/
abbrev Table := ℕ

abbrev ETag := ℕ

/-- `std::string` -/
abbrev Text := List Char

/-! ## Rows -/

inductive Cell
  | int (value : Option ℤ)
  | str (value : Option Text)
  deriving DecidableEq, Repr

structure Row where
  /-- the first column -/
  key : Text
  /-- the other columns -/
  cells : List Cell
  deriving DecidableEq, Repr

/-- `UpdateOperations` -/
inductive UpdateOperations
  | none
  | rep
  | add
  | sub
  | mul
  | div
  deriving DecidableEq, Repr

/-- One pair of `register_update_pairs`: a value column (by position; `same_column` resolves the
name) and the operand, as text and as the number `std::stoi` reads from it. -/
structure UpdatePair where
  column : ℕ
  text : Text
  value : ℤ
  deriving DecidableEq, Repr

/-- One cell of `build_int_col`. Overflow is outside the model. -/
def buildIntCol (op : UpdateOperations) (val : ℤ) (old : Option ℤ) : Option ℤ :=
  match op, old with
  | .rep, _ => some val
  | _, none => none
  | .add, some v => some (v + val)
  | .sub, some v => some (v - val)
  | .div, some v => some (v.tdiv val)
  | .mul, some v => some (v * val)
  | .none, some v => some v

/-- One cell of `build_string_col`; `arith` is the `float` arithmetic on the texts. -/
def buildStringCol (arith : UpdateOperations → Text → Text → Text) (op : UpdateOperations)
    (val : Text) (old : Option Text) : Option Text :=
  match op, old with
  | .rep, _ => some val
  | _, none => none
  | .none, some v => some v
  | op, some v => some (arith op v val)

def buildCol (arith : UpdateOperations → Text → Text → Text) (op : UpdateOperations)
    (pair : UpdatePair) : Cell → Cell
  | .int v => .int (buildIntCol op pair.value v)
  | .str v => .str (buildStringCol arith op pair.text v)

/-- The update of one row: a pair whose column does not exist is skipped. -/
def updateRow (arith : UpdateOperations → Text → Text → Text) (op : UpdateOperations)
    (pairs : List UpdatePair) (row : Row) : Row :=
  { row with
    cells := pairs.foldl (fun cells p ↦ cells.modify p.column (buildCol arith op p)) row.cells }

/-! ## Data files -/

/-- A data file, named by its path. -/
structure DataFile where
  /-- the client that wrote the file; `none` for files that were there before -/
  owner : Option TxnId
  /-- distinguishes the files of one owner -/
  seq : ℕ
  rows : List Row
  /-- How a sublog step reads the path back: `none` is the path itself. A path that contains the
  text "found" is taken for a reference to the searched key; `some` is then the update index that
  `std::stoul` finds at position 6. -/
  found : Option (Option ℕ) := none
  deriving DecidableEq, Repr

namespace DataFile

/-- The rows of a key in the file. -/
def rowsOf (file : DataFile) (key : Text) : List Row := file.rows.filter (·.key = key)

/-- The rows of the other keys. -/
def otherRows (file : DataFile) (key : Text) : List Row := file.rows.filter (·.key ≠ key)

end DataFile

/-! ## The user's operations -/

/-- One operation of a transaction's user; tables are named by their position in the transaction,
`prev = none` is `UINT32_MAX`. -/
inductive Op
  /-- `read_table` -/
  | readTable (table : ℕ)
  /-- `read_file_as_table`, `read_file` -/
  | readFile (table : ℕ) (key : Text)
  /-- `add_file` with rows -/
  | addRows (table : ℕ) (rows : List Row) (prev : Option ℕ)
  /-- `add_file` with the path of an existing file; `listed` is its size in the listing -/
  | addPath (table : ℕ) (file : DataFile) (overwrite : Bool) (prev : Option ℕ) (listed : ℤ)
  /-- `remove_file` with a path -/
  | removePath (table : ℕ) (file : DataFile) (prev : Option ℕ)
  /-- `remove_file` with a key -/
  | removeKey (table : ℕ) (key : Text) (prev : Option ℕ)
  /-- `register_update_pairs(values)` -/
  | registerValues (values : List UpdatePair)
  /-- `register_update_pairs(values, op, impl)` -/
  | registerUpdate (values : List UpdatePair) (op : UpdateOperations) (impl : List UpdatePair)
  /-- `open_new_table` -/
  | openTable (path : Table)
  | commit (readOnly : Bool)
  | abort
  deriving DecidableEq, Repr

end LakeVilla

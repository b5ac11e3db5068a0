import LakeVilla.Concurrency.Machine
import LakeVilla.Data.Intervals
import Mathlib.Algebra.Ring.Nat

/-!
# Reading a table with several threads

`read_table` cuts the list of live files into ranges (`split_range`), reads every range in a thread
of its own (`read_part`) and puts the parts together. Positions are `uint32_t`. Each thread writes
its own slot of the parts; the flag `success` is shared and looked at only after all threads have
ended.
-/

namespace LakeVilla.Reading

open Concurrency Intervals

/-! ## Arrow tables -/

/-- `arrow::Table` -/
structure ArrowTable (σ ρ : Type) where
  schema : σ
  rows : List ρ
  deriving DecidableEq, Repr

variable {σ ρ File E : Type} [DecidableEq σ]

/-- `arrow::ConcatenateTables` for tables of one schema. -/
def concatenateTables : List (ArrowTable σ ρ) → Option (ArrowTable σ ρ)
  | [] => none
  | table :: tables =>
    if ∀ t ∈ tables, t.schema = table.schema then
      some ⟨table.schema, table.rows ++ tables.flatMap ArrowTable.rows⟩
    else none

/-! ## Ranges -/

/-- The loop of `split_range` with `n` parts to go. -/
def splitLoop (step remainder : ℕ) : ℕ → ℕ → ℕ → List (ℕ × ℕ)
  | 0, _, _ => []
  | n + 1, i, start =>
    let stop := (start + step + if i < remainder then 1 else 0) % 2 ^ 32
    (start, stop) :: splitLoop step remainder n (i + 1) stop

/-- `split_range` -/
def splitRange (start stop parts : ℕ) : List (ℕ × ℕ) :=
  if stop ≤ start then []
  else
    let count := stop - start
    let parts := max 1 (min parts count)
    splitLoop (count / parts) (count % parts) parts 0 start

/-! ## Data files -/

/-- What reading a table uses of it: the schema of its metaData (none without metaData, or the error
of a schema that cannot be used), the list of live files, the tables that the files hold as stored
(none for a file that cannot be read), and `conform_to_schema` with the table's options. -/
structure LiveTable (σ ρ File E : Type) where
  schema : Except E (Option σ)
  list : List File
  stored : File → Option (ArrowTable σ ρ)
  conform : σ → File → ArrowTable σ ρ → Option (ArrowTable σ ρ)

/-- `read_data_file` -/
def LiveTable.readDataFile (t : LiveTable σ ρ File E) (path : File) : Option (ArrowTable σ ρ) :=
  match t.schema with
  | .error _ => none
  | .ok none => t.stored path
  | .ok (some schema) => t.stored path >>= t.conform schema path

/-! ## Threads -/

/-- Where a thread is in `read_part`. -/
inductive Phase
  /-- at the head of the loop -/
  | reading
  /-- `false` was returned, `success` is still to be cleared -/
  | failed
  | ended
  deriving DecidableEq, Repr

/-- A thread: its range, the position it is at, and its slot of the parts. -/
structure Thread (σ ρ : Type) where
  range : ℕ × ℕ
  next : ℕ
  table : Option (ArrowTable σ ρ)
  phase : Phase

/-- The table read so far and the next one. -/
def extend : Option (ArrowTable σ ρ) → ArrowTable σ ρ → Option (ArrowTable σ ρ)
  | none, partialTable => some partialTable
  | some table, partialTable => concatenateTables [table, partialTable]

/-- One round of the loop of `read_part`, for the file at the thread's position (if there is one),
then its end and the assignment to `success`. -/
def Thread.advance (read : File → Option (ArrowTable σ ρ)) (list : List File)
    (th : Thread σ ρ) : Thread σ ρ :=
  match th.phase with
  | .reading =>
    if th.next < th.range.2 then
      match list[th.next]? >>= read >>= extend th.table with
      | some table => { th with next := th.next + 1, table := some table }
      | none => { th with table := none, phase := .failed }
    else { th with phase := .ended }
  | .failed => { th with phase := .ended }
  | .ended => th

structure Reads (σ ρ : Type) where
  threads : List (Thread σ ρ)
  success : Bool

def Thread.start (range : ℕ × ℕ) : Thread σ ρ := ⟨range, range.1, none, .reading⟩

def Reads.start (ranges : List (ℕ × ℕ)) : Reads σ ρ := ⟨ranges.map .start, true⟩

/-- Thread `l` takes a step. -/
def Reads.advance (read : File → Option (ArrowTable σ ρ)) (list : List File) (l : ℕ)
    (s : Reads σ ρ) : Reads σ ρ :=
  ⟨s.threads.modify l (Thread.advance read list),
    s.success && s.threads[l]?.all (·.phase ≠ .failed)⟩

/-- The threads of `read_table`; the one that takes a step is the label. -/
def threads (read : File → Option (ArrowTable σ ρ)) (list : List File) (ranges : List (ℕ × ℕ)) :
    Machine (Reads σ ρ) ℕ where
  init s := s = .start ranges
  action l :=
    { guard := fun s ↦ ∃ th ∈ s.threads[l]?, th.phase ≠ .ended
      effect := Reads.advance read list l
      decGuard := fun _ ↦ Option.decidableExistsMem _ }

/-! ## The whole table -/

/-- The loop over the parts. A part without a table would be a null pointer for Arrow. -/
def merge : Option (ArrowTable σ ρ) → List (Option (ArrowTable σ ρ)) → Option (ArrowTable σ ρ)
  | table, [] => table
  | none, part :: parts => merge part parts
  | some table, part :: parts => do
    let part ← part
    merge (← concatenateTables [table, part]) parts

/-- What is returned after the threads have ended. -/
def Reads.result (s : Reads σ ρ) : Option (ArrowTable σ ρ) :=
  if s.success then merge none (s.threads.map Thread.table) else none

/-- `read_table` returns `result`, in whatever order the threads take their steps. -/
def LiveTable.ReadTable (t : LiveTable σ ρ File E) (numThreads : ℕ)
    (result : Option (ArrowTable σ ρ)) : Prop :=
  match t.schema with
  | .error _ => result = none
  | .ok schema =>
    if t.list = [] then result = schema.map fun schema ↦ ⟨schema, []⟩
    else
      let ranges := splitRange 0 (t.list.length % 2 ^ 32) numThreads
      (threads t.readDataFile t.list ranges).Ends (·.result = result) (.start ranges)

end LakeVilla.Reading

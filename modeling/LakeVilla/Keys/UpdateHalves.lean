import LakeVilla.Concurrency.RelyGuarantee
import LakeVilla.Keys.Removal

/-!
# The two halves of an update

An update of a key removes the rows of the key (`remove_file`) and adds the new rows (`add_file`).
With explicit logging both may run at the same time, under one update id. Each half is a program
over the steps that the other can see: sections under `state_mutex`, calls of the snapshot and calls
of the store. A call of the snapshot inside a section is a step of its own; the section keeps the
mutex around it.

The table has metaData, and `c` is its first column. Sublog steps are left out as in `removeFile`.
-/

namespace LakeVilla.Keys

open Concurrency

variable {σ ρ : Type}

/-! ## Steps -/

inductive Half
  | remover
  | adder
  deriving DecidableEq, Repr

/-- A step of one of the halves. -/
inductive Action (σ ρ : Type)
  /-- `DeltaLogManager::find_files` -/
  | findFiles (c : KeyColumn) (key : ByteString)
  /-- the section of `find_key_files`: the update that a created file was written for -/
  | updateOf (path : ByteString)
  /-- `read_data_file` -/
  | readFile (path : ByteString)
  /-- `new_data_file_path` -/
  | newPath
  /-- the store's `write` of a data file -/
  | writeFile (path : ByteString) (data : DataTable σ ρ)
  /-- the section of `register_created_file` begins -/
  | noteCreated (stats : FileStats)
  /-- it registers the file in the snapshot and ends -/
  | logCreated (stats : FileStats)
  /-- the section of `register_deleted_file` begins with `DeltaLogManager::get_size` -/
  | getSize (path : ByteString)
  | noteDeleted (path : ByteString) (size : ℤ)
  /-- it registers the removal in the snapshot and ends -/
  | logDeleted (path : ByteString)

/-- What a step returns. -/
def Action.Response : Action σ ρ → Type
  | .findFiles _ _ => List (ByteString × KeyMatch)
  | .updateOf _ => Option (Option ℕ)
  | .readFile _ => Option (DataTable σ ρ)
  | .newPath => ByteString
  | .writeFile _ _ => Bool
  | .getSize _ => ℤ
  | .noteCreated _ | .logCreated _ | .noteDeleted _ _ | .logDeleted _ => Unit

/-- What both halves share. -/
structure Shared (σ ρ : Type) where
  state : State σ ρ
  /-- who is in a section under `state_mutex` -/
  mutex : Option Half := none

/-- `state_mutex` after a step of half `i`; `none` if the step has to wait. -/
def lock (i : Half) : Action σ ρ → Option Half → Option (Option Half)
  | .findFiles _ _, mutex | .readFile _, mutex | .writeFile _ _, mutex => some mutex
  -- sections of one step
  | .updateOf _, none | .newPath, none => some none
  | .noteCreated _, none | .getSize _, none => some (some i)
  | .noteDeleted _ _, some j => if j = i then some (some i) else none
  | .logCreated _, some j | .logDeleted _, some j => if j = i then some none else none
  | _, _ => none

/-- What a step returns and does. New names are random: the remover asks for those of `out`, one
after the other, the adder for `own`. -/
def effect (out : Outside σ ρ) (own : ByteString) (i : Half) (st : State σ ρ) :
    (action : Action σ ρ) → action.Response × State σ ρ
  | .findFiles c key => (st.table.candidates out.arrow c key, st)
  | .updateOf path => ((st.table.createdFiles.lookup path).map (·.updateId), st)
  | .readFile path => (st.readDataFile out path, st)
  | .newPath =>
    match i with
    | .remover => (st.newDataFilePath out st.asked, { st with asked := st.asked + 1 })
    | .adder => (st.table.fullPath own, st)
  | .writeFile path data =>
    if out.canWrite path then
      (true, { st with stored := Function.update st.stored path (some data) })
    else (false, st)
  | .noteCreated stats => ((), { st with table := st.table.noteCreated stats })
  | .logCreated stats => ((), { st with table := st.table.logCreated stats false })
  | .getSize path => (st.table.deltaLog.getSize path, st)
  | .noteDeleted path size => ((), { st with table := st.table.noteDeleted path size })
  | .logDeleted path => ((), { st with table := st.table.logDeleted path })

def perform (out : Outside σ ρ) (own : ByteString) :
    Service Half (Action.Response (σ := σ) (ρ := ρ)) (Shared σ ρ) Unit :=
  fun i _ action s ↦ (lock i action s.mutex).map fun mutex ↦
    ((effect out own i s.state action).1,
      { state := (effect out own i s.state action).2, mutex := mutex })

/-- The meaning of the steps. -/
abbrev sem (out : Outside σ ρ) (own : ByteString) :
    Semantics Half Unit (Action.Response (σ := σ) (ρ := ρ)) (Shared σ ρ) :=
  semOf (perform out own) fun _ _ _ _ _ ↦ true

/-! ## Programs -/

/-- The code of a half. -/
abbrev Code (σ ρ α : Type) := Client Unit (Action.Response (σ := σ) (ρ := ρ)) α

/-- One step. -/
def step (action : Action σ ρ) : Code σ ρ action.Response := Client.perform action

/-- `register_created_file` -/
def registerCreated (stats : FileStats) : Code σ ρ Unit := do
  step (.noteCreated stats)
  step (.logCreated stats)

/-- `register_deleted_file` -/
def registerDeleted (path : ByteString) : Code σ ρ Unit := do
  let size ← step (.getSize path)
  step (.noteDeleted path size)
  step (.logDeleted path)

/-- The loop of `find_key_files` over the candidates. -/
def search (arrow : Arrow σ) (m : KeyMatcher σ) (prev : ℕ) :
    List (ByteString × KeyMatch) → Code σ ρ (Option (List (KeyFile σ ρ)))
  | [] => pure (some [])
  | (path, found) :: candidates => do
    let update : Option (Option ℕ) ← step (.updateOf path)
    -- the new rows of the update itself
    if update = some (some prev) then search arrow m prev candidates
    else if found = .exact then
      let files ← search arrow m prev candidates
      pure (files.map ({ path := path, exact := true } :: ·))
    else
      match ← step (.readFile path) with
      | none => pure none
      | some data =>
        let rows := m.rowsOf arrow data.chunks 0
        if rows.isEmpty then search arrow m prev candidates
        else
          let files ← search arrow m prev candidates
          pure (files.map ({ path := path, data := some data, rows := rows } :: ·))

/-- `remove_key_rows` -/
def removeRows (out : Outside σ ρ) (f : KeyFile σ ρ) : Code σ ρ Bool :=
  if f.allRows then do
    registerDeleted f.path
    pure true
  else
    match f.rest out with
    | none => pure false
    | some rest => do
      let path : ByteString ← step .newPath
      let written : Bool ← step (.writeFile path rest)
      if written then
        registerCreated { path := path, size := out.encodedSize rest, stats := out.statistics rest }
        registerDeleted f.path
        pure true
      else pure false

/-- The loop of `remove_file`. -/
def removeAll (out : Outside σ ρ) : List (KeyFile σ ρ) → Code σ ρ Bool
  | [] => pure true
  | f :: files => do
    let removed ← removeRows out f
    if removed then removeAll out files else pure false

/-- `remove_file(key, prev)` -/
def removeHalf (out : Outside σ ρ) (c : KeyColumn) (key : ByteString) (prev : ℕ) :
    Code σ ρ Bool := do
  let candidates ← step (.findFiles c key)
  let files ← search out.arrow (KeyMatcher.make out.arrow c.type key) prev candidates
  match files with
  | none | some [] => pure false
  | some (f :: files) => removeAll out (f :: files)

/-- `add_file(rows, key, prev)` -/
def addHalf (out : Outside σ ρ) (rows : DataTable σ ρ) (prev : ℕ) : Code σ ρ Bool :=
  match out.conform rows with
  | none => pure false
  | some rows => do
    let path : ByteString ← step .newPath
    let written : Bool ← step (.writeFile path rows)
    if written then
      registerCreated
        { path := path, size := out.encodedSize rows, stats := out.statistics rows,
          updateId := some prev }
      pure true
    else pure false

/-- Both halves before their first steps. -/
def halves (out : Outside σ ρ) (c : KeyColumn) (key : ByteString) (prev : ℕ)
    (rows : DataTable σ ρ) (st : State σ ρ) :
    World Half Unit (Action.Response (σ := σ) (ρ := ρ)) (Shared σ ρ) (Bool × Unit) where
  shared := { state := st }
  client
    | .remover => removeHalf out c key prev ()
    | .adder => addHalf out rows prev ()

end LakeVilla.Keys

import LakeVilla.Keys.Redo

/-!
# The update step of a redo, with everything that can go wrong

`Redo.execute` says what a step leads to if it succeeds. Here the step `e` of `execute_reroll_step`
is split into what it does and how it ends: it returns true or false with some state of the table,
or it ends in the middle of the arithmetic, by an exception or an operation without a defined
result. `columns` are the columns of the rows of the key.
-/

namespace LakeVilla.Keys

open ByteString
open Sublog (UpdateOperation UpdateValues)

variable {σ ρ α : Type}

/-- How the arithmetic ends that does not give a column. -/
inductive Fault
  /-- a 32-bit operation has no defined result: overflow, a division by zero, `INT_MIN / -1` -/
  | undefined
  /-- `std::stoi` throws -/
  | operand
  /-- `std::stof` throws -/
  | float
  deriving DecidableEq, Repr

def Fault.orElse (fault : Fault) : Option α → Except Fault α
  | some a => .ok a
  | none => .error fault

/-! ## The columns -/

/-- `build_string_col` for the column `i` of the rows. -/
def buildStringCol (float : FloatOp) (op : UpdateOperation) (val : ByteString) (i : ℕ)
    (rows : List (FullRow σ)) : Except Fault (List (FullRow σ)) :=
  Fault.float.orElse (rows.mapM fun r ↦ (buildString float op val (r.cell i)).map (r.setCell i))

/-- `build_int_col` for the column `i` of the rows. -/
def buildIntCol (op : UpdateOperation) (val : ℤ) (i : ℕ) (rows : List (FullRow σ)) :
    Except Fault (List (FullRow σ)) :=
  Fault.undefined.orElse (rows.mapM fun r ↦ (buildInt op val (r.cell i)).map (r.setCell i))

/-- The column that a pair refers to, with its type. -/
def findColumn (columns : List Field) (name : ByteString) : Option (ℕ × DataType) := do
  let i ← columns.findIdx? fun column ↦ DeltaLogEntry.sameName column.name name
  let column ← columns[i]?
  pure (i, column.type)

/-- One pair of the loop of `e`. -/
def updateColumn (float : FloatOp) (columns : List Field) (op : UpdateOperation)
    (rows : List (FullRow σ)) (ref : ByteString × ByteString) :
    Except Fault (List (FullRow σ)) :=
  match findColumn columns ref.1 with
  | some (i, .string) => buildStringCol float op ref.2 i rows
  | some (i, .int32) => do
    let val ← Fault.operand.orElse (stoi ref.2)
    buildIntCol op val i rows
  -- no such column, or no operation for its type
  | _ => .ok rows

def updateColumns (float : FloatOp) (columns : List Field) (op : UpdateOperation)
    (values : UpdateValues) (rows : List (FullRow σ)) : Except Fault (List (FullRow σ)) :=
  values.foldlM (updateColumn float columns op) rows

/-! ## Writing and removing -/

/-- `write_rows`, with the state it leaves if it fails. -/
def State.tryWrite (out : Outside σ ρ) (st : State σ ρ) (rows : DataTable σ ρ) : Bool × State σ ρ :=
  match out.conform rows with
  | none => (false, st)
  | some rows =>
    if out.canWrite (st.newDataFilePath out st.asked) then (true, st.create out rows)
    else (false, { st with asked := st.asked + 1 })

/-- `remove_found_rows`, with the state it leaves if it fails. -/
def retireFound (out : Outside σ ρ) :
    List (KeyFile σ ρ) → List ByteString → State σ ρ → Bool × List ByteString × State σ ρ
  | [], retired, st => (true, retired, st)
  | f :: files, retired, st =>
    if f.path ∈ retired then retireFound out files retired st
    else
      match removeKeyRows out st f with
      | (true, st) => retireFound out files (f.path :: retired) st
      | (false, st) => (false, f.path :: retired, st)

namespace Redo

/-- The updated rows are written, and the rows of the key removed from the found files. -/
def replaceRows (ctx : RedoContext σ) (r : Redo σ) (rows : List (FullRow σ)) : Bool × Redo σ :=
  match r.state.tryWrite ctx.out ⟨[rows]⟩ with
  | (false, st) => (false, { r with state := st })
  | (true, st) =>
    let (ok, retired, st) := retireFound ctx.out r.foundFiles r.retiredFiles st
    (ok, { r with retiredFiles := retired, state := st })

/-- The step `e found <index>`: what it returns, or how it ends otherwise. -/
def update (ctx : RedoContext σ) (columns : List Field) (r : Redo σ) (index : ℕ) :
    Except Fault (Bool × Redo σ) :=
  match ctx.updateVals[index]?, ctx.updateOps[index]? with
  | some values, some op =>
    match keyRows r.foundFiles with
    | none => .ok (false, r)
    | some rows => do
      let rows ← updateColumns ctx.float columns op values rows.rows
      pure (r.replaceRows ctx rows)
  | _, _ => .ok (false, r)

end Redo

/-! ## The same step -/

/-- What comes of an end that counts as success. -/
def succeeded : Except Fault (Bool × α) → Option α
  | .ok (true, a) => some a
  | _ => none

theorem toOption_orElse (fault : Fault) (a : Option α) : (fault.orElse a).toOption = a := by
  cases a <;> rfl

theorem toOption_bind {ε β : Type} (x : Except ε α) (f : α → Except ε β) :
    (x >>= f).toOption = x.toOption.bind fun a ↦ (f a).toOption := by
  cases x <;> rfl

theorem updateColumn_toOption (float : FloatOp) (columns : List Field) (op : UpdateOperation)
    (rows : List (FullRow σ)) (ref : ByteString × ByteString) :
    (updateColumn float columns op rows ref).toOption = applyValue float columns op rows ref := by
  unfold updateColumn findColumn applyValue
  cases columns.findIdx? fun column ↦ DeltaLogEntry.sameName column.name ref.1 with
  | none => rfl
  | some i =>
    cases hcolumn : columns[i]? with
    | none => simp [hcolumn, Except.toOption]
    | some column =>
      cases htype : column.type with
      | string => simp [hcolumn, htype, buildStringCol, toOption_orElse]
      | int32 => simp [hcolumn, htype, buildIntCol, toOption_orElse, toOption_bind]
      | _ => simp [hcolumn, htype, Except.toOption]

theorem updateColumns_toOption (float : FloatOp) (columns : List Field) (op : UpdateOperation)
    (values : UpdateValues) (rows : List (FullRow σ)) :
    (updateColumns float columns op values rows).toOption =
      applyUpdate float columns op values rows := by
  unfold updateColumns applyUpdate
  induction values generalizing rows with
  | nil => rfl
  | cons ref values ih =>
    rw [List.foldlM_cons, List.foldlM_cons, toOption_bind, updateColumn_toOption]
    exact congrArg _ (funext ih)

theorem tryWrite_eq (out : Outside σ ρ) (st : State σ ρ) (rows : DataTable σ ρ) :
    st.writeRows out rows =
      if (st.tryWrite out rows).1 then some (st.tryWrite out rows).2 else none := by
  unfold State.writeRows State.tryWrite
  cases out.conform rows with
  | none => rfl
  | some rows => cases out.canWrite (st.newDataFilePath out st.asked) <;> rfl

theorem retireFound_eq (out : Outside σ ρ) (files : List (KeyFile σ ρ))
    (retired : List ByteString) (st : State σ ρ) :
    removeFoundRows out files retired st =
      if (retireFound out files retired st).1 then some (retireFound out files retired st).2
      else none := by
  induction files generalizing retired st with
  | nil => rfl
  | cons f files ih =>
    unfold removeFoundRows retireFound
    split
    · exact ih retired st
    · cases hf : removeKeyRows out st f with
      | mk ok st' =>
        cases ok with
        | true => exact ih _ _
        | false => rfl

theorem Redo.succeeded_replaceRows (ctx : RedoContext σ) (r : Redo σ) (rows : List (FullRow σ)) :
    (if (r.replaceRows ctx rows).1 then some (r.replaceRows ctx rows).2 else none) =
      (r.writeRows ctx rows).bind (Redo.removeFound ctx) := by
  unfold Redo.replaceRows Redo.writeRows
  rw [tryWrite_eq]
  cases r.state.tryWrite ctx.out ⟨[rows]⟩ with
  | mk ok st =>
    cases ok with
    | false => rfl
    | true =>
      simp only [Redo.removeFound, if_true, Option.map_some, Option.bind_some]
      rw [retireFound_eq]
      cases retireFound ctx.out r.foundFiles r.retiredFiles st with
      | mk ok rest => cases ok <;> rfl

/-- **The two models of the step agree** on what comes of it if it succeeds. -/
theorem succeeded_update (ctx : RedoContext σ) (r : Redo σ) (index : ℕ) :
    succeeded (r.update ctx r.state.table.columns index) = r.execute ctx (.update index) := by
  simp only [Redo.update, Redo.execute]
  cases ctx.updateVals[index]? with
  | none => cases ctx.updateOps[index]? <;> rfl
  | some values =>
    cases ctx.updateOps[index]? with
    | none => rfl
    | some op =>
      cases keyRows r.foundFiles with
      | none => rfl
      | some rows =>
        have hcolumns := updateColumns_toOption ctx.float r.state.table.columns op values rows.rows
        simp only [Option.bind_eq_bind, Option.bind_some]
        rw [← hcolumns]
        cases updateColumns ctx.float r.state.table.columns op values rows.rows with
        | error fault => rfl
        | ok rows' =>
          refine Eq.trans ?_ (Redo.succeeded_replaceRows ctx r rows')
          simp only [succeeded, pure, Except.pure, bind, Except.bind]
          cases r.replaceRows ctx rows' with
          | mk ok r' => cases ok <;> rfl

end LakeVilla.Keys

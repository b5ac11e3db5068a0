import LakeVilla.Guarantees.SublogLines

/-!
# Every update redoes itself

The id of an update is its place among the registered values. A step of an update is logged with the
last place at that time, and the operation of an update has a place of its own, which counts the
operations registered with implicit logging. The three are the same if every update is logged before
the next one is registered and all of them register an operation with implicit logging.
-/

namespace LakeVilla.Sublog

open ByteString

/-! ## Runs -/

/-- An update, as it was registered. -/
inductive Registration
  /-- Without an operation. -/
  | values (values : UpdateValues)
  | pairs (explicitLog : Bool) (values : UpdateValues) (op : UpdateOperation) (impl : UpdateValues)

/-- A call, or a step of one. -/
inductive Event (tables : ℕ)
  | register (values : UpdateValues)
  | registerPairs (values : UpdateValues) (op : UpdateOperation) (impl : UpdateValues)
  /-- A marker of another transaction is seen. -/
  | implicitLog
  /-- The step of `add_file(rows, key, prev)`. -/
  | addRows (tableId : Fin tables) (path : ByteString) (prev : Option ℕ)
  /-- The first step of `remove_file(key, prev)`. -/
  | search (tableId : Fin tables) (path key : ByteString)
  /-- The second one, or the step for a file with explicit logging. -/
  | removeRows (tableId : Fin tables) (path : ByteString) (prev : Option ℕ)

/-- The step that an update logged implicitly for its rows. -/
structure Logged (tables : ℕ) where
  tableId : Fin tables
  id : ℕ
  content : ByteString
  deriving DecidableEq

structure Run (tables : ℕ) where
  st : State
  registered : List Registration
  logged : List (Logged tables)

/-- A transaction that has registered nothing. -/
def Run.start {tables : ℕ} (st : State) : Run tables where
  st := { st with updateVals := [], updateOps := [] }
  registered := []
  logged := []

def Run.step {tables : ℕ} (r : Run tables) : Event tables → Run tables
  | .register values =>
    { r with
      st := (registerUpdateValues r.st values).2
      registered := r.registered ++ [.values values] }
  | .registerPairs values op impl =>
    { r with
      st := (registerUpdatePairs r.st values op impl).2
      registered := r.registered ++ [.pairs r.st.explicitLog values op impl] }
  | .implicitLog => { r with st := { r.st with explicitLog := false } }
  | .addRows tableId path none => { r with st := (logAddSubstep r.st tableId path noUpdate).2 }
  | .addRows tableId path (some id) =>
    let written := logAddSubstep r.st tableId path id
    { r with
      st := written.2
      logged := if r.st.explicitLog then r.logged else r.logged ++ [⟨tableId, id, written.1.2⟩] }
  | .search tableId path key => { r with st := (addSubstep r.st tableId path .read (some key)).2 }
  | .removeRows tableId path prev =>
    { r with st := (logDeleteSubstep r.st tableId path (prev.getD noUpdate)).2 }

/-- The redo of a step applies the operation of its update to the values of its update. -/
def RedoesItself {tables : ℕ} (r : Run tables) (l : Logged tables) : Prop :=
  ∃ values op impl index, r.registered[l.id]? = some (.pairs false values op impl) ∧
    readStep r.st tables (redoLine l.content) = some (l.tableId.val, .update index) ∧
    r.st.updateVals[index]? = some impl ∧ r.st.updateOps[index]? = some op

/-- Registered with an operation and with implicit logging. -/
def Registration.Implicit : Registration → Prop
  | .pairs false _ _ _ => True
  | _ => False

/-- When its step is logged implicitly, an update is the last one that was registered, and all of
them were registered with an operation and with implicit logging. -/
def InTurn {tables : ℕ} (r : Run tables) : Event tables → Prop
  | .addRows _ _ (some id) => r.st.explicitLog = false →
    id < noUpdate ∧ id + 1 = r.registered.length ∧ ∀ reg ∈ r.registered, reg.Implicit
  | _ => True

/-- Runs whose steps are all in turn. -/
inductive Reaches {tables : ℕ} (r₀ : Run tables) : Run tables → Prop
  | start : Reaches r₀ r₀
  | step {r : Run tables} {e : Event tables} : Reaches r₀ r → InTurn r e → Reaches r₀ (r.step e)

/-! ## The places -/

/-- What implicit logging keeps of it. -/
def Registration.impl : Registration → UpdateValues
  | .values vs => vs
  | .pairs _ _ _ impl => impl

def Registration.op : Registration → UpdateOperation
  | .values _ => .none
  | .pairs _ _ op _ => op

/-- The places of the values, and of the operations up to the first update without one. -/
structure Placed {tables : ℕ} (r : Run tables) : Prop where
  length_vals : r.st.updateVals.length = r.registered.length
  length_ops : r.st.updateOps.length ≤ r.registered.length
  vals : ∀ pre, pre <+: r.registered → (∀ reg ∈ pre, reg.Implicit) →
    pre.map Registration.impl <+: r.st.updateVals
  ops : ∀ pre, pre <+: r.registered → (∀ reg ∈ pre, reg.Implicit) →
    pre.map Registration.op <+: r.st.updateOps

namespace Placed

variable {tables : ℕ} {r : Run tables}

theorem start (st : State) : Placed (Run.start st : Run tables) where
  length_vals := rfl
  length_ops := le_rfl
  vals := fun pre hpre _ ↦ by rw [List.prefix_nil.mp hpre]; exact List.nil_prefix
  ops := fun pre hpre _ ↦ by rw [List.prefix_nil.mp hpre]; exact List.nil_prefix

/-- Steps that are logged change none of the places. -/
theorem of_eq {st : State} {logged : List (Logged tables)} (h : Placed r)
    (hvals : st.updateVals = r.st.updateVals) (hops : st.updateOps = r.st.updateOps) :
    Placed { r with st := st, logged := logged } where
  length_vals := by rw [hvals]; exact h.length_vals
  length_ops := by rw [hops]; exact h.length_ops
  vals := fun pre hpre himplicit ↦ by rw [hvals]; exact h.vals pre hpre himplicit
  ops := fun pre hpre himplicit ↦ by rw [hops]; exact h.ops pre hpre himplicit

/-- A registration takes the next place, and so does its operation if all before it have one. -/
theorem push {st : State} {values : UpdateValues} {reg : Registration} (h : Placed r)
    (hvals : st.updateVals = r.st.updateVals ++ [values]) (himpl : reg.Implicit → values = reg.impl)
    (hops : ¬reg.Implicit ∧ st.updateOps = r.st.updateOps ∨
      st.updateOps = r.st.updateOps ++ [reg.op]) :
    Placed { r with st := st, registered := r.registered ++ [reg] } where
  length_vals := by
    rw [hvals, List.length_append, List.length_append, h.length_vals]
    rfl
  length_ops := by
    have hle := h.length_ops
    rcases hops with ⟨-, hops⟩ | hops
    · rw [hops, List.length_append]
      omega
    · rw [hops, List.length_append, List.length_append]
      exact Nat.add_le_add_right hle 1
  vals := by
    intro pre hpre himplicit
    rw [hvals]
    rcases List.prefix_concat_iff.mp hpre with rfl | hpre
    · have hall := h.vals _ List.prefix_rfl fun reg' h' ↦
        himplicit reg' (List.mem_append_left _ h')
      have heq := hall.eq_of_length (by rw [List.length_map, h.length_vals])
      rw [List.map_append, heq, List.map_singleton,
        himpl (himplicit reg (List.mem_append_right _ List.mem_cons_self))]
    · exact (h.vals pre hpre himplicit).trans (List.prefix_append _ _)
  ops := by
    intro pre hpre himplicit
    rcases List.prefix_concat_iff.mp hpre with rfl | hpre
    · have hlast := himplicit reg (List.mem_append_right _ List.mem_cons_self)
      have hops := hops.resolve_left fun h' ↦ h'.1 hlast
      have hall := h.ops _ List.prefix_rfl fun reg' h' ↦
        himplicit reg' (List.mem_append_left _ h')
      have heq := hall.eq_of_length_le (by rw [List.length_map]; exact h.length_ops)
      rw [hops, List.map_append, heq, List.map_singleton]
    · have hkept := h.ops pre hpre himplicit
      rcases hops with ⟨-, hops⟩ | hops
      · rw [hops]
        exact hkept
      · rw [hops]
        exact hkept.trans (List.prefix_append _ _)

end Placed

theorem addSubstep_updates (st : State) (tableId : ℕ) (file : ByteString) (type : SubOpType)
    (key : Option ByteString) :
    (addSubstep st tableId file type key).2.updateVals = st.updateVals ∧
      (addSubstep st tableId file type key).2.updateOps = st.updateOps := by
  unfold addSubstep
  split_ifs
  · exact ⟨rfl, rfl⟩
  · exact ⟨rfl, rfl⟩

theorem Placed.step {tables : ℕ} {r : Run tables} (h : Placed r) (e : Event tables) :
    Placed (r.step e) := by
  cases e with
  | register values => exact h.push rfl (fun h ↦ h.elim) (.inl ⟨id, rfl⟩)
  | registerPairs values op impl =>
    unfold Run.step registerUpdatePairs
    split_ifs with hlog
    · rw [hlog]
      exact h.push rfl (fun h ↦ h.elim) (.inl ⟨id, rfl⟩)
    · rw [Bool.not_eq_true] at hlog
      rw [hlog]
      exact h.push rfl (fun _ ↦ rfl) (.inr rfl)
  | implicitLog => exact h.of_eq rfl rfl
  | addRows tableId path prev =>
    cases prev with
    | none => exact h.of_eq (addSubstep_updates _ _ _ _ _).1 (addSubstep_updates _ _ _ _ _).2
    | some id => exact h.of_eq (addSubstep_updates _ _ _ _ _).1 (addSubstep_updates _ _ _ _ _).2
  | search tableId path key =>
    exact h.of_eq (addSubstep_updates _ _ _ _ _).1 (addSubstep_updates _ _ _ _ _).2
  | removeRows tableId path prev =>
    exact h.of_eq (addSubstep_updates _ _ _ _ _).1 (addSubstep_updates _ _ _ _ _).2

/-! ## The steps -/

/-- A step names the place of its update, and all updates up to it have an operation. -/
structure Noted {tables : ℕ} (registered : List Registration) (l : Logged tables) : Prop where
  id_lt : l.id < noUpdate
  implicit : ∃ pre, pre <+: registered ∧ l.id + 1 = pre.length ∧ ∀ reg ∈ pre, reg.Implicit
  content : ∃ undo, l.content =
    twoLines (stepLine l.tableId 'e' (ascii "found " ++ decimal l.id)) undo

theorem lastIndex_succ {n : ℕ} (h : n < noUpdate) : lastIndex (n + 1) = n := by
  unfold lastIndex
  unfold noUpdate at h
  omega

/-- A step that is logged in turn names the place of its update. -/
theorem noted_logAddSubstep {tables : ℕ} {r : Run tables} (h : Placed r) {tableId : Fin tables}
    {path : ByteString} {id : ℕ} (hlog : r.st.explicitLog = false)
    (hturn : InTurn r (.addRows tableId path (some id))) :
    Noted r.registered ⟨tableId, id, (logAddSubstep r.st tableId path id).1.2⟩ := by
  obtain ⟨hid, hlength, himplicit⟩ := hturn hlog
  refine ⟨hid, ⟨r.registered, List.prefix_rfl, hlength, himplicit⟩,
    stepLine tableId 'd' (ascii "found"), ?_⟩
  have htext : updateText id = some (decimal id) := if_neg hid.ne
  unfold logAddSubstep addSubstep
  rw [htext, hlog, if_neg Bool.false_ne_true, addSubstepImplicit]
  unfold implicitContent
  rw [h.length_vals, ← hlength, lastIndex_succ hid]

theorem Noted.mono {tables : ℕ} {l : Logged tables} {registered registered' : List Registration}
    (h : Noted registered l) (hle : registered <+: registered') : Noted registered' l := by
  obtain ⟨pre, hpre, hlength, himplicit⟩ := h.implicit
  exact ⟨h.id_lt, ⟨pre, hpre.trans hle, hlength, himplicit⟩, h.content⟩

theorem Reaches.placed {tables : ℕ} {st : State} {r : Run tables} (h : Reaches (.start st) r) :
    Placed r := by
  induction h with
  | start => exact .start st
  | step _ _ ih => exact ih.step _

theorem Reaches.noted {tables : ℕ} {st : State} {r : Run tables} (h : Reaches (.start st) r) :
    ∀ l ∈ r.logged, Noted r.registered l := by
  induction h with
  | start => exact fun _ hl ↦ nomatch hl
  | @step r e hr hturn ih =>
    cases e with
    | register values => exact fun l hl ↦ (ih l hl).mono (List.prefix_append _ _)
    | registerPairs values op impl => exact fun l hl ↦ (ih l hl).mono (List.prefix_append _ _)
    | implicitLog => exact ih
    | search tableId path key => exact ih
    | removeRows tableId path prev => exact ih
    | addRows tableId path prev =>
      cases prev with
      | none => exact ih
      | some id =>
        unfold Run.step
        dsimp only
        split_ifs with hlog
        · exact ih
        · intro l hl
          rcases List.mem_append.mp hl with hl | hl
          · exact ih l hl
          · rw [List.mem_singleton.mp hl]
            exact noted_logAddSubstep hr.placed (Bool.not_eq_true _ ▸ hlog) hturn

theorem getElem?_of_prefix {α : Type} {l l' : List α} {n : ℕ} {a : α} (h : l <+: l')
    (ha : l[n]? = some a) : l'[n]? = some a := by
  obtain ⟨rest, rfl⟩ := h
  rw [List.getElem?_append_left (List.getElem?_eq_some_iff.mp ha).1, ha]

/-- A step that names the place of its update redoes it. -/
theorem Placed.redoesItself {tables : ℕ} {r : Run tables} (h : Placed r) (htables : tables ≤ 2 ^ 32)
    {l : Logged tables} (hl : Noted r.registered l) : RedoesItself r l := by
  obtain ⟨pre, hpre, hlength, himplicit⟩ := hl.implicit
  obtain ⟨undo, hcontent⟩ := hl.content
  have hlt : l.id < pre.length := by omega
  have hlast : pre[l.id]? = some pre[l.id] := List.getElem?_eq_getElem hlt
  have hreg := himplicit _ (List.getElem_mem hlt)
  cases hget : pre[l.id] with
  | values vs =>
    rw [hget] at hreg
    exact hreg.elim
  | pairs explicitLog values op impl =>
    rw [hget] at hreg hlast
    cases explicitLog with
    | true => exact hreg.elim
    | false =>
      have hvals : r.st.updateVals[l.id]? = some impl :=
        getElem?_of_prefix (h.vals pre hpre himplicit) (by rw [List.getElem?_map, hlast]; rfl)
      have hops : r.st.updateOps[l.id]? = some op :=
        getElem?_of_prefix (h.ops pre hpre himplicit) (by rw [List.getElem?_map, hlast]; rfl)
      refine ⟨values, op, impl, l.id, getElem?_of_prefix hpre hlast, ?_, hvals, hops⟩
      have hid : l.id < 2 ^ 64 := hl.id_lt.trans (by decide)
      have hcommand := (commandStep_update_iff hid).mpr
        ⟨(List.getElem?_eq_some_iff.mp hvals).1, (List.getElem?_eq_some_iff.mp hops).1⟩
      rw [hcontent, redoLine_twoLines (by decide),
        readStep_stepLine l.tableId.isLt (l.tableId.isLt.trans_le htables), hcommand]
      rfl

/-- **Updates redo themselves.** In every run whose updates are logged in turn, the redo of each
step applies the operation of its update to the values of its update. -/
theorem updates_redo_themselves {tables : ℕ} (htables : tables ≤ 2 ^ 32) {st : State}
    {r : Run tables} (h : Reaches (.start st) r) : ∀ l ∈ r.logged, RedoesItself r l :=
  fun l hl ↦ h.placed.redoesItself htables (h.noted l hl)

/-- A run of a transaction with one table that logs implicitly from the start -/
def sampleRun (events : List (Event 1)) : Run 1 := events.foldl Run.step (.start sampleState)

/-- An update of the column `c` -/
def sampleUpdate (x : ByteString) : Event 1 :=
  .registerPairs [(ascii "c", x)] .rep [(ascii "c", x)]

/-- Its step -/
def sampleStep (id : ℕ) : Event 1 := .addRows 0 (ascii "t/a.parquet") (some id)

/-- One update after the other. -/
def inTurn : List (Event 1) :=
  [sampleUpdate (ascii "x"), sampleStep 0, sampleUpdate (ascii "y"), sampleStep 1]

theorem updates_redo_themselves_sample :
    (sampleRun inTurn).logged.length = 2 ∧
      ∀ l ∈ (sampleRun inTurn).logged, RedoesItself (sampleRun inTurn) l := by
  have himplicit : ∀ values op impl, (Registration.pairs false values op impl).Implicit :=
    fun _ _ _ ↦ trivial
  have h₁ : Reaches (.start sampleState) (sampleRun (inTurn.take 1)) :=
    .step (e := sampleUpdate (ascii "x")) .start trivial
  have h₂ : Reaches (.start sampleState) (sampleRun (inTurn.take 2)) := by
    refine .step (e := sampleStep 0) h₁ fun _ ↦ ⟨by decide, rfl, fun reg hreg ↦ ?_⟩
    rw [List.mem_singleton.mp hreg]
    exact himplicit _ _ _
  have h₃ : Reaches (.start sampleState) (sampleRun (inTurn.take 3)) :=
    .step (e := sampleUpdate (ascii "y")) h₂ trivial
  have h₄ : Reaches (.start sampleState) (sampleRun inTurn) := by
    refine .step (e := sampleStep 1) h₃ fun _ ↦ ⟨by decide, rfl, fun reg hreg ↦ ?_⟩
    rcases List.mem_cons.mp hreg with rfl | hreg
    · exact himplicit _ _ _
    · rw [List.mem_singleton.mp hreg]
      exact himplicit _ _ _
  exact ⟨rfl, updates_redo_themselves (by decide) h₄⟩

/-- Both updates are registered before the first one is logged. -/
def bothFirst : List (Event 1) := [sampleUpdate (ascii "x"), sampleUpdate (ascii "y"), sampleStep 0]

/-- An update without an operation before one with an operation. -/
def withoutOperation : List (Event 1) :=
  [.register [(ascii "c", ascii "x")], sampleUpdate (ascii "y"), sampleStep 1]

/-- The lines of a step with index 1 -/
def indexOne : ByteString :=
  twoLines (stepLine 0 'e' (ascii "found 1")) (stepLine 0 'd' (ascii "found"))

/-- The step of the first of two updates applies the second one; after an update without an
operation the next one is not applied at all. -/
theorem updates_mixed_up :
    (∃ l ∈ (sampleRun bothFirst).logged, ¬RedoesItself (sampleRun bothFirst) l) ∧
      ∃ l ∈ (sampleRun withoutOperation).logged,
        ¬RedoesItself (sampleRun withoutOperation) l := by
  constructor
  · have hlogged : ⟨0, 0, indexOne⟩ ∈ (sampleRun bothFirst).logged := by decide +kernel
    refine ⟨_, hlogged, ?_⟩
    rintro ⟨values, op, impl, index, hreg, hread, hvals, -⟩
    have hindex : readStep (sampleRun bothFirst).st 1 (redoLine indexOne) =
        some (0, .update 1) := by
      decide +kernel
    have heq := hindex.symm.trans hread
    obtain rfl : 1 = index := RedoStep.update.inj (Prod.mk.inj (Option.some.inj heq)).2
    have himpl : [(ascii "c", ascii "x")] = impl :=
      (Registration.pairs.inj (Option.some.inj hreg)).2.2.2
    have hother : [(ascii "c", ascii "y")] = impl := Option.some.inj hvals
    revert hother
    rw [← himpl]
    decide
  · have hlogged : ⟨0, 1, indexOne⟩ ∈ (sampleRun withoutOperation).logged := by decide +kernel
    refine ⟨_, hlogged, ?_⟩
    rintro ⟨values, op, impl, index, -, hread, -, -⟩
    have hnone : readStep (sampleRun withoutOperation).st 1 (redoLine indexOne) = none := by
      decide +kernel
    cases hnone.symm.trans hread

end LakeVilla.Sublog

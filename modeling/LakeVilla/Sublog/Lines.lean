import LakeVilla.Data.Bytes
import LakeVilla.Keys.Statistics
import Mathlib.Data.List.Infix

/-!
# Sublog lines

An operation writes its step to the sublog as two lines, the step for the redo and the step for the
undo, each a table, a command and an argument. The redo reads the first line back.
-/

namespace LakeVilla.Sublog

open ByteString
open Keys (isSpace splitSign)

/-! ## The state -/

/-- Column names and texts -/
abbrev UpdateValues := List (ByteString × ByteString)

inductive UpdateOperation
  | none
  | rep
  | add
  | sub
  | mul
  | div
  deriving DecidableEq, Repr

/-- What a transaction manager keeps about its sublog. -/
structure State where
  workingDir : ByteString
  nextStep : ℕ
  explicitLog : Bool
  found : ByteString × ByteString
  updateVals : List UpdateValues
  updateOps : List UpdateOperation

/-- `UINT32_MAX`, for operations that belong to no update -/
def noUpdate : ℕ := 2 ^ 32 - 1

/-- `register_update_pairs(values)` -/
def registerUpdateValues (st : State) (values : UpdateValues) : ℕ × State :=
  (st.updateVals.length % 2 ^ 32, { st with updateVals := st.updateVals ++ [values] })

/-- `register_update_pairs(values, op, impl)` -/
def registerUpdatePairs (st : State) (values : UpdateValues) (op : UpdateOperation)
    (impl : UpdateValues) : ℕ × State :=
  (st.updateVals.length % 2 ^ 32,
    if st.explicitLog then { st with updateVals := st.updateVals ++ [values] }
    else
      { st with
        updateVals := st.updateVals ++ [impl]
        updateOps := st.updateOps ++ [op] })

/-! ## Writing -/

inductive SubOpType
  | read
  | add
  | delete
  deriving DecidableEq, Repr

def charByte (c : Char) : Byte := Fin.ofNat 256 c.toNat

def newline : Byte := 10

def space : Byte := 32

/-- A step: table, command and argument. -/
def stepLine (tableId : ℕ) (command : Char) (argument : ByteString) : ByteString :=
  decimal tableId ++ (space :: charByte command :: space :: argument)

def twoLines (redo undo : ByteString) : ByteString := redo ++ newline :: undo

/-- `size() - 1` in 64 bits -/
def lastIndex (n : ℕ) : ℕ := (n + (2 ^ 64 - 1)) % 2 ^ 64

/-- The content that `add_substep_explicit` writes -/
def explicitContent (tableId : ℕ) (file : ByteString) : SubOpType → ByteString
  | .read => twoLines (stepLine tableId 'r' file) (stepLine tableId 'r' file)
  | .add => twoLines (stepLine tableId 'a' file) (stepLine tableId 'd' file)
  | .delete => twoLines (stepLine tableId 'd' file) (stepLine tableId 'a' file)

/-- The content that `add_substep_implicit` writes -/
def implicitContent (st : State) (tableId : ℕ) (file : ByteString) :
    SubOpType → Option ByteString → ByteString
  | .read, some key => twoLines (stepLine tableId 's' key) (stepLine tableId 'o' st.found.2)
  | .add, some _ =>
    twoLines (stepLine tableId 'e' (ascii "found " ++ decimal (lastIndex st.updateVals.length)))
      (stepLine tableId 'd' (ascii "found"))
  | .delete, some key =>
    twoLines (stepLine tableId 'd' (ascii "found" ++ key))
      (stepLine tableId 'a' (ascii "found " ++ decimal (lastIndex st.updateOps.length)))
  | type, none => explicitContent tableId file type

/-- The object that a step is written to. -/
def sublogKey (st : State) : ByteString :=
  st.workingDir ++ (ascii "00" ++ (decimal st.nextStep ++ ascii ".sub"))

/-- `add_substep_explicit` -/
def addSubstepExplicit (st : State) (tableId : ℕ) (file : ByteString) (type : SubOpType) :
    (ByteString × ByteString) × State :=
  ((sublogKey st, explicitContent tableId file type), { st with nextStep := st.nextStep + 1 })

/-- `add_substep_implicit` -/
def addSubstepImplicit (st : State) (tableId : ℕ) (file : ByteString) (type : SubOpType)
    (key : Option ByteString) : (ByteString × ByteString) × State :=
  ((sublogKey st, implicitContent st tableId file type key),
    { st with
      nextStep := st.nextStep + 1
      found := match type, key with
        | .add, some key => (key, file)
        | .delete, some key => (key, file)
        | _, _ => st.found })

/-- `add_substep`, with the sublogs of level 0 -/
def addSubstep (st : State) (tableId : ℕ) (file : ByteString) (type : SubOpType)
    (key : Option ByteString) : (ByteString × ByteString) × State :=
  if st.explicitLog then addSubstepExplicit st tableId file type
  else addSubstepImplicit st tableId file type key

/-- The key text that `log_add_substep` and `log_delete_substep` pass for an update. -/
def updateText (prev : ℕ) : Option ByteString :=
  if prev = noUpdate then none else some (decimal prev)

/-- `log_add_substep` -/
def logAddSubstep (st : State) (tableId : ℕ) (path : ByteString) (prev : ℕ) :
    (ByteString × ByteString) × State := addSubstep st tableId path .add (updateText prev)

/-- `log_delete_substep` -/
def logDeleteSubstep (st : State) (tableId : ℕ) (path : ByteString) (prev : ℕ) :
    (ByteString × ByteString) × State := addSubstep st tableId path .delete (updateText prev)

/-! ## Reading -/

/-- What the redo executes. -/
inductive RedoStep
  /-- `r`: reads a file. -/
  | read (path : ByteString)
  /-- `s`: searches a key. -/
  | search (key : ByteString)
  /-- `o`: names the found file. -/
  | recall (path : ByteString)
  /-- `a` and `e`: a file becomes live. -/
  | add (path : ByteString)
  /-- `a` with a reference: replaces columns of the found rows. -/
  | replace (index : ℕ)
  /-- `e` with a reference: applies a registered operation to the found rows. -/
  | update (index : ℕ)
  /-- `d`: a file is removed. -/
  | delete (path : ByteString)
  /-- `d` with a reference: the found rows are removed. -/
  | deleteFound
  deriving DecidableEq, Repr

/-- `std::stoul`, whose exceptions are caught -/
def stoul (text : ByteString) : Option ℕ :=
  let (negative, text) := splitSign (text.dropWhile isSpace)
  let digits := text.takeWhile isDigit
  if digits = [] ∨ 2 ^ 64 ≤ ofDecimal digits then none
  else some (if negative then (2 ^ 64 - ofDecimal digits) % 2 ^ 64 else ofDecimal digits)

/-- The index in `found <index>` -/
def updateIndex (argument : ByteString) (limit : ℕ) : Option ℕ := do
  if argument.length < 6 then none
  let index ← stoul (argument.drop 6)
  if index < limit then some index else none

/-- The argument refers to what was found. -/
def IsReference (argument : ByteString) : Prop := ascii "found" <:+: argument

instance (argument : ByteString) : Decidable (IsReference argument) :=
  inferInstanceAs (Decidable (_ <:+: _))

/-- The commands of `execute_reroll_step` -/
def commandStep (st : State) (command : Byte) (argument : ByteString) : Option RedoStep :=
  if command = charByte 'r' then some (.read argument)
  else if command = charByte 's' then some (.search argument)
  else if command = charByte 'o' then some (.recall argument)
  else if command = charByte 'a' then
    if IsReference argument then .replace <$> updateIndex argument st.updateVals.length
    else some (.add argument)
  else if command = charByte 'e' then
    if IsReference argument then
      .update <$> updateIndex argument (min st.updateVals.length st.updateOps.length)
    else some (.add argument)
  else if command = charByte 'd' then
    if IsReference argument then some .deleteFound else some (.delete argument)
  else none

/-- `execute_reroll_step`: the table and the step that are read from a line. -/
def readStep (st : State) (tables : ℕ) (line : ByteString) : Option (ℕ × RedoStep) :=
  match line.dropWhile (· ≠ space) with
  | _ :: command :: rest => do
    let tableIdx := (← stoul (line.takeWhile (· ≠ space))) % 2 ^ 32
    if tableIdx < tables then (tableIdx, ·) <$> commandStep st command (rest.drop 1) else none
  | _ => none

/-- The line that `redo` executes -/
def redoLine (content : ByteString) : ByteString := content.takeWhile (· ≠ newline)

/-! ## Reading what was written -/

section Lines

variable {tableId tables : ℕ} {command : Char} {argument rest : ByteString}

theorem ne_of_mem_decimal {n : ℕ} {c d : Byte} (hc : c ∈ decimal n) (hd : isDigit d = false) :
    c ≠ d := by
  rintro rfl
  rw [isDigit_of_mem_decimal hc] at hd
  cases hd

/-- The first line of a text that goes on is that of its beginning. -/
theorem redoLine_append_newline (text rest : ByteString) :
    redoLine (text ++ newline :: rest) = redoLine text := by
  induction text with
  | nil => rfl
  | cons c text ih =>
    rw [redoLine, redoLine, List.cons_append, List.takeWhile_cons, List.takeWhile_cons,
      ← redoLine, ← redoLine, ih]

theorem redoLine_eq_self {text : ByteString} : redoLine text = text ↔ newline ∉ text := by
  rw [redoLine, List.takeWhile_eq_self_iff]
  constructor
  · intro h hmem
    exact of_decide_eq_true (h newline hmem) rfl
  · intro h c hc
    apply decide_eq_true
    rintro rfl
    exact h hc

theorem redoLine_stepLine (hcommand : charByte command ≠ newline) :
    redoLine (stepLine tableId command argument) =
      stepLine tableId command (redoLine argument) := by
  have hdigits : ∀ c ∈ decimal tableId, decide (c ≠ newline) = true :=
    fun c hc ↦ decide_eq_true (ne_of_mem_decimal hc rfl)
  have hspace : decide (space ≠ newline) = true := rfl
  unfold redoLine stepLine
  rw [List.takeWhile_append_of_pos hdigits, List.takeWhile_cons, if_pos hspace,
    List.takeWhile_cons, if_pos (decide_eq_true hcommand), List.takeWhile_cons, if_pos hspace]

theorem redoLine_twoLines (hcommand : charByte command ≠ newline) (undo : ByteString) :
    redoLine (twoLines (stepLine tableId command argument) undo) =
      stepLine tableId command (redoLine argument) := by
  rw [twoLines, redoLine_append_newline, redoLine_stepLine hcommand]

theorem stoul_decimal {n : ℕ} (h : n < 2 ^ 64) : stoul (decimal n) = some n := by
  have hsign := Keys.splitSign_signedText false n
  rw [signedText, if_neg Bool.false_ne_true, List.nil_append] at hsign
  have hdigits : (decimal n).takeWhile isDigit = decimal n :=
    List.takeWhile_eq_self_iff.mpr fun _ hc ↦ isDigit_of_mem_decimal hc
  unfold stoul
  rw [hsign]
  simp only [hdigits, ofDecimal_decimal]
  rw [if_neg]
  · rfl
  · rintro (h' | h')
    · exact decimal_ne_nil n h'
    · omega

theorem readStep_stepLine {st : State} (htables : tableId < tables) (hid : tableId < 2 ^ 32) :
    readStep st tables (stepLine tableId command argument) =
      (tableId, ·) <$> commandStep st (charByte command) argument := by
  have hdigits : ∀ c ∈ decimal tableId, decide (c ≠ space) = true :=
    fun c hc ↦ decide_eq_true (ne_of_mem_decimal hc rfl)
  have hspace : ¬decide (space ≠ space) = true := by decide
  have htake : (stepLine tableId command argument).takeWhile (· ≠ space) = decimal tableId := by
    rw [stepLine, List.takeWhile_append_of_pos hdigits, List.takeWhile_cons, if_neg hspace,
      List.append_nil]
  have hdrop : (stepLine tableId command argument).dropWhile (· ≠ space) =
      space :: charByte command :: space :: argument := by
    rw [stepLine, List.dropWhile_append_of_pos hdigits, List.dropWhile_cons, if_neg hspace]
  unfold readStep
  rw [hdrop]
  simp only [htake, stoul_decimal (hid.trans (by decide)), Option.bind_eq_bind, Option.bind_some,
    Nat.mod_eq_of_lt hid, if_pos htables]
  rfl

end Lines

end LakeVilla.Sublog

import LakeVilla.Sublog.Lines

/-!
# Sublog lines and operations

The argument of a step is written as it is. The redo reads the step back if the argument has no line
break and, for a file that is added or removed, does not look like a reference.
-/

namespace LakeVilla.Sublog

open ByteString

/-- The operation that a step stands for. -/
def written (st : State) (file : ByteString) (type : SubOpType) (key : Option ByteString) :
    RedoStep :=
  match type, st.explicitLog, key with
  | .read, false, some key => .search key
  | .read, _, _ => .read file
  | .add, false, some _ => .update (lastIndex st.updateVals.length)
  | .add, _, _ => .add file
  | .delete, false, some _ => .deleteFound
  | .delete, _, _ => .delete file

/-- Written in the state `st`, the step is read back by a redo in the state `st'`. -/
def ReadsBack (st st' : State) (tables tableId : ℕ) (file : ByteString) (type : SubOpType)
    (key : Option ByteString) : Prop :=
  readStep st' tables (redoLine (addSubstep st tableId file type key).1.2) =
    some (tableId, written st file type key)

/-- The step can be read back: its text is one line, paths of files do not look like references, and
the index of an update is one of a registered operation. -/
def Legible (st' : State) : RedoStep → Prop
  | .read path => newline ∉ path
  | .search key => newline ∉ key
  | .recall path => newline ∉ path
  | .add path => newline ∉ path ∧ ¬IsReference path
  | .delete path => newline ∉ path ∧ ¬IsReference path
  | .replace index => index < st'.updateVals.length
  | .update index => index < st'.updateVals.length ∧ index < st'.updateOps.length
  | .deleteFound => True

section Commands

variable {st : State} {argument text : ByteString}

theorem commandStep_read : commandStep st (charByte 'r') argument = some (.read argument) := rfl

theorem commandStep_search : commandStep st (charByte 's') argument = some (.search argument) := rfl

theorem commandStep_add : commandStep st (charByte 'a') argument =
    if IsReference argument then .replace <$> updateIndex argument st.updateVals.length
    else some (.add argument) := rfl

theorem commandStep_update : commandStep st (charByte 'e') argument =
    if IsReference argument then
      .update <$> updateIndex argument (min st.updateVals.length st.updateOps.length)
    else some (.add argument) := rfl

theorem commandStep_delete : commandStep st (charByte 'd') argument =
    if IsReference argument then some .deleteFound else some (.delete argument) := rfl

theorem commandStep_add_iff :
    commandStep st (charByte 'a') (redoLine text) = some (.add text) ↔
      newline ∉ text ∧ ¬IsReference text := by
  rw [commandStep_add, ← redoLine_eq_self]
  split_ifs with href
  · refine iff_of_false ?_ fun h ↦ h.2 (h.1 ▸ href)
    cases updateIndex (redoLine text) st.updateVals.length <;> simp
  · rw [Option.some.injEq, RedoStep.add.injEq]
    constructor
    · intro h
      exact ⟨h, h ▸ href⟩
    · exact And.left

theorem commandStep_delete_iff :
    commandStep st (charByte 'd') (redoLine text) = some (.delete text) ↔
      newline ∉ text ∧ ¬IsReference text := by
  rw [commandStep_delete, ← redoLine_eq_self]
  split_ifs with href
  · exact iff_of_false (by simp) fun h ↦ h.2 (h.1 ▸ href)
  · rw [Option.some.injEq, RedoStep.delete.injEq]
    constructor
    · intro h
      exact ⟨h, h ▸ href⟩
    · exact And.left

theorem isReference_found (text : ByteString) : IsReference (ascii "found" ++ text) :=
  ⟨[], text, rfl⟩

theorem redoLine_found (text : ByteString) :
    redoLine (ascii "found" ++ text) = ascii "found" ++ redoLine text := by
  have hword : newline ∉ ascii "found" := by decide
  exact List.takeWhile_append_of_pos fun c hc ↦ decide_eq_true (ne_of_mem_of_not_mem hc hword)

theorem lastIndex_lt (n : ℕ) : lastIndex n < 2 ^ 64 := by
  unfold lastIndex
  exact Nat.mod_lt _ (by norm_num)

/-- The index of an update is read back if it is below the limit. -/
theorem updateIndex_found {index : ℕ} (h : index < 2 ^ 64) (limit : ℕ) :
    updateIndex (ascii "found " ++ decimal index) limit =
      if index < limit then some index else none := by
  have hlen : ¬(ascii "found " ++ decimal index).length < 6 := by
    have hword : (ascii "found ").length = 6 := rfl
    rw [List.length_append, hword]
    omega
  have hdrop : (ascii "found " ++ decimal index).drop 6 = decimal index := rfl
  unfold updateIndex
  rw [if_neg hlen, hdrop, stoul_decimal h]
  rfl

theorem redoLine_reference (index : ℕ) :
    redoLine (ascii "found " ++ decimal index) = ascii "found " ++ decimal index := by
  rw [redoLine_eq_self]
  intro h
  rcases List.mem_append.mp h with h | h
  · revert h
    decide
  · exact ne_of_mem_decimal h rfl rfl

theorem commandStep_update_iff {index : ℕ} (h : index < 2 ^ 64) :
    commandStep st (charByte 'e') (redoLine (ascii "found " ++ decimal index)) =
        some (.update index) ↔ index < st.updateVals.length ∧ index < st.updateOps.length := by
  have href : IsReference (ascii "found " ++ decimal index) := ⟨[], _, rfl⟩
  rw [redoLine_reference, commandStep_update, if_pos href, updateIndex_found h, ← lt_min_iff]
  split_ifs with hlt
  · exact iff_of_true rfl hlt
  · exact iff_of_false (fun h ↦ nomatch h) hlt

end Commands

/-- **Sublog lines.** A step is read back if and only if it is legible. -/
theorem sublog_lines_iff (st st' : State) {tables tableId : ℕ} (htables : tableId < tables)
    (hid : tableId < 2 ^ 32) (file : ByteString) (type : SubOpType) (key : Option ByteString) :
    ReadsBack st st' tables tableId file type key ↔ Legible st' (written st file type key) := by
  -- The first line has one table, so only its command matters.
  have hread : ∀ (command : Char) (argument undo : ByteString) (step : RedoStep),
      charByte command ≠ newline →
      (readStep st' tables (redoLine (twoLines (stepLine tableId command argument) undo)) =
          some (tableId, step) ↔
        commandStep st' (charByte command) (redoLine argument) = some step) := by
    intro command argument undo step hcommand
    rw [redoLine_twoLines hcommand, readStep_stepLine htables hid]
    cases commandStep st' (charByte command) (redoLine argument) with
    | none => exact iff_of_false (fun h ↦ nomatch h) fun h ↦ nomatch h
    | some step' => simp
  have hreadFile : ∀ undo, readStep st' tables
      (redoLine (twoLines (stepLine tableId 'r' file) undo)) = some (tableId, .read file) ↔
        newline ∉ file := by
    intro undo
    rw [hread 'r' _ _ _ (by decide), commandStep_read, Option.some.injEq, RedoStep.read.injEq,
      redoLine_eq_self]
  have haddFile : ∀ undo, readStep st' tables
      (redoLine (twoLines (stepLine tableId 'a' file) undo)) = some (tableId, .add file) ↔
        newline ∉ file ∧ ¬IsReference file := by
    intro undo
    rw [hread 'a' _ _ _ (by decide), commandStep_add_iff]
  have hdeleteFile : ∀ undo, readStep st' tables
      (redoLine (twoLines (stepLine tableId 'd' file) undo)) = some (tableId, .delete file) ↔
        newline ∉ file ∧ ¬IsReference file := by
    intro undo
    rw [hread 'd' _ _ _ (by decide), commandStep_delete_iff]
  unfold ReadsBack addSubstep written
  cases hlog : st.explicitLog with
  | true =>
    rw [if_pos rfl]
    cases type with
    | read => exact hreadFile _
    | add => exact haddFile _
    | delete => exact hdeleteFile _
  | false =>
    rw [if_neg Bool.false_ne_true]
    cases key with
    | none =>
      cases type with
      | read => exact hreadFile _
      | add => exact haddFile _
      | delete => exact hdeleteFile _
    | some key =>
      cases type with
      | read =>
        apply (hread 's' _ _ _ (by decide)).trans
        rw [commandStep_search, Option.some.injEq, RedoStep.search.injEq, redoLine_eq_self]
        rfl
      | add =>
        apply (hread 'e' _ _ _ (by decide)).trans
        exact commandStep_update_iff (lastIndex_lt _)
      | delete =>
        apply (hread 'd' _ _ _ (by decide)).trans
        rw [redoLine_found, commandStep_delete, if_pos (isReference_found _)]
        exact iff_of_true rfl trivial

/-- A manager with one table, one registered update and implicit logging -/
def sampleState : State where
  workingDir := ascii "t/"
  nextStep := 1
  explicitLog := false
  found := ([], [])
  updateVals := [[]]
  updateOps := [.rep]

theorem sublog_lines_sample :
    ReadsBack sampleState sampleState 1 0 (ascii "t/a.parquet") .add (some (ascii "0")) :=
  (sublog_lines_iff sampleState sampleState (by decide) (by decide) (ascii "t/a.parquet") .add
    (some (ascii "0"))).mpr ⟨by decide, by decide⟩

/-- The removal of a file of the directory `lostfound` removes the found rows, and a key with a line
break is cut. -/
theorem found_path_misread :
    ¬ReadsBack { sampleState with explicitLog := true } sampleState 1 0
      (ascii "lostfound/a.parquet") .delete none ∧
    ¬ReadsBack sampleState sampleState 1 0 (ascii "t/a.parquet") .read (some [97, 10, 98]) := by
  unfold ReadsBack
  decide +kernel

end LakeVilla.Sublog

import LakeVilla.Protocol.Shift

/-!
# Operations leave the protocol alone

An operation of the user, or its redo, changes the local changes of some tables and the
transaction's logs; the versions in the snapshots and everything that the protocol remembers stay as
they are (`Txn.Operated`).
-/

namespace LakeVilla

open Concurrency

/-- The table up to the operations of the transaction. -/
structure TableStats.Operated (a b : TableStats) : Prop where
  eq : b = { a with
    deltaLog := b.deltaLog, createdFiles := b.createdFiles, deletedFiles := b.deletedFiles,
    wasRead := b.wasRead }
  versions : b.deltaLog.versions = a.deltaLog.versions

namespace TableStats.Operated

variable {a b c : TableStats}

theorem refl (a : TableStats) : a.Operated a := ⟨rfl, rfl⟩

theorem trans (h : a.Operated b) (h' : b.Operated c) : a.Operated c :=
  ⟨by rw [h'.eq, h.eq], h'.versions.trans h.versions⟩

end TableStats.Operated

/-- The transaction up to its operations. -/
structure Txn.Operated (t t' : Txn) : Prop where
  eq : t' = { t with
    tables := t'.tables, sublog := t'.sublog, updateVals := t'.updateVals,
    updateOps := t'.updateOps, foundFiles := t'.foundFiles, retiredFiles := t'.retiredFiles,
    nextFile := t'.nextFile }
  tables : List.Forall₂ TableStats.Operated t.tables t'.tables

namespace Txn.Operated

variable {t t' t'' : Txn}

theorem refl (t : Txn) : t.Operated t :=
  ⟨rfl, List.forall₂_same.mpr fun a _ ↦ .refl a⟩

theorem trans (h : t.Operated t') (h' : t'.Operated t'') : t.Operated t'' :=
  ⟨by rw [h'.eq, h.eq], h.tables.comp (fun h₁ h₂ ↦ h₁.trans h₂) h'.tables⟩

/-- Only logs of the transaction change. -/
theorem aside (h : t' = { t with
    sublog := t'.sublog, updateVals := t'.updateVals, updateOps := t'.updateOps,
    foundFiles := t'.foundFiles, retiredFiles := t'.retiredFiles, nextFile := t'.nextFile }) :
    t.Operated t' := by
  rw [h]
  exact ⟨rfl, List.forall₂_same.mpr fun a _ ↦ .refl a⟩

theorem modifyTable (h : t.Operated t') (i : ℕ) {f : TableStats → TableStats}
    (hf : ∀ a : TableStats, a.Operated (f a)) : t.Operated (t'.modifyTable i f) :=
  h.trans ⟨rfl, List.forall₂_modify TableStats.Operated.refl fun a _ ↦ hf a⟩

theorem foldl {α : Type} {f : Txn → α → Txn} (hf : ∀ (t : Txn) x, t.Operated (f t x)) (xs : List α)
    (t : Txn) : t.Operated (xs.foldl f t) := by
  induction xs generalizing t with
  | nil => exact .refl t
  | cons x xs ih => exact (hf t x).trans (ih (f t x))

end Txn.Operated

/-! ## The operations -/

namespace TableStats

theorem registerCreatedFile_operated (tbl : TableStats) (file : DataFile) (stats : FileStats)
    (overwrite : Bool) : tbl.Operated (tbl.registerCreatedFile file stats overwrite) := ⟨rfl, rfl⟩

theorem registerDeletedFile_operated (tbl : TableStats) (file : DataFile) :
    tbl.Operated (tbl.registerDeletedFile file) := ⟨rfl, rfl⟩

end TableStats

namespace Txn

variable (t : Txn) (i : ℕ)

theorem addSubstep_operated (type : SubOpType) (file : DataFile) (key : Option Text) :
    t.Operated (t.addSubstep type i file key) := by
  refine .aside ?_
  unfold addSubstep addSubstepExplicit addSubstepImplicit logStep
  split
  · split
    · cases type <;> rfl
    · cases type <;> cases key <;> rfl
  · rfl

theorem newDataFile_operated (tbl : TableStats) (rows : List Row) :
    t.Operated (t.newDataFile tbl rows).2 := .aside rfl

theorem writeRows_operated (tbl : TableStats) (rows : List Row) (updateId : Option ℕ) :
    t.Operated (t.writeRows i tbl rows updateId) :=
  (t.newDataFile_operated tbl rows).modifyTable i fun a ↦ a.registerCreatedFile_operated _ _ _

theorem getTableForRead_operated : t.Operated (t.getTableForRead i) :=
  (Operated.refl t).modifyTable i fun _ ↦ ⟨rfl, rfl⟩

theorem removeKeyRows_operated (file : DataFile) (key : Text) (prev : Option ℕ) (log : Bool) :
    t.Operated (t.removeKeyRows i file key prev log) := by
  unfold removeKeyRows
  split
  · exact .refl t
  · next tbl _ =>
    have hlog : ∀ (t' : Txn), t.Operated t' →
        t.Operated (if log = true then t'.logDeleteSubstep i file prev else t') := by
      intro t' h
      split
      · exact h.trans (t'.addSubstep_operated i _ _ _)
      · exact h
    refine (hlog _ ?_).modifyTable i fun a ↦ a.registerDeletedFile_operated file
    split
    · exact .refl t
    · have hnew := t.newDataFile_operated tbl (file.otherRows key)
      refine Operated.modifyTable ?_ i fun a ↦ a.registerCreatedFile_operated _ _ _
      split
      · exact hnew.trans (Txn.addSubstep_operated _ i _ _ _)
      · exact hnew

theorem removeFoundRows_operated : t.Operated (t.removeFoundRows i) := by
  refine Operated.foldl (fun t e ↦ ?_) _ t
  obtain ⟨f, key⟩ := e
  dsimp only
  split
  · exact .refl t
  · have h : t.Operated { t with retiredFiles := f :: t.retiredFiles } := .aside rfl
    refine h.trans ?_
    exact removeKeyRows_operated _ i f key none false

theorem executeRerollStep_operated (step : SublogStep) :
    t.Operated (t.executeRerollStep i step).2 := by
  have htoggle : ∀ f : TableStats → TableStats, (∀ a : TableStats, a.Operated (f a)) →
      t.Operated (t.modifyTable i f) := fun f hf ↦ (Operated.refl t).modifyTable i hf
  unfold executeRerollStep
  split
  · exact .refl t
  · next tbl _ =>
    cases step with
    | r => exact .refl t
    | s key => exact .aside rfl
    | a file =>
      dsimp only
      split
      · exact htoggle _ fun a ↦ ⟨rfl, rfl⟩
      · exact .refl t
      · split
        · exact t.writeRows_operated i tbl _ none
        · exact .refl t
    | e idx =>
      dsimp only
      split
      · exact (t.writeRows_operated i tbl _ none).trans (removeFoundRows_operated _ i)
      · exact .refl t
    | dFound => exact t.removeFoundRows_operated i
    | d file =>
      dsimp only
      split
      · exact htoggle _ fun a ↦ ⟨rfl, rfl⟩
      · exact t.removeFoundRows_operated i

theorem redoSteps_operated (steps : List (ℕ × SublogStep)) : t.Operated (redoSteps steps t).2 := by
  induction steps generalizing t with
  | nil => exact .refl t
  | cons e steps ih =>
    obtain ⟨i, step⟩ := e
    have h := t.executeRerollStep_operated i step
    unfold redoSteps
    split
    · next t' he =>
      rw [he] at h
      exact h.trans (ih t')
    · next t' he =>
      rw [he] at h
      exact h

theorem redo_operated : t.Operated t.redo.2 := t.redoSteps_operated t.sublog

theorem operate_operated (op : Op) : t.Operated (t.operate op) := by
  cases op with
  | readTable i => exact t.getTableForRead_operated i
  | readFile i key =>
    show t.Operated (t.readFileAsTable i key).2
    unfold readFileAsTable
    split
    · exact .refl t
    · dsimp only
      split
      · exact t.getTableForRead_operated i
      · exact (t.getTableForRead_operated i).trans (addSubstep_operated _ i _ _ _)
  | addRows i rows prev =>
    show t.Operated (t.addFileRows i rows prev).2
    unfold addFileRows
    split
    · exact .refl t
    · next tbl _ =>
      have h : t.Operated
          ((t.newDataFile tbl rows).2.logAddSubstep i (t.newDataFile tbl rows).1 prev) :=
        (t.newDataFile_operated tbl rows).trans (addSubstep_operated _ i .add _ _)
      dsimp only
      split
      · exact Operated.modifyTable h i fun a ↦ a.registerCreatedFile_operated _ _ _
      · exact h
  | addPath i file overwrite prev listed =>
    show t.Operated (t.addFilePath i file overwrite prev listed).2
    have h : t.Operated (t.logAddSubstep i file prev) := t.addSubstep_operated i .add file _
    have hsize : ∀ size : ℤ, t.Operated (if size < 0 then (false, t.logAddSubstep i file prev)
        else (true, (t.logAddSubstep i file prev).modifyTable i fun tbl ↦
          tbl.registerCreatedFile file { size := size } overwrite)).2 := by
      intro size
      split
      · exact h
      · exact h.modifyTable i fun a ↦ a.registerCreatedFile_operated _ _ _
    unfold addFilePath
    split
    · exact .refl t
    · show t.Operated (if (t.logAddSubstep i file prev).explicitLog || prev.isNone then _ else _ :
        Bool × Txn).2
      by_cases hp : ((t.logAddSubstep i file prev).explicitLog || prev.isNone) = true
      · rw [if_pos hp]
        exact hsize _
      · rw [if_neg hp]
        exact h
  | removePath i file prev =>
    show t.Operated (t.removeFilePath i file prev).2
    have h : t.Operated (t.logDeleteSubstep i file prev) := t.addSubstep_operated i .delete file _
    unfold removeFilePath
    split
    · exact .refl t
    · dsimp only
      split
      · exact h.modifyTable i fun a ↦ a.registerDeletedFile_operated _
      · exact h
  | removeKey i key prev =>
    show t.Operated (t.removeFileKey i key prev).2
    have h := t.getTableForRead_operated i
    unfold removeFileKey
    split
    · exact .refl t
    · dsimp only
      split
      · exact h
      · split
        · exact h.trans (Operated.foldl (fun t f ↦ t.removeKeyRows_operated i f key prev true) _ _)
        · exact (h.trans (addSubstep_operated _ i .read _ _)).trans
            (addSubstep_operated _ i .delete _ _)
  | registerValues values => exact .aside rfl
  | registerUpdate values op impl =>
    refine .aside ?_
    show (t.registerUpdatePairs values op impl).2 = _
    simp only [operate, registerUpdatePairs]
    split <;> rfl
  | openTable | commit | abort => exact .refl t

end Txn

end LakeVilla

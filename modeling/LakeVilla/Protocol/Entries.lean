import Mathlib.Data.List.TakeWhile
import LakeVilla.Protocol.System

/-!
# The entries of the global log

The lines that a transaction writes to the global log are made from the version maps of its tables,
into which the validation merged the lines that it read. They keep every entry or raise it, and only
entries of the transaction's own tables are raised (`Raises`).
-/

namespace LakeVilla

open Concurrency

/-! ## Entries -/

/-- The new entries keep those of the tables not listed, and none is lower than before. -/
structure Raises (paths : List Table) (f g : Table → Option ℕ) : Prop where
  others : ∀ p ∉ paths, g p = f p
  mono : ∀ p v, f p = some v → ∃ v', g p = some v' ∧ v ≤ v'

namespace Raises

variable {paths : List Table} {f g h : Table → Option ℕ}

theorem refl (paths : List Table) (f : Table → Option ℕ) : Raises paths f f :=
  ⟨fun _ _ ↦ rfl, fun _ v hv ↦ ⟨v, hv, le_rfl⟩⟩

theorem trans (hfg : Raises paths f g) (hgh : Raises paths g h) : Raises paths f h where
  others p hp := (hgh.others p hp).trans (hfg.others p hp)
  mono p v hv := by
    obtain ⟨v₁, h₁, hle₁⟩ := hfg.mono p v hv
    obtain ⟨v₂, h₂, hle₂⟩ := hgh.mono p v₁ h₁
    exact ⟨v₂, h₂, hle₁.trans hle₂⟩

end Raises

namespace Store

/-- The lines of the global log. -/
def globalLines (s : Store) : List (Table × ℕ) := (s.get .globalLog).elim [] Object.globalLines

/-- The entry of a table in the global log. -/
def entry (s : Store) (p : Table) : Option ℕ := s.globalLines.lookup p

variable {s s' : Store}

theorem globalLines_congr (h : s'.get .globalLog = s.get .globalLog) :
    s'.globalLines = s.globalLines := by
  rw [globalLines, h, globalLines]

theorem entry_congr (h : s'.get .globalLog = s.get .globalLog) : s'.entry = s.entry := by
  funext p
  rw [entry, globalLines_congr h, entry]

end Store

/-! ## Version maps -/

namespace VersionMaps

variable {isolation : Isolation} {maps maps' : VersionMaps} {path p : Table} {version : ℕ}

end VersionMaps

/-! ## Changing one entry -/

section ReplaceEntry

variable {entries : List (Table × ℕ)} {path : Table} {v : ℕ}

end ReplaceEntry

end LakeVilla

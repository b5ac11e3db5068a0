import LakeVilla.Checkpoint.LastCheckpoint
import LakeVilla.DeltaLog.FileNames
import Mathlib.Data.List.Sort
import Mathlib.Data.Prod.Lex

/-!
# The newest complete checkpoint of a listing

`newest_checkpoint` counts the files of a checkpoint by its version and its number of parts. A
checkpoint counts as complete if it has as many files as parts.
-/

namespace LakeVilla.Checkpoint

open ByteString DeltaLog
open Keys (StdError)

/-! ## Names of checkpoint files -/

def single : ByteString := ascii ".checkpoint.parquet"

/-- The suffix of a part, as `parse_checkpoint` builds it -/
def partSuffix (part parts : ℕ) : ByteString :=
  ascii ".checkpoint." ++ padded 10 part ++ ascii "." ++ padded 10 parts ++ ascii ".parquet"

/-- A file of a checkpoint: the single file, or a part. -/
inductive CheckpointFile
  | single
  | part (part parts : ℕ)
  deriving DecidableEq, Repr

/-- What follows the version in the name of a checkpoint file. -/
def checkpointFile (suffix : ByteString) : Option CheckpointFile :=
  if suffix = single then some .single
  -- .checkpoint.<part, 10 digits>.<parts, 10 digits>.parquet
  else if suffix.length ≠ 41 ∨ suffix.take 12 ≠ ascii ".checkpoint." ∨
      ¬AllDigits ((suffix.drop 12).take 10) ∨ (suffix.drop 22).take 1 ≠ ascii "." ∨
      ¬AllDigits ((suffix.drop 23).take 10) ∨ suffix.drop 33 ≠ ascii ".parquet" then none
  else
    let part := ofDecimal ((suffix.drop 12).take 10)
    let parts := ofDecimal ((suffix.drop 23).take 10)
    if 2 ≤ parts ∧ 1 ≤ part ∧ part ≤ parts then some (.part part parts) else none

/-! ## Counting -/

/-- A version and a number of parts -/
structure VersionParts where
  version : ℕ
  parts : ℕ
  deriving DecidableEq, Repr

/-- Files found per version and number of parts -/
abbrev Found := List (VersionParts × ℕ)

/-- One file is counted. The number of parts is kept in 32 bits, and so is the count. -/
def countFile (found : Found) (version : ℕ) : CheckpointFile → Found
  | .single => AssocList.insertOrAssign found ⟨version, 1⟩ 1
  | .part _ parts =>
    let checkpoint := ⟨version, parts % 2 ^ 32⟩
    AssocList.insertOrAssign found checkpoint
      (((found.lookup checkpoint).getD 0 + 1) % 2 ^ 32)

/-- The loop of `newest_checkpoint` over the objects. -/
def countObject (maxVersion : ℕ) (found : Found) (key : ByteString) : Except StdError Found :=
  match afterLast logDir key with
  | none => .ok found
  | some name =>
    if name.length < 20 ∨ ¬AllDigits (name.take 20) then .ok found
    else do
      let version ← stoull (name.take 20)
      if maxVersion < version then return found
      else
        match checkpointFile (name.drop 20) with
        | none => return found
        | some file => return countFile found version file

/-- The order of `std::map` -/
def keyLe (a b : VersionParts × ℕ) : Bool :=
  a.1.version < b.1.version || a.1.version = b.1.version && a.1.parts ≤ b.1.parts

/-- The loop over the counts. -/
def takeNewest (newest : CheckpointInfo) (e : VersionParts × ℕ) : CheckpointInfo :=
  if e.2 = e.1.parts ∧ newest.version.all (· < e.1.version) then
    { version := some e.1.version, parts := e.1.parts }
  else newest

/-- `newest_checkpoint` -/
def newestCheckpoint (objects : List ByteString) (maxVersion : ℕ) :
    Except StdError CheckpointInfo := do
  let found ← objects.foldlM (countObject maxVersion) []
  return (found.mergeSort keyLe).foldl takeNewest {}

/-- The files that `parse_checkpoint` reads -/
def checkpointFiles (basePath : ByteString) (version parts : ℕ) : List ByteString :=
  if parts ≤ 1 then [basePath ++ (logDir ++ logFileName version single)]
  else (List.range parts).map fun i ↦
    basePath ++ (logDir ++ logFileName version (partSuffix (i + 1) parts))

/-! ## What the loop counts -/

/-- The version and the file that a name says, whatever the size of the numbers. -/
def named (key : ByteString) : Option (ℕ × CheckpointFile) :=
  match afterLast logDir key with
  | none => none
  | some name =>
    if name.length < 20 ∨ ¬AllDigits (name.take 20) then none
    else (checkpointFile (name.drop 20)).map fun file ↦ (ofDecimal (name.take 20), file)

/-- The name begins with twenty digits that do not fit 64 bits. -/
def TooLarge (key : ByteString) : Prop :=
  ∃ name, afterLast logDir key = some name ∧ 20 ≤ name.length ∧ AllDigits (name.take 20) ∧
    2 ^ 64 ≤ ofDecimal (name.take 20)

theorem countObject_tooLarge {key : ByteString} (h : TooLarge key) (maxVersion : ℕ)
    (found : Found) : countObject maxVersion found key = .error .outOfRange := by
  obtain ⟨name, hname, hlen, hdigits, hlarge⟩ := h
  have hshape : ¬(name.length < 20 ∨ ¬AllDigits (name.take 20)) := by
    rw [not_or, not_lt, not_not]
    exact ⟨hlen, hdigits⟩
  simp only [countObject, hname, if_neg hshape, stoull, if_neg (not_lt.mpr hlarge)]
  rfl

theorem countObject_ok {key : ByteString} (h : ¬TooLarge key) (maxVersion : ℕ) (found : Found) :
    countObject maxVersion found key = .ok (match named key with
      | some (version, file) =>
        if maxVersion < version then found else countFile found version file
      | none => found) := by
  unfold countObject named
  cases hname : afterLast logDir key with
  | none => rfl
  | some name =>
    dsimp only
    split_ifs with hshape
    · rfl
    · rw [not_or, not_lt, not_not] at hshape
      have hsmall : ofDecimal (name.take 20) < 2 ^ 64 := by
        by_contra hlarge
        exact h ⟨name, hname, hshape.1, hshape.2, not_lt.mp hlarge⟩
      simp only [stoull, if_pos hsmall, bind, Except.bind, pure, Except.pure]
      cases checkpointFile (name.drop 20) with
      | none => exact ite_self _
      | some file =>
        simp only [Option.map_some]
        split_ifs
        · rfl
        · rfl

end LakeVilla.Checkpoint

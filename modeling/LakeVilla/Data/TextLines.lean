import Mathlib.Data.List.Basic

/-!
# Lines and the last occurrence of a character

`std::getline` in a loop (`getLines`) and `std::string::rfind` of one character (`splitAtLast`),
over any alphabet, and how they read back what was put together.
-/

namespace TextLines

variable {α : Type} [DecidableEq α]

/-- The lines that `std::getline` gives one after the other. -/
def getLines (newline : α) : List α → List (List α)
  | [] => []
  | c :: text =>
    if c = newline then [] :: getLines newline text
    else
      match getLines newline text with
      | [] => [[c]]
      | line :: lines => (c :: line) :: lines

/-- Each line with its end. -/
def unlines (newline : α) (lines : List (List α)) : List α := lines.flatMap (· ++ [newline])

/-- The lines with an end between any two of them. -/
def joinLines (newline : α) : List (List α) → List α
  | [] => []
  | line :: lines => line ++ lines.flatMap (newline :: ·)

/-- What stands before and behind the last `c`. -/
def splitAtLast (c : α) : List α → Option (List α × List α)
  | [] => none
  | b :: text =>
    match splitAtLast c text with
    | some (before, behind) => some (b :: before, behind)
    | none => if b = c then some ([], text) else none

variable {newline c : α} {text line before behind : List α} {lines : List (List α)}

theorem newline_not_mem_of_mem_getLines (h : line ∈ getLines newline text) : newline ∉ line := by
  induction text generalizing line with
  | nil => simp [getLines] at h
  | cons c text ih =>
    unfold getLines at h
    split at h
    · rcases List.mem_cons.mp h with rfl | h
      · exact List.not_mem_nil
      · exact ih h
    · next hc =>
      have hc : newline ≠ c := fun he ↦ hc he.symm
      split at h
      · obtain rfl := List.mem_singleton.mp h
        simpa using hc
      · next first rest hlines =>
        rcases List.mem_cons.mp h with rfl | h
        · have := ih (hlines ▸ List.mem_cons_self)
          simp [hc, this]
        · exact ih (hlines ▸ List.mem_cons_of_mem _ h)

theorem getLines_append_newline (h : newline ∉ line) (text : List α) :
    getLines newline (line ++ newline :: text) = line :: getLines newline text := by
  induction line with
  | nil => simp [getLines]
  | cons c line ih =>
    have hc : c ≠ newline := fun he ↦ h (he ▸ List.mem_cons_self)
    have ih := ih fun hmem ↦ h (List.mem_cons_of_mem _ hmem)
    rw [List.cons_append, getLines, if_neg hc, ih]

/-- **Lines are read back.** -/
theorem getLines_unlines (h : ∀ line ∈ lines, newline ∉ line) :
    getLines newline (unlines newline lines) = lines := by
  induction lines with
  | nil => rfl
  | cons line lines ih =>
    have ih := ih fun l hl ↦ h l (List.mem_cons_of_mem _ hl)
    have hline := getLines_append_newline (h line List.mem_cons_self) (unlines newline lines)
    rw [ih] at hline
    simpa [unlines] using hline

theorem getLines_eq_singleton (h : newline ∉ line) (hne : line ≠ []) :
    getLines newline line = [line] := by
  induction line with
  | nil => exact absurd rfl hne
  | cons c line ih =>
    have hc : c ≠ newline := fun he ↦ h (he ▸ List.mem_cons_self)
    rw [getLines, if_neg hc]
    by_cases hline : line = []
    · rw [hline, getLines]
    · rw [ih (fun hmem ↦ h (List.mem_cons_of_mem _ hmem)) hline]

/-- **Joined lines are read back**, if none is empty. -/
theorem getLines_joinLines (h : ∀ line ∈ lines, newline ∉ line ∧ line ≠ []) :
    getLines newline (joinLines newline lines) = lines := by
  cases lines with
  | nil => rfl
  | cons line lines =>
    rw [joinLines]
    induction lines generalizing line with
    | nil =>
      obtain ⟨hline, hne⟩ := h line List.mem_cons_self
      rw [List.flatMap_nil, List.append_nil, getLines_eq_singleton hline hne]
    | cons line' lines ih =>
      rw [List.flatMap_cons, List.cons_append,
        getLines_append_newline (h line List.mem_cons_self).1,
        ih line' fun l hl ↦ h l (List.mem_cons_of_mem _ hl)]

theorem splitAtLast_eq_none (h : c ∉ text) : splitAtLast c text = none := by
  induction text with
  | nil => rfl
  | cons b text ih =>
    have hb : b ≠ c := fun he ↦ h (he ▸ List.mem_cons_self)
    rw [splitAtLast, ih fun hmem ↦ h (List.mem_cons_of_mem _ hmem)]
    exact if_neg hb

theorem splitAtLast_append (h : c ∉ behind) :
    splitAtLast c (before ++ c :: behind) = some (before, behind) := by
  induction before with
  | nil => simp [splitAtLast, splitAtLast_eq_none h]
  | cons b before ih => rw [List.cons_append, splitAtLast, ih]

theorem splitAtLast_sound (h : splitAtLast c text = some (before, behind)) :
    text = before ++ c :: behind := by
  induction text generalizing before with
  | nil => cases h
  | cons b text ih =>
    unfold splitAtLast at h
    split at h
    · next before' behind' hrest =>
      obtain ⟨rfl, rfl⟩ := Prod.mk.inj (Option.some.inj h)
      rw [ih hrest, List.cons_append]
    · split at h
      · next hb =>
        obtain ⟨rfl, rfl⟩ := Prod.mk.inj (Option.some.inj h)
        rw [hb, List.nil_append]
      · cases h

end TextLines

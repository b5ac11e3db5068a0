import Mathlib.Data.List.Nodup

/-!
# Opening tables while the others stand still

Every table shows the running markers of transactions that have stopped, and one marker of the
opening transaction itself for each time that the table is open. A transaction registers whose
markers it sees. When a table shows a transaction that is registered already, the tables opened
before it are opened again, each once, with nothing registered; the table itself is not. If these
tables show a transaction twice, opening them again shows it twice once more: the markers of the
stopped transactions stay, and those of the opening transaction come back.
-/

namespace LakeVilla.Opening

variable {T X : Type}

/-- None of the transactions that are seen was registered, and none is seen twice. -/
def Fresh (registered seen : List X) : Prop := seen.Nodup ∧ ∀ x ∈ seen, x ∉ registered

instance [DecidableEq X] (registered seen : List X) : Decidable (Fresh registered seen) :=
  inferInstanceAs (Decidable (_ ∧ _))

section Seen

variable [DecidableEq T] (pending : T → List X) (own : X)

/-- The transactions that a table shows to the transaction `own`, which has it open as often as
`marked` contains it. -/
def seen (marked : List T) (p : T) : List X := pending p ++ List.replicate (marked.count p) own

/-- What the tables show when they are opened again one after the other. The tables of `marked` have
a marker before; with `again` those that are still to come have kept theirs. -/
def seenAgain (again : Bool) : List T → List T → List X
  | _, [] => []
  | marked, p :: ps =>
    seen pending own (marked ++ if again then ps else []) p ++ seenAgain again (p :: marked) ps

variable [DecidableEq X]

/-- What is registered after a table was opened; `none` if opening goes on forever, because a
transaction was seen again and the tables opened before show one twice. -/
def opening (opened : List T) (registered : List X) (p : T) : Option (List X) :=
  if Fresh registered (seen pending own opened p) then some (seen pending own opened p ++ registered)
  else if (seenAgain pending own false [p] opened).Nodup then
    some (seenAgain pending own false [p] opened)
  else none

/-- Opening the tables of a list comes to an end. A table that cannot be loaded ends the
transaction. -/
def Ends (loads : T → Prop) : List T → List X → List T → Prop
  | _, _, [] => True
  | opened, registered, p :: ps =>
    loads p → ∃ registered' ∈ opening pending own opened registered p,
      Ends loads (opened ++ [p]) registered' ps

instance decidableEnds (loads : T → Prop) [DecidablePred loads] :
    ∀ (opened : List T) (registered : List X) (ps : List T),
      Decidable (Ends pending own loads opened registered ps)
  | _, _, [] => inferInstanceAs (Decidable True)
  | opened, registered, p :: ps =>
    have : ∀ registered', Decidable (Ends pending own loads (opened ++ [p]) registered' ps) :=
      fun registered' ↦ decidableEnds loads (opened ++ [p]) registered' ps
    inferInstanceAs (Decidable (loads p → ∃ registered' ∈ opening pending own opened registered p,
      Ends pending own loads (opened ++ [p]) registered' ps))

end Seen

/-! ## Fresh transactions -/

variable {registered registered' l l' : List X} {x : X}

@[simp] theorem fresh_nil : Fresh registered [] := ⟨List.nodup_nil, by simp⟩

theorem fresh_append :
    Fresh registered (l ++ l') ↔ Fresh registered l ∧ Fresh (l ++ registered) l' := by
  unfold Fresh
  simp only [List.nodup_append', List.mem_append, List.disjoint_left]
  constructor
  · rintro ⟨⟨hl, hl', hdis⟩, hreg⟩
    exact ⟨⟨hl, fun y hy ↦ hreg y (.inl hy)⟩, hl',
      fun y hy ↦ not_or.mpr ⟨fun hyl ↦ hdis hyl hy, hreg y (.inr hy)⟩⟩
  · rintro ⟨⟨hl, hreg⟩, hl', hreg'⟩
    exact ⟨⟨hl, hl', fun y hy hy' ↦ hreg' y hy' (.inl hy)⟩, fun y hy ↦
      hy.elim (hreg y) fun hy' hyr ↦ hreg' y hy' (.inr hyr)⟩

theorem fresh_congr (hr : registered.Perm registered') (h : l.Perm l') :
    Fresh registered l ↔ Fresh registered' l' := by
  unfold Fresh
  simp only [h.nodup_iff, h.mem_iff, hr.mem_iff]

/-- With nothing registered only repetitions count. -/
theorem fresh_nil_left : Fresh [] l ↔ l.Nodup := by simp [Fresh]

/-! ## Opening again -/

variable [DecidableEq T] {pending : T → List X} {own : X} {marked marked' ps : List T} {p : T}

theorem seen_congr (h : marked.Perm marked') :
    seen pending own marked p = seen pending own marked' p := by
  rw [seen, seen, h.count_eq]

/-- Tables that have kept their markers show all that they show without. -/
theorem seenAgain_sublist (marked ps : List T) :
    (seenAgain pending own false marked ps).Sublist (seenAgain pending own true marked ps) := by
  induction ps generalizing marked with
  | nil => exact .refl _
  | cons p ps ih =>
    refine List.Sublist.append (List.Sublist.append (.refl _) ?_) (ih _)
    refine List.replicate_sublist_replicate own |>.mpr ?_
    simp

/-- **No end.** A transaction that is seen twice is seen twice again. -/
theorem not_nodup_again {again : Bool} (h : ¬(seenAgain pending own again marked ps).Nodup) :
    ¬(seenAgain pending own true marked ps).Nodup := by
  cases again with
  | false => exact fun h' ↦ h (h'.sublist (seenAgain_sublist marked ps))
  | true => exact h

/-! ## The tables of a list -/

variable [DecidableEq X] {loads : T → Prop} {opened : List T}

theorem ends_cons (hload : loads p)
    (hr : registered' ∈ opening pending own opened registered p) :
    Ends pending own loads opened registered (p :: ps) ↔
      Ends pending own loads (opened ++ [p]) registered' ps := by
  constructor
  · intro h
    obtain ⟨r, hr', hends⟩ := h hload
    exact Option.mem_unique hr' hr ▸ hends
  · exact fun h _ ↦ ⟨registered', hr, h⟩

theorem isSome_of_ends (h : Ends pending own loads opened registered (p :: ps)) (hload : loads p) :
    (opening pending own opened registered p).isSome = true := by
  obtain ⟨r, hr, -⟩ := h hload
  exact Option.isSome_of_mem hr

end LakeVilla.Opening

import Mathlib.Data.Nat.Basic
import Mathlib.Logic.Relation

/-!
# State machines of guarded actions

A specification in the style of TLA+ is a predicate of initial states and a disjunction of actions.
An action is enabled in the states that its guard admits, and its effect gives every variable its
next value. The disjuncts of the next-state relation are labels.
-/

namespace Concurrency

open Relation

/-- A guarded action. -/
structure GuardedAction (S : Type) where
  guard : S → Prop
  effect : S → S
  decGuard : DecidablePred guard := by infer_instance

instance {S : Type} (a : GuardedAction S) : DecidablePred a.guard := a.decGuard

/-- The initial states and, for each label, an action. -/
structure Machine (S L : Type) where
  init : S → Prop
  action : L → GuardedAction S

namespace Machine

variable {S L : Type} {M : Machine S L} {C C' : L → S → Prop} {s s' : S} {l : L}

/-- One step of the action with label `l`. -/
def Step (M : Machine S L) (l : L) (s s' : S) : Prop :=
  (M.action l).guard s ∧ s' = (M.action l).effect s

/-- The states that runs lead to in which every step meets `C`. -/
def Reaches (M : Machine S L) (C : L → S → Prop) (s : S) : Prop :=
  ∃ s₀, M.init s₀ ∧ ReflTransGen (fun s s' ↦ ∃ l, C l s ∧ M.Step l s s') s₀ s

/-- The reachable states. -/
def Reachable (M : Machine S L) (s : S) : Prop := M.Reaches (fun _ _ ↦ True) s

/-- **The run rule.** What holds initially and is kept by every step holds in every state of a
run. -/
theorem Reaches.invariant {P : S → Prop} (h : M.Reaches C s) (h0 : ∀ s, M.init s → P s)
    (hstep : ∀ l s, P s → C l s → (M.action l).guard s → P ((M.action l).effect s)) : P s := by
  obtain ⟨s₀, hinit, hrun⟩ := h
  induction hrun with
  | refl => exact h0 s₀ hinit
  | tail _ hs ih =>
    obtain ⟨l, hC, hg, rfl⟩ := hs
    exact hstep l _ ih hC hg

theorem Reaches.mono (hC : ∀ l s, C l s → (M.action l).guard s → C' l s) (h : M.Reaches C s) :
    M.Reaches C' s := by
  obtain ⟨s₀, hinit, hrun⟩ := h
  exact ⟨s₀, hinit, ReflTransGen.mono (fun _ _ ⟨l, hc, hs⟩ ↦ ⟨l, hC _ _ hc hs.1, hs⟩) _ _ hrun⟩

theorem Reaches.init (h : M.init s) : M.Reaches C s := ⟨s, h, .refl⟩

theorem Reaches.step (h : M.Reaches C s) (hC : C l s) (hs : M.Step l s s') : M.Reaches C s' := by
  obtain ⟨s₀, hinit, hrun⟩ := h
  exact ⟨s₀, hinit, hrun.tail ⟨l, hC, hs⟩⟩

/-- The state after the actions; `none` if one of them is not enabled. -/
def run (M : Machine S L) : List L → S → Option S
  | [], s => some s
  | l :: ls, s => if (M.action l).guard s then M.run ls ((M.action l).effect s) else none

/-- **Schedules are runs.** -/
theorem Reachable.run {ls : List L} (h : M.Reachable s) (hr : M.run ls s = some s') :
    M.Reachable s' := by
  induction ls generalizing s with
  | nil =>
    obtain rfl := Option.some.inj hr
    exact h
  | cons l ls ih =>
    unfold Machine.run at hr
    split at hr
    · next hg => exact ih (Reaches.step h trivial ⟨hg, rfl⟩) hr
    · cases hr

/-! ## Runs that end -/

/-- Every run from the state ends, and where it ends `Q` holds. -/
inductive Ends (M : Machine S L) (Q : S → Prop) : S → Prop
  | final {s : S} (hs : ∀ l, ¬(M.action l).guard s) (hQ : Q s) : Ends M Q s
  | step {s : S} (hs : ∃ l, (M.action l).guard s)
      (h : ∀ l, (M.action l).guard s → Ends M Q ((M.action l).effect s)) : Ends M Q s

/-- **The termination rule.** Every step keeps the invariant and lowers the measure. -/
theorem Ends.of_measure {P Q : S → Prop} (μ : S → ℕ)
    (hstep : ∀ l s, P s → (M.action l).guard s →
      P ((M.action l).effect s) ∧ μ ((M.action l).effect s) < μ s)
    (hfinal : ∀ s, P s → (∀ l, ¬(M.action l).guard s) → Q s) (h : P s) : M.Ends Q s := by
  induction hn : μ s using Nat.strong_induction_on generalizing s with
  | _ n ih =>
    by_cases hs : ∃ l, (M.action l).guard s
    · refine .step hs fun l hl ↦ ?_
      obtain ⟨hP, hlt⟩ := hstep l s h hl
      exact ih _ (hn ▸ hlt) hP rfl
    · have hs : ∀ l, ¬(M.action l).guard s := not_exists.mp hs
      exact .final hs (hfinal s h hs)

/-- Two properties of the ends of all runs hold together somewhere. -/
theorem Ends.exists_and {Q Q' : S → Prop} (h : M.Ends Q s) (h' : M.Ends Q' s) :
    ∃ s', Q s' ∧ Q' s' := by
  induction h with
  | final hs hQ =>
    cases h' with
    | final _ hQ' => exact ⟨_, hQ, hQ'⟩
    | step hs' _ => exact absurd hs'.choose_spec (hs _)
  | step hs _ ih =>
    obtain ⟨l, hl⟩ := hs
    cases h' with
    | final hs' _ => exact absurd hl (hs' l)
    | step _ h' => exact ih l hl (h' l hl)

end Machine

end Concurrency

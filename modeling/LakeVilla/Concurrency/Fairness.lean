import LakeVilla.Concurrency.Machine
import Mathlib.Order.Filter.AtTopBot.Basic

/-!
# Fair behaviours of a specification

A behaviour is an infinite sequence of states in which every step is an action or changes nothing.
Fairness says that actions do not wait forever: weak fairness for actions that are enabled from
some moment on (`∀ᶠ`), strong fairness for actions that are enabled again and again (`∃ᶠ`).

A property `P` leads to `Q` if no step leaves `P` without reaching `Q`, and some fair actions that
are not put off forever reach `Q` (`Behaviour.leadsTo`).
-/

namespace Concurrency

open Filter

variable {S L : Type} {M : Machine S L} {A : Set L} {P P' Q Q' R : S → Prop} {σ : ℕ → S} {s s' : S}

/-! ## Leads to -/

/-- Whenever `P` holds, `Q` holds then or later. -/
def LeadsTo (σ : ℕ → S) (P Q : S → Prop) : Prop := ∀ n, P (σ n) → ∃ m ≥ n, Q (σ m)

namespace LeadsTo

theorem mono (h : LeadsTo σ P Q) (hQ : ∀ s, Q s → Q' s) : LeadsTo σ P Q' := fun n hn ↦ by
  obtain ⟨m, hm, hq⟩ := h n hn
  exact ⟨m, hm, hQ _ hq⟩

theorem trans (h : LeadsTo σ P Q) (h' : LeadsTo σ Q R) : LeadsTo σ P R := fun n hn ↦ by
  obtain ⟨m, hm, hq⟩ := h n hn
  obtain ⟨k, hk, hr⟩ := h' m hq
  exact ⟨k, hm.trans hk, hr⟩

theorem of_imp (h : ∀ n, P (σ n) → Q (σ n)) : LeadsTo σ P Q := fun n hn ↦ ⟨n, le_rfl, h n hn⟩

theorem or (h : LeadsTo σ P Q) (h' : LeadsTo σ P' Q) : LeadsTo σ (fun s ↦ P s ∨ P' s) Q :=
  fun n hn ↦ hn.elim (h n) (h' n)

/-- What everything leads to holds again and again. -/
theorem frequently (h : LeadsTo σ (fun _ ↦ True) Q) : ∃ᶠ n in atTop, Q (σ n) :=
  frequently_atTop.mpr fun n ↦ h n trivial

end LeadsTo

namespace Machine

/-! ## Actions that change the state -/

/-- One of the actions takes place and changes the state. -/
def Takes (M : Machine S L) (A : Set L) (s s' : S) : Prop := s' ≠ s ∧ ∃ l ∈ A, M.Step l s s'

/-- One of the actions can change the state. -/
def Enabled (M : Machine S L) (A : Set L) (s : S) : Prop := ∃ s', M.Takes A s s'

theorem Enabled.of_guard {l : L} (hl : l ∈ A) (hg : (M.action l).guard s)
    (hne : (M.action l).effect s ≠ s) : M.Enabled A s := ⟨_, hne, l, hl, hg, rfl⟩

/-! ## Behaviours -/

structure Behaviour (M : Machine S L) (σ : ℕ → S) : Prop where
  init : M.init (σ 0)
  step : ∀ n, σ (n + 1) = σ n ∨ ∃ l, M.Step l (σ n) (σ (n + 1))

theorem Behaviour.reachable (h : M.Behaviour σ) (n : ℕ) : M.Reachable (σ n) := by
  induction n with
  | zero => exact .init h.init
  | succ n ih =>
    rcases h.step n with hstutter | ⟨l, hs⟩
    · rwa [hstutter]
    · exact Reaches.step ih trivial hs

def WeaklyFair (M : Machine S L) (A : Set L) (σ : ℕ → S) : Prop :=
  (∀ᶠ n in atTop, M.Enabled A (σ n)) → ∃ᶠ n in atTop, M.Takes A (σ n) (σ (n + 1))

def StronglyFair (M : Machine S L) (A : Set L) (σ : ℕ → S) : Prop :=
  (∃ᶠ n in atTop, M.Enabled A (σ n)) → ∃ᶠ n in atTop, M.Takes A (σ n) (σ (n + 1))

theorem StronglyFair.weaklyFair (h : M.StronglyFair A σ) : M.WeaklyFair A σ :=
  fun henabled ↦ h henabled.frequently

/-! ## Progress -/

/-- **The progress rule.** No step leaves `P` without reaching `Q`, and actions that reach `Q` do
not wait forever. -/
theorem Behaviour.leadsTo (h : M.Behaviour σ)
    (hkeep : ∀ l s s', M.Reachable s → P s → M.Step l s s' → P s' ∨ Q s')
    (htake : ∀ l ∈ A, ∀ s s', M.Reachable s → P s → M.Step l s s' → Q s')
    (hfair : (∀ᶠ n in atTop, P (σ n)) → ∃ᶠ n in atTop, M.Takes A (σ n) (σ (n + 1))) :
    LeadsTo σ P Q := by
  intro n hn
  by_contra hnever
  simp only [not_exists, not_and] at hnever
  have hstays : ∀ m ≥ n, P (σ m) := by
    intro m hm
    induction m, hm using Nat.le_induction with
    | base => exact hn
    | succ m hm ih =>
      rcases h.step m with hstutter | ⟨l, hs⟩
      · rwa [hstutter]
      · refine (hkeep l _ _ (h.reachable m) ih hs).resolve_right ?_
        exact hnever (m + 1) (le_trans hm (Nat.le_succ m))
  have htaken := hfair (eventually_atTop.mpr ⟨n, hstays⟩)
  obtain ⟨m, hm, -, l, hl, hs⟩ := frequently_atTop.mp htaken n
  exact hnever (m + 1) (le_trans hm (Nat.le_succ m))
    (htake l hl _ _ (h.reachable m) (hstays m hm) hs)

/-- Weakly fair actions that are enabled as long as `P` holds. -/
theorem Behaviour.leadsTo_of_weaklyFair (h : M.Behaviour σ) (hfair : M.WeaklyFair A σ)
    (hkeep : ∀ l s s', M.Reachable s → P s → M.Step l s s' → P s' ∨ Q s')
    (htake : ∀ l ∈ A, ∀ s s', M.Reachable s → P s → M.Step l s s' → Q s')
    (henabled : ∀ s, M.Reachable s → P s → M.Enabled A s) : LeadsTo σ P Q :=
  h.leadsTo hkeep htake fun hP ↦ hfair (hP.mono fun n hn ↦ henabled _ (h.reachable n) hn)

/-- Strongly fair actions that are enabled whenever `P` and `R` hold, and `R` holds again and
again. -/
theorem Behaviour.leadsTo_of_stronglyFair (h : M.Behaviour σ) (hfair : M.StronglyFair A σ)
    (hkeep : ∀ l s s', M.Reachable s → P s → M.Step l s s' → P s' ∨ Q s')
    (htake : ∀ l ∈ A, ∀ s s', M.Reachable s → P s → M.Step l s s' → Q s')
    (hR : ∃ᶠ n in atTop, R (σ n)) (henabled : ∀ s, M.Reachable s → P s → R s → M.Enabled A s) :
    LeadsTo σ P Q :=
  h.leadsTo hkeep htake fun hP ↦ hfair <| (hR.and_eventually hP).mono fun n hn ↦
    henabled _ (h.reachable n) hn.2 hn.1

end Machine

end Concurrency

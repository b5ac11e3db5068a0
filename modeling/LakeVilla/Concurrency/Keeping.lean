import LakeVilla.Concurrency.RelyGuarantee

/-!
# Code that keeps a property

A property of a client's memory and the shared state is kept by a piece of code if it holds after it
whenever it held before (`Keeps`). Most of a program keeps such a property for the reason that it
does not touch what the property speaks of; the rules here put the pieces together.
-/

namespace Concurrency

variable {I M C : Type} {R : C → Type} {S α β : Type}

/-- The steps of the other clients keep `K`. -/
def Stable (sem : Semantics I M R S) (P : Protocol I M R S) (i : I) (K : M → S → Prop) : Prop :=
  ∀ m s s', P.rely sem i s s' → K m s → K m s'

namespace Client

/-- The code keeps `K`. -/
def Keeps (sem : Semantics I M R S) (P : Protocol I M R S) (i : I) (K : M → S → Prop)
    (x : Client M R α) : Prop :=
  ∀ m s, P.inv s → K m s → wp sem P i x m (fun _ m' s' ↦ K m' s') s

namespace Keeps

variable {sem : Semantics I M R S} {P : Protocol I M R S} {i : I} {K : M → S → Prop}

theorem pure (hK : Stable sem P i K) (a : α) :
    Keeps sem P i K (Pure.pure a : Client M R α) :=
  fun m s _ hm ↦ wp_pure fun s' hr _ ↦ hK m s s' hr hm

theorem bind {x : Client M R α} {f : α → Client M R β} (h : Keeps sem P i K x)
    (hf : ∀ a, Keeps sem P i K (f a)) : Keeps sem P i K (x >>= f) :=
  fun m s hi hm ↦ wp_bind hi (wp_mono (h m s hi hm) fun a m' s' hi' hm' ↦ hf a m' s' hi' hm')

theorem get_bind {f : M → Client M R β} (hf : ∀ m, Keeps sem P i K (f m)) :
    Keeps sem P i K (get >>= f) :=
  fun m s hi hm ↦ wp_get_bind (hf m m s hi hm)

theorem modify_bind {g : M → M} {f : PUnit → Client M R β} (hg : ∀ m s, K m s → K (g m) s)
    (hf : Keeps sem P i K (f ())) : Keeps sem P i K (modify g >>= f) :=
  fun m s hi hm ↦ wp_modify_bind (hf (g m) s hi (hg m s hm))

theorem modify (hK : Stable sem P i K) {g : M → M} (hg : ∀ m s, K m s → K (g m) s) :
    Keeps sem P i K (modifyThe M g : Client M R PUnit) :=
  fun m s _ hm ↦ wp_modify fun s' hr _ ↦ hg m s' (hK m s s' hr hm)

theorem when (hK : Stable sem P i K) {b : Bool} {x : Client M R Unit} (h : Keeps sem P i K x) :
    Keeps sem P i K (when b x) :=
  fun m s hi hm ↦ wp_when (fun _ ↦ h m s hi hm) fun _ s' hr _ ↦ hK m s s' hr hm

theorem ite {p : Prop} [Decidable p] {x y : Client M R α} (h : Keeps sem P i K x)
    (h' : Keeps sem P i K y) : Keeps sem P i K (if p then x else y) :=
  fun m s hi hm ↦ wp_ite (fun _ ↦ h m s hi hm) fun _ ↦ h' m s hi hm

theorem diverge : Keeps sem P i K (diverge : Client M R α) := fun _ _ _ _ ↦ wp_diverge

/-- One call. -/
theorem perform {c : C} (h : ∀ m s s₁, K m s → P.rely sem i s s₁ → P.inv s₁ → ∀ r s₂,
      sem i m c s₁ r s₂ → P.inv s₂ ∧ P.guar i m c s₁ r s₂ ∧ K m s₂) (hK : Stable sem P i K) :
    Keeps sem P i K (perform c : Client M R (R c)) :=
  fun m s _ hm ↦ wp_perform fun s₁ h₁ hi₁ r s₂ hs ↦
    have ⟨hi₂, hg, hm₂⟩ := h m s s₁ hm h₁ hi₁ r s₂ hs
    ⟨hi₂, hg, fun s₃ h₃ _ ↦ hK m s₂ s₃ h₃ hm₂⟩

end Keeps

end Client

end Concurrency

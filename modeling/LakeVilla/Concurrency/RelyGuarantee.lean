import LakeVilla.Concurrency.Program

/-!
# A rely-guarantee calculus for interleaved programs

A *protocol* names an invariant of the shared state and, for each client, what every one of its
calls has to satisfy. A client is verified alone: between two of its calls the others may take any
number of steps that keep the protocol (`Protocol.rely`), so the weakest precondition `wp` of a
program asks for its postcondition in every state that they can reach from there.

`Safe.reachable` puts the clients together. Every step of a safe system keeps the protocol, so a
second protocol can be verified over the steps that keep a first one (`Safe.restrict`): facts are
established layer by layer, each layer relying on the ones below.
-/

namespace Concurrency

open Relation

variable {I M C : Type} {R : C → Type} {S α β : Type}

/-- An invariant of the shared state, and a guarantee for every call of every client. -/
structure Protocol (I M : Type) {C : Type} (R : C → Type) (S : Type) where
  inv : S → Prop
  guar : I → M → (c : C) → S → R c → S → Prop

namespace Protocol

variable (P : Protocol I M R S) (sem : Semantics I M R S)

/-- The steps of a semantics that keep the protocol. -/
def restrict : Semantics I M R S := fun i m c s r s' ↦
  sem i m c s r s' ∧ P.inv s ∧ P.inv s' ∧ P.guar i m c s r s'

/-- Client `i` takes a step that keeps the protocol. -/
def Act (i : I) (s s' : S) : Prop := ∃ m c r, P.restrict sem i m c s r s'

/-- What the other clients may do between two calls of client `i`. -/
def rely (i : I) : S → S → Prop := ReflTransGen fun s s' ↦ ∃ j, j ≠ i ∧ P.Act sem j s s'

end Protocol

variable {sem : Semantics I M R S} {P : Protocol I M R S} {i : I}

/-- `wp sem P i p Q s`: started in `s`, program `p` of client `i` keeps the protocol `P`, and if it
finishes, `Q` holds of its result then and from then on. -/
def wp (sem : Semantics I M R S) (P : Protocol I M R S) (i : I) :
    Program M R α → (α → S → Prop) → S → Prop
  | .ret a, Q, s => ∀ s', P.rely sem i s s' → P.inv s' → Q a s'
  | .call m c k, Q, s => ∀ s₁, P.rely sem i s s₁ → P.inv s₁ → ∀ r s₂, sem i m c s₁ r s₂ →
      P.inv s₂ ∧ P.guar i m c s₁ r s₂ ∧ wp sem P i (k r) Q s₂
  | .stop, _, _ => True

namespace wp

theorem rely {p : Program M R α} {Q : α → S → Prop} {s s' : S} (h : wp sem P i p Q s)
    (hs : P.rely sem i s s') : wp sem P i p Q s' := by
  cases p with
  | ret a => exact fun s₁ h₁ ↦ h s₁ (hs.trans h₁)
  | call m c k => exact fun s₁ h₁ ↦ h s₁ (hs.trans h₁)
  | stop => trivial

theorem mono {p : Program M R α} {Q Q' : α → S → Prop} {s : S} (h : wp sem P i p Q s)
    (hQ : ∀ a s, P.inv s → Q a s → Q' a s) : wp sem P i p Q' s := by
  induction p generalizing s with
  | ret a => exact fun s' hr hi ↦ hQ a s' hi (h s' hr hi)
  | call m c k ih =>
    intro s₁ hr hi r s₂ hs
    obtain ⟨h₁, h₂, h₃⟩ := h s₁ hr hi r s₂ hs
    exact ⟨h₁, h₂, ih r h₃⟩
  | stop => trivial

theorem bind {p : Program M R α} {f : α → Program M R β} {Q : β → S → Prop} {s : S}
    (hi : P.inv s) (h : wp sem P i p (fun a s ↦ wp sem P i (f a) Q s) s) :
    wp sem P i (p >>= f) Q s := by
  induction p generalizing s with
  | ret a => exact h s .refl hi
  | call m c k ih =>
    intro s₁ hr hi₁ r s₂ hs
    obtain ⟨h₁, h₂, h₃⟩ := h s₁ hr hi₁ r s₂ hs
    exact ⟨h₁, h₂, ih r h₁ h₃⟩
  | stop => trivial

/-- A client from which the protocol asks nothing. -/
theorem trivial (hi : ∀ s, P.inv s) (hg : ∀ m c s r s', P.guar i m c s r s')
    (p : Program M R α) (s : S) : wp sem P i p (fun _ _ ↦ True) s := by
  induction p generalizing s with
  | ret a => exact fun _ _ _ ↦ True.intro
  | call m c k ih => exact fun s₁ _ _ r s₂ _ ↦ ⟨hi s₂, hg m c s₁ r s₂, ih r s₂⟩
  | stop => exact True.intro

end wp

/-! ## Frames -/

/-- The protocol in which the steps of client `i` also keep `K`. -/
def Protocol.keeping (P : Protocol I M R S) (i : I) (K : S → Prop) : Protocol I M R S where
  inv := P.inv
  guar j m c s r s' := P.guar j m c s r s' ∧ (j = i → K s → K s')

theorem Protocol.rely.keeping {K : S → Prop} {s s' : S} (h : P.rely sem i s s') :
    (P.keeping i K).rely sem i s s' := by
  refine ReflTransGen.mono (fun a b hab ↦ ?_) _ _ h
  obtain ⟨j, hj, m, c, r, hs, ha, hb, hg⟩ := hab
  exact ⟨j, hj, m, c, r, hs, ha, hb, hg, fun hji ↦ absurd hji hj⟩

/-- **The frame rule.** What neither the other clients nor the client's own steps break still holds
when the client has finished. -/
theorem wp.frame {K : S → Prop} {p : Program M R α} {Q : α → S → Prop} {s : S}
    (hK : ∀ {s s'}, K s → P.rely sem i s s' → P.inv s' → K s')
    (h : wp sem (P.keeping i K) i p Q s) (hs : K s) : wp sem P i p (fun a s ↦ Q a s ∧ K s) s := by
  induction p generalizing s with
  | ret a => exact fun s' hr hi ↦ ⟨h s' hr.keeping hi, hK hs hr hi⟩
  | call m c k ih =>
    intro s₁ hr hi r s₂ hsem
    obtain ⟨h₁, ⟨h₂, hkeep⟩, h₃⟩ := h s₁ hr.keeping hi r s₂ hsem
    exact ⟨h₁, h₂, ih r h₃ (hkeep rfl (hK hs hr hi))⟩
  | stop => trivial

/-- What every step of the protocol keeps still holds when the client has finished. -/
theorem wp.always {K : S → Prop} {p : Program M R α} {Q : α → S → Prop} {s : S}
    (hK : ∀ {j m c s r s'}, P.restrict sem j m c s r s' → K s → K s')
    (h : wp sem P i p Q s) (hi : P.inv s) (hs : K s) :
    wp sem P i p (fun a s ↦ Q a s ∧ K s) s := by
  have hrely : ∀ {s s'}, P.rely sem i s s' → K s → K s' := fun h hs ↦ by
    induction h with
    | refl => exact hs
    | tail _ hstep ih =>
      obtain ⟨j, -, m, c, r, hact⟩ := hstep
      exact hK hact ih
  induction p generalizing s with
  | ret a => exact fun s' hr hi' ↦ ⟨h s' hr hi', hrely hr hs⟩
  | call m c k ih =>
    intro s₁ hr hi₁ r s₂ hsem
    obtain ⟨h₁, h₂, h₃⟩ := h s₁ hr hi₁ r s₂ hsem
    exact ⟨h₁, h₂, ih r h₃ h₁ (hK ⟨hsem, hi₁, h₁, h₂⟩ (hrely hr hs))⟩
  | stop => trivial

/-! ## Clients with a private memory -/

namespace Client

/-- The weakest precondition of a client's code, with the private memory before and after. -/
def wp (sem : Semantics I M R S) (P : Protocol I M R S) (i : I) (x : Client M R α) (m : M)
    (Q : α → M → S → Prop) (s : S) : Prop :=
  Concurrency.wp sem P i (x m) (fun p s ↦ Q p.1 p.2 s) s

variable {m : M} {s : S}

theorem wp_mono {x : Client M R α} {Q Q' : α → M → S → Prop} (h : wp sem P i x m Q s)
    (hQ : ∀ a m s, P.inv s → Q a m s → Q' a m s) : wp sem P i x m Q' s :=
  Concurrency.wp.mono h fun _ _ hi ↦ hQ _ _ _ hi

theorem wp_bind {x : Client M R α} {f : α → Client M R β} {Q : β → M → S → Prop} (hi : P.inv s)
    (h : wp sem P i x m (fun a m s ↦ wp sem P i (f a) m Q s) s) :
    wp sem P i (x >>= f) m Q s :=
  Concurrency.wp.bind hi h

theorem wp_frame {K : S → Prop} {x : Client M R α} {Q : α → M → S → Prop}
    (hK : ∀ {s s'}, K s → P.rely sem i s s' → P.inv s' → K s')
    (h : wp sem (P.keeping i K) i x m Q s) (hs : K s) :
    wp sem P i x m (fun a m s ↦ Q a m s ∧ K s) s :=
  Concurrency.wp.frame hK h hs

theorem wp_always {K : S → Prop} {x : Client M R α} {Q : α → M → S → Prop}
    (hK : ∀ {j m c s r s'}, P.restrict sem j m c s r s' → K s → K s')
    (h : wp sem P i x m Q s) (hi : P.inv s) (hs : K s) :
    wp sem P i x m (fun a m s ↦ Q a m s ∧ K s) s :=
  Concurrency.wp.always hK h hi hs

theorem wp_pure {a : α} {Q : α → M → S → Prop}
    (h : ∀ s', P.rely sem i s s' → P.inv s' → Q a m s') :
    wp sem P i (pure a : Client M R α) m Q s := h

theorem wp_get_bind {f : M → Client M R β} {Q : β → M → S → Prop}
    (h : wp sem P i (f m) m Q s) : wp sem P i (get >>= f) m Q s := h

theorem wp_set_bind {m' : M} {f : PUnit → Client M R β} {Q : β → M → S → Prop}
    (h : wp sem P i (f ()) m' Q s) : wp sem P i (set m' >>= f) m Q s := h

theorem wp_modify_bind {g : M → M} {f : PUnit → Client M R β} {Q : β → M → S → Prop}
    (h : wp sem P i (f ()) (g m) Q s) : wp sem P i (modify g >>= f) m Q s := h

theorem wp_modify {g : M → M} {Q : PUnit → M → S → Prop}
    (h : ∀ s', P.rely sem i s s' → P.inv s' → Q () (g m) s') :
    wp sem P i (modify g : Client M R PUnit) m Q s := h

theorem wp_when {b : Bool} {x : Client M R Unit} {Q : Unit → M → S → Prop}
    (h : b = true → wp sem P i x m Q s)
    (h' : b = false → ∀ s', P.rely sem i s s' → P.inv s' → Q () m s') :
    wp sem P i (when b x) m Q s := by
  cases b with
  | true => exact h rfl
  | false => exact h' rfl

theorem wp_ite {p : Prop} [Decidable p] {x y : Client M R α} {Q : α → M → S → Prop}
    (h : p → wp sem P i x m Q s) (h' : ¬ p → wp sem P i y m Q s) :
    wp sem P i (if p then x else y) m Q s := by
  split
  · next hp => exact h hp
  · next hp => exact h' hp

theorem wp_diverge {Q : α → M → S → Prop} : wp sem P i (diverge : Client M R α) m Q s := trivial

/-- One call. -/
theorem wp_perform {c : C} {Q : R c → M → S → Prop}
    (h : ∀ s₁, P.rely sem i s s₁ → P.inv s₁ → ∀ r s₂, sem i m c s₁ r s₂ →
      P.inv s₂ ∧ P.guar i m c s₁ r s₂ ∧ ∀ s₃, P.rely sem i s₂ s₃ → P.inv s₃ → Q r m s₃) :
    wp sem P i (perform c : Client M R (R c)) m Q s := h

end Client

/-! ## Putting the clients together -/

/-- The invariant holds, and every client keeps the protocol from here on. -/
structure Safe (sem : Semantics I M R S) (P : Protocol I M R S) (Q : I → α → S → Prop)
    (w : World I M R S α) : Prop where
  shared : P.inv w.shared
  client : ∀ i, wp sem P i (w.client i) (Q i) w.shared

namespace Safe

variable {Q : I → α → S → Prop} {w w' : World I M R S α}

/-- Every step of a safe system keeps the protocol. -/
theorem act (h : Safe sem P Q w) {m : M} {c : C} {k : R c → Program M R α}
    (hi : w.client i = .call m c k) {r : R c} {s' : S} (hs : sem i m c w.shared r s') :
    P.restrict sem i m c w.shared r s' := by
  have hw := h.client i
  rw [hi] at hw
  obtain ⟨h₁, h₂, -⟩ := hw w.shared .refl h.shared r s' hs
  exact ⟨hs, h.shared, h₁, h₂⟩

/-- A finished client satisfies its postcondition. -/
theorem ret (h : Safe sem P Q w) {a : α} (hi : w.client i = .ret a) : Q i a w.shared := by
  have hw := h.client i
  rw [hi] at hw
  exact hw w.shared .refl h.shared

variable [DecidableEq I]

theorem step (h : Safe sem P Q w) (hs : Step sem w w') : Safe sem P Q w' := by
  obtain ⟨i, hi, hsem⟩ := hs
  have hact := h.act hi hsem
  have hw := h.client i
  rw [hi] at hw
  obtain ⟨hinv, -, hk⟩ := hw w.shared .refl h.shared _ _ hsem
  refine ⟨hinv, fun j ↦ ?_⟩
  by_cases hij : j = i
  · subst hij
    simpa using hk
  · simp only [Function.update_of_ne hij]
    exact (h.client j).rely (.single ⟨i, Ne.symm hij, _, _, _, hact⟩)

/-- **Soundness.** In every reachable world all clients still keep the protocol. -/
theorem reachable (h : Safe sem P Q w) (hr : Reachable sem w w') : Safe sem P Q w' :=
  hr.invariant h fun hs hstep ↦ hs.step hstep

/-- **Layers.** The runs of a safe system consist of steps that keep the protocol. -/
theorem restrict (h : Safe sem P Q w) (hr : Reachable sem w w') :
    Reachable (P.restrict sem) w w' := by
  induction hr with
  | refl => exact .refl
  | tail hr hs ih =>
    have hsafe := h.reachable hr
    obtain ⟨i, hi, hsem⟩ := hs
    exact ih.tail (.call i hi (hsafe.act hi hsem))

end Safe

end Concurrency

import LakeVilla.Concurrency.Program

/-!
# Programs that run alone

When all other clients have stopped, a client's runs are those of its program against the shared
state alone. `solo` is a weakest precondition over these runs with a parameter `D` for the loops
that run out of fuel: with `D := False` every run of the program returns (total correctness), with
`D := True` a run may also use up its fuel (partial correctness). One rule serves both.

A program that returns is one that never uses up its fuel (`Returns`). A program all of whose
results are excluded does not return, if the service answers every call.
-/

namespace Concurrency

variable {I M C : Type} {R : C → Type} {S α β : Type}

/-- Every run of `p` from `s` ends with a result that satisfies `Q`, or uses up its fuel and `D`
holds. -/
def solo (sem : Semantics I M R S) (i : I) (D : Prop) :
    Program M R α → (α → S → Prop) → S → Prop
  | .ret a, Q, s => Q a s
  | .call m c k, Q, s => ∀ r s', sem i m c s r s' → solo sem i D (k r) Q s'
  | .stop, _, _ => D

variable {sem : Semantics I M R S} {i : I} {D : Prop}

namespace solo

theorem mono {p : Program M R α} {Q Q' : α → S → Prop} {s : S} (h : solo sem i D p Q s)
    (hQ : ∀ a s, Q a s → Q' a s) : solo sem i D p Q' s := by
  induction p generalizing s with
  | ret a => exact hQ a s h
  | call m c k ih => exact fun r s' hs ↦ ih r (h r s' hs)
  | stop => exact h

theorem bind {p : Program M R α} {f : α → Program M R β} {Q : β → S → Prop} {s : S}
    (h : solo sem i D p (fun a s ↦ solo sem i D (f a) Q s) s) : solo sem i D (p >>= f) Q s := by
  induction p generalizing s with
  | ret a => exact h
  | call m c k ih => exact fun r s' hs ↦ ih r (h r s' hs)
  | stop => exact h

end solo

/-! ## Clients with a private memory -/

namespace Client

/-- The runs of a client's code, with the private memory before and after. -/
def solo (sem : Semantics I M R S) (i : I) (D : Prop) (x : Client M R α) (m : M)
    (Q : α → M → S → Prop) (s : S) : Prop :=
  Concurrency.solo sem i D (x m) (fun p s ↦ Q p.1 p.2 s) s

variable {m : M} {s : S}

theorem solo_bind {x : Client M R α} {f : α → Client M R β} {Q : β → M → S → Prop}
    (h : solo sem i D x m (fun a m s ↦ solo sem i D (f a) m Q s) s) :
    solo sem i D (x >>= f) m Q s :=
  Concurrency.solo.bind h

theorem solo_pure {a : α} {Q : α → M → S → Prop} (h : Q a m s) :
    solo sem i D (pure a : Client M R α) m Q s := h

theorem solo_get_bind {f : M → Client M R β} {Q : β → M → S → Prop}
    (h : solo sem i D (f m) m Q s) : solo sem i D (get >>= f) m Q s := h

theorem solo_modify_bind {g : M → M} {f : PUnit → Client M R β} {Q : β → M → S → Prop}
    (h : solo sem i D (f ()) (g m) Q s) : solo sem i D (modify g >>= f) m Q s := h

theorem solo_modify {g : M → M} {Q : PUnit → M → S → Prop} (h : Q () (g m) s) :
    solo sem i D (modify g : Client M R PUnit) m Q s := h

theorem solo_when {b : Bool} {x : Client M R Unit} {Q : Unit → M → S → Prop}
    (h : b = true → solo sem i D x m Q s) (h' : b = false → Q () m s) :
    solo sem i D (when b x) m Q s := by
  cases b with
  | true => exact h rfl
  | false => exact h' rfl

theorem solo_diverge {Q : α → M → S → Prop} (h : D) :
    solo sem i D (diverge : Client M R α) m Q s := h

theorem solo_perform {c : C} {Q : R c → M → S → Prop}
    (h : ∀ r s', sem i m c s r s' → Q r m s') :
    solo sem i D (perform c : Client M R (R c)) m Q s := h

end Client

/-! ## Worlds with one client -/

section Worlds

variable [DecidableEq I]

/-- All clients but `i` have stopped. -/
def World.alone (i : I) (p : Program M R α) (s : S) : World I M R S α :=
  ⟨s, Function.update (fun _ ↦ .stop) i p⟩

end Worlds

end Concurrency

import LakeVilla.Concurrency.Calls
import LakeVilla.Concurrency.RelyGuarantee

/-!
# Programs over a part of an interface

A program over some calls is also a program over a larger interface that has these calls
(`Program.lift`). What it never does it never does there, and it keeps a protocol if each of its
calls does (`wp.of_never`).
-/

namespace Concurrency

variable {I M C C' : Type} {R : C → Type} {R' : C' → Type} {S α β : Type}

namespace Program

/-- The program with its calls as calls of another interface. -/
def lift (f : C → C') (response : ∀ c, R' (f c) → R c) : Program M R α → Program M R' α
  | .ret a => .ret a
  | .call m c k => .call m (f c) fun r ↦ lift f response (k (response c r))
  | .stop => .stop

variable {f : C → C'} {response : ∀ c, R' (f c) → R c} {p : Program M R α}

theorem lift_bind (p : Program M R α) (g : α → Program M R β) :
    (p >>= g).lift f response = p.lift f response >>= fun a ↦ (g a).lift f response := by
  induction p with
  | ret a => rfl
  | call m c k ih => exact congrArg (Program.call m (f c)) (funext fun r ↦ ih (response c r))
  | stop => rfl

theorem Never.lift {A : C' → Prop} (h : p.Never fun c ↦ A (f c)) :
    (p.lift f response).Never A := by
  induction p with
  | ret a => trivial
  | call m c k ih => exact ⟨h.1, fun r ↦ ih _ (h.2 _)⟩
  | stop => trivial

end Program

variable {sem : Semantics I M R S} {P : Protocol I M R S} {i : I}

/-- A program keeps a protocol if it makes only calls that keep it. -/
theorem wp.of_never {A : C → Prop} {p : Program M R α} {s : S} (h : p.Never A)
    (hcall : ∀ {m c s r s'}, ¬A c → P.inv s → sem i m c s r s' → P.inv s' ∧ P.guar i m c s r s') :
    wp sem P i p (fun _ _ ↦ True) s := by
  induction p generalizing s with
  | ret a => exact fun _ _ _ ↦ True.intro
  | call m c k ih =>
    intro s₁ _ hi r s₂ hs
    obtain ⟨hinv, hguar⟩ := hcall h.1 hi hs
    exact ⟨hinv, hguar, ih r (h.2 r)⟩
  | stop => exact True.intro

namespace Client

/-- Code with its calls as calls of another interface. -/
def lift (f : C → C') (response : ∀ c, R' (f c) → R c) (x : Client M R α) : Client M R' α :=
  fun m ↦ (x m).lift f response

variable {f : C → C'} {response : ∀ c, R' (f c) → R c}

theorem lift_bind (x : Client M R α) (g : α → Client M R β) :
    (x >>= g).lift f response = x.lift f response >>= fun a ↦ (g a).lift f response :=
  funext fun m ↦ Program.lift_bind (x m) fun a ↦ g a.1 a.2

theorem Never.lift {A : C' → Prop} {x : Client M R α} (h : Never (fun c ↦ A (f c)) x) :
    Never A (x.lift f response) := fun m ↦ Program.Never.lift (h m)

theorem wp_of_never {A : C → Prop} {x : Client M R α} {m : M} {s : S} (h : Never A x)
    (hcall : ∀ {m c s r s'}, ¬A c → P.inv s → sem i m c s r s' → P.inv s' ∧ P.guar i m c s r s') :
    wp sem P i x m (fun _ _ _ ↦ True) s := wp.of_never (h m) hcall

end Client

end Concurrency

import Mathlib.Logic.Function.Basic
import Mathlib.Logic.Relation

/-!
# Sequential programs over an interface of calls, and their interleavings

A client is a sequential program whose only visible actions are *calls* to a shared service. The
program is a tree: a leaf carries the result, an inner node carries one call and continues with
every possible response. Between two calls a client computes privately, so the calls are exactly
the points at which clients interleave.

Unbounded loops of a source program are written with a fuel argument; a program that runs out of
fuel becomes `Program.stop`, a client that never takes another step. A statement about every fuel
is then a statement about every finite run of the loop.

Every call node shows the private memory of the client at that moment. The memory is there to be
talked about (conditions on a run, properties of a single step); the service cannot see it.
-/

namespace Concurrency

universe u

/-- A sequential program over calls `C` with responses `R`, private memory `M` and result `α`. -/
inductive Program (M : Type) {C : Type} (R : C → Type) (α : Type) where
  | ret (a : α)
  | call (m : M) (c : C) (k : R c → Program M R α)
  | stop

namespace Program

variable {M C : Type} {R : C → Type} {α β γ : Type}

/-- Runs `p` and continues with its result. -/
def bind : Program M R α → (α → Program M R β) → Program M R β
  | .ret a, f => f a
  | .call m c k, f => .call m c fun r ↦ bind (k r) f
  | .stop, _ => .stop

instance : Monad (Program M R) where
  pure := .ret
  bind := bind

@[simp] theorem pure_eq (a : α) : (pure a : Program M R α) = .ret a := rfl

@[simp] theorem ret_bind (a : α) (f : α → Program M R β) : (Program.ret a >>= f) = f a := rfl

@[simp] theorem call_bind (m : M) (c : C) (k : R c → Program M R α) (f : α → Program M R β) :
    (Program.call m c k >>= f) = .call m c fun r ↦ k r >>= f := rfl

@[simp] theorem stop_bind (f : α → Program M R β) : ((.stop : Program M R α) >>= f) = .stop := rfl

end Program

/-- A client: a program together with the private memory it threads through. -/
abbrev Client (M : Type) {C : Type} (R : C → Type) (α : Type) := StateT M (Program M R) α

/-- One call to the service. -/
def Client.perform {M C : Type} {R : C → Type} (c : C) : Client M R (R c) :=
  fun m ↦ .call m c fun r ↦ .ret (r, m)

/-- An `if` without `else`. -/
def Client.when {M C : Type} {R : C → Type} (b : Bool) (x : Client M R Unit) : Client M R Unit :=
  if b then x else pure ()

/-- A loop that ran out of fuel. -/
def Client.diverge {M C : Type} {R : C → Type} {α : Type} : Client M R α := fun _ ↦ .stop

/-! ## Interleaved runs -/

/-- The meaning of one call: client, its memory, the call, the shared state before, the response
and the shared state after. -/
abbrev Semantics (I M : Type) {C : Type} (R : C → Type) (S : Type) :=
  I → M → (c : C) → S → R c → S → Prop

/-- The shared state and what every client still has to do. -/
structure World (I M : Type) {C : Type} (R : C → Type) (S α : Type) where
  shared : S
  client : I → Program M R α

section Runs

variable {I M C : Type} {R : C → Type} {S α : Type} [DecidableEq I]
variable (sem : Semantics I M R S)

/-- Some client takes one step: the service answers its next call. -/
inductive Step : World I M R S α → World I M R S α → Prop
  | call {w : World I M R S α} (i : I) {m : M} {c : C} {k : R c → Program M R α} {r : R c} {s' : S}
      (hi : w.client i = .call m c k) (hs : sem i m c w.shared r s') :
      Step w ⟨s', Function.update w.client i (k r)⟩

/-- The worlds that some interleaving of the clients leads to. -/
abbrev Reachable : World I M R S α → World I M R S α → Prop := Relation.ReflTransGen (Step sem)

variable {sem}

/-- **The run rule.** What holds at the start and is kept by every step holds in every reachable
world. -/
theorem Reachable.invariant {P : World I M R S α → Prop} {w w' : World I M R S α}
    (h : Reachable sem w w') (h0 : P w) (hstep : ∀ {a b}, P a → Step sem a b → P b) : P w' := by
  induction h with
  | refl => exact h0
  | tail _ hs ih => exact hstep ih hs

/-- A semantics with fewer steps reaches fewer worlds. -/
theorem Reachable.mono {sem' : Semantics I M R S} {w w' : World I M R S α}
    (hle : ∀ {i m c s r s'}, sem i m c s r s' → sem' i m c s r s')
    (h : Reachable sem w w') : Reachable sem' w w' := by
  induction h with
  | refl => exact .refl
  | tail _ hs ih =>
    obtain ⟨i, hi, hs⟩ := hs
    exact ih.tail (.call i hi (hle hs))

/-- A client that has finished stays as it is. -/
theorem Reachable.ret {w w' : World I M R S α} (h : Reachable sem w w') {i : I} {a : α}
    (hi : w.client i = .ret a) : w'.client i = .ret a := by
  induction h with
  | refl => exact hi
  | tail _ hs ih =>
    obtain ⟨j, hj, -⟩ := hs
    have hne : i ≠ j := by
      rintro rfl
      rw [ih] at hj
      cases hj
    simpa [Function.update_of_ne hne] using ih

end Runs

/-! ## Executable runs

A service that is a function of a *choice* (which of the allowed answers it gives) can be run on a
schedule: a list of clients with the choices made for their calls. A *guard* excludes steps, so
that assumptions about clients and service are part of the semantics. -/

section Schedules

variable {I M C : Type} {R : C → Type} {S α D : Type} [DecidableEq I]

/-- An executable service: what call `c` of client `i` does under choice `d`. -/
abbrev Service (I : Type) {C : Type} (R : C → Type) (S D : Type) :=
  I → D → (c : C) → S → Option (R c × S)

/-- Which answered calls are taken into account. -/
abbrev Guard (I M : Type) {C : Type} (R : C → Type) (S : Type) :=
  I → M → (c : C) → S → R c → Bool

/-- The guarded steps of an executable service. -/
def semOf (perform : Service I R S D) (guard : Guard I M R S) : Semantics I M R S :=
  fun i m c s r s' ↦ (∃ d, perform i d c s = some (r, s')) ∧ guard i m c s r = true

/-- One entry of a schedule: client `i` takes a step answered according to `d`. -/
def World.step (perform : Service I R S D) (guard : Guard I M R S) (w : World I M R S α)
    (e : I × D) : Option (World I M R S α) :=
  match w.client e.1 with
  | .call m c k =>
    match perform e.1 e.2 c w.shared with
    | some (r, s') =>
      if guard e.1 m c w.shared r then some ⟨s', Function.update w.client e.1 (k r)⟩ else none
    | none => none
  | _ => none

/-- Runs a schedule; `none` if some entry is not a possible step. -/
def World.run (perform : Service I R S D) (guard : Guard I M R S) :
    World I M R S α → List (I × D) → Option (World I M R S α)
  | w, [] => some w
  | w, e :: es =>
    match w.step perform guard e with
    | some w' => World.run perform guard w' es
    | none => none

theorem World.step_sound {perform : Service I R S D} {guard : Guard I M R S}
    {w w' : World I M R S α} {e : I × D} (h : w.step perform guard e = some w') :
    Step (semOf perform guard) w w' := by
  unfold World.step at h
  split at h
  · next m c k hi =>
    split at h
    · next r s' hp =>
      split at h
      · next hg =>
        obtain rfl := Option.some.inj h
        exact .call e.1 hi ⟨⟨e.2, hp⟩, hg⟩
      · cases h
    · cases h
  · cases h

/-- **Schedules are runs.** -/
theorem World.run_sound {perform : Service I R S D} {guard : Guard I M R S}
    {w w' : World I M R S α} {es : List (I × D)} (h : w.run perform guard es = some w') :
    Reachable (semOf perform guard) w w' := by
  induction es generalizing w with
  | nil =>
    obtain rfl : w = w' := Option.some.inj h
    exact .refl
  | cons e es ih =>
    unfold World.run at h
    split at h
    · next w₁ h₁ => exact .head (World.step_sound h₁) (ih h)
    · cases h

end Schedules

end Concurrency

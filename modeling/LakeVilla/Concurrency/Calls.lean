import LakeVilla.Concurrency.Program

/-!
# The calls that a program may still make

A program is a tree of calls, so what it may still do can be read off it, whatever the service
answers. `Never A` says that no call of the program meets `A`, and `Always G` that every call meets
`G` together with what follows it. Both are kept when the program takes a step.

Conditions on a run may depend on what the clients may still do (`ReachableUnder`).
-/

namespace Concurrency

variable {I M C : Type} {R : C → Type} {S α β : Type}

namespace Program

/-- No call of the program meets `A`. -/
def Never (A : C → Prop) : Program M R α → Prop
  | .ret _ => True
  | .call _ c k => ¬A c ∧ ∀ r, Never A (k r)
  | .stop => True

/-- Every call of the program and what follows it meet `G`. -/
def Always (G : (c : C) → (R c → Program M R α) → Prop) : Program M R α → Prop
  | .ret _ => True
  | .call _ c k => G c k ∧ ∀ r, Always G (k r)
  | .stop => True

variable {A : C → Prop} {p : Program M R α} {f : α → Program M R β}

theorem Never.bind (h : p.Never A) (hf : ∀ a, (f a).Never A) : (p >>= f).Never A := by
  induction p with
  | ret a => exact hf a
  | call m c k ih => exact ⟨h.1, fun r ↦ ih r (h.2 r)⟩
  | stop => trivial

/-- What the rest of the program never does, no call of it is followed by. -/
theorem Always.of_never {G : (c : C) → (R c → Program M R α) → Prop}
    (hG : ∀ c k, (∀ r, (k r).Never A) → G c k) (h : p.Never A) : p.Always G := by
  induction p with
  | ret a => trivial
  | call m c k ih => exact ⟨hG c k h.2, fun r ↦ ih r (h.2 r)⟩
  | stop => trivial

/-- A part of the program whose calls meet `G` whatever follows them. -/
theorem Always.bind {G : (c : C) → (R c → Program M R β) → Prop}
    (hG : ∀ c k, ¬A c → G c k) (h : p.Never A) (hf : ∀ a, (f a).Always G) :
    (p >>= f).Always G := by
  induction p with
  | ret a => exact hf a
  | call m c k ih => exact ⟨hG c _ h.1, fun r ↦ ih r (h.2 r)⟩
  | stop => trivial

/-- The result of the program is renamed. -/
theorem Always.bind_ret {G : (c : C) → (R c → Program M R α) → Prop}
    {G' : (c : C) → (R c → Program M R β) → Prop} {g : α → β}
    (hG : ∀ c k, G c k → G' c fun r ↦ k r >>= fun a ↦ .ret (g a)) (h : p.Always G) :
    (p >>= fun a ↦ .ret (g a)).Always G' := by
  induction p with
  | ret a => trivial
  | call m c k ih => exact ⟨hG c k h.1, fun r ↦ ih r (h.2 r)⟩
  | stop => trivial

end Program

/-! ## Clients with a private memory -/

namespace Client

/-- No call of the client's code meets `A`. -/
def Never (A : C → Prop) (x : Client M R α) : Prop := ∀ m, (x m).Never A

namespace Never

variable {A : C → Prop} {x y : Client M R α}

theorem pure (a : α) : Never A (Pure.pure a : Client M R α) := fun _ ↦ trivial

theorem bind {f : α → Client M R β} (h : Never A x) (hf : ∀ a, Never A (f a)) :
    Never A (x >>= f) := fun m ↦ Program.Never.bind (h m) fun a ↦ hf a.1 a.2

theorem get_bind {f : M → Client M R β} (hf : ∀ m, Never A (f m)) : Never A (get >>= f) :=
  fun m ↦ hf m m

theorem set_bind {m' : M} {f : PUnit → Client M R β} (hf : Never A (f ())) :
    Never A (set m' >>= f) := fun _ ↦ hf m'

theorem modify {g : M → M} : Never A (modifyThe M g : Client M R PUnit) := fun _ ↦ trivial

theorem ite {p : Prop} [Decidable p] (h : Never A x) (h' : Never A y) :
    Never A (if p then x else y) := by
  split
  · exact h
  · exact h'

theorem diverge : Never A (diverge : Client M R α) := fun _ ↦ trivial

theorem perform {c : C} (h : ¬A c) : Never A (perform c : Client M R (R c)) :=
  fun _ ↦ ⟨h, fun _ ↦ trivial⟩

end Never

end Client

/-! ## Steps of one client -/

section Worlds

variable [DecidableEq I] {sem : Semantics I M R S} {w w' : World I M R S α} {i : I}

/-- Client `i` takes one step. -/
def StepOf (sem : Semantics I M R S) (i : I) (w w' : World I M R S α) : Prop :=
  ∃ m c k r s', w.client i = .call m c k ∧ sem i m c w.shared r s' ∧
    w' = ⟨s', Function.update w.client i (k r)⟩

theorem StepOf.step (h : StepOf sem i w w') : Step sem w w' := by
  obtain ⟨m, c, k, r, s', hi, hs, rfl⟩ := h
  exact .call i hi hs

theorem StepOf.client_of_ne (h : StepOf sem i w w') {j : I} (hj : j ≠ i) :
    w'.client j = w.client j := by
  obtain ⟨m, c, k, r, s', -, -, rfl⟩ := h
  exact Function.update_of_ne hj ..

/-- The worlds that runs lead to in which every step meets `cond`. -/
def ReachableUnder (sem : Semantics I M R S) (cond : I → World I M R S α → World I M R S α → Prop) :
    World I M R S α → World I M R S α → Prop :=
  Relation.ReflTransGen fun w w' ↦ ∃ i, StepOf sem i w w' ∧ cond i w w'

variable {cond : I → World I M R S α → World I M R S α → Prop}

theorem ReachableUnder.reachable (h : ReachableUnder sem cond w w') : Reachable sem w w' :=
  Relation.ReflTransGen.mono (fun _ _ ⟨_, hs, _⟩ ↦ hs.step) _ _ h

/-- **The run rule.** -/
theorem ReachableUnder.invariant {P : World I M R S α → Prop} (h : ReachableUnder sem cond w w')
    (h0 : P w)
    (hstep : ∀ i a b, Reachable sem w a → P a → StepOf sem i a b → cond i a b → P b) : P w' := by
  induction h with
  | refl => exact h0
  | tail hr hs ih =>
    obtain ⟨i, hs, hcond⟩ := hs
    exact hstep i _ _ (ReachableUnder.reachable hr) ih hs hcond

/-- What all calls of a client meet, they meet in every world that is reached. -/
theorem Reachable.always {G : (c : C) → (R c → Program M R α) → Prop}
    (h : Reachable sem w w') (hi : (w.client i).Always G) : (w'.client i).Always G := by
  induction h with
  | refl => exact hi
  | tail _ hs ih =>
    obtain ⟨j, hj, hs⟩ := hs
    by_cases hij : i = j
    · subst hij
      rw [hj] at ih
      simpa using ih.2 _
    · simpa [Function.update_of_ne hij] using ih

end Worlds

/-! ## Schedules -/

section Schedules

variable {D : Type} [DecidableEq I] {perform : Service I R S D} {guard : Guard I M R S}

theorem StepOf.of_step {w w' : World I M R S α} {e : I × D}
    (h : w.step perform guard e = some w') : StepOf (semOf perform guard) e.1 w w' := by
  unfold World.step at h
  split at h
  · next m c k hi =>
    split at h
    · next r s' hp =>
      split at h
      · next hg => exact ⟨m, c, k, r, s', hi, ⟨⟨e.2, hp⟩, hg⟩, (Option.some.inj h).symm⟩
      · cases h
    · cases h
  · cases h

/-- Runs a schedule as long as the steps meet a condition. -/
def World.runUnder (perform : Service I R S D) (guard : Guard I M R S)
    (check : I → World I M R S α → World I M R S α → Bool) :
    World I M R S α → List (I × D) → Option (World I M R S α)
  | w, [] => some w
  | w, e :: es =>
    match w.step perform guard e with
    | some w' => if check e.1 w w' then World.runUnder perform guard check w' es else none
    | none => none

theorem World.runUnder_sound {check : I → World I M R S α → World I M R S α → Bool}
    {cond : I → World I M R S α → World I M R S α → Prop}
    (hcheck : ∀ i w w', check i w w' = true → cond i w w') {w w' : World I M R S α}
    {es : List (I × D)} (h : w.runUnder perform guard check es = some w') :
    ReachableUnder (semOf perform guard) cond w w' := by
  induction es generalizing w with
  | nil =>
    obtain rfl : w = w' := Option.some.inj h
    exact .refl
  | cons e es ih =>
    unfold World.runUnder at h
    split at h
    · next w₁ h₁ =>
      split at h
      · next hc => exact .head ⟨e.1, .of_step h₁, hcheck _ _ _ hc⟩ (ih h)
      · cases h
    · cases h

end Schedules

end Concurrency

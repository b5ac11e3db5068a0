import Mathlib.Data.List.Forall2

/-!
# Lists changed at a position

A list whose entry at one position is changed by `List.modify`, and lists that are related entry by
entry.
-/

namespace List

variable {α β γ : Type}

theorem exists_append_of_getElem? {l : List α} {n : ℕ} {a : α} (h : l[n]? = some a) :
    ∃ l₁ l₂, l = l₁ ++ a :: l₂ ∧ l₁.length = n := by
  obtain ⟨hn, rfl⟩ := getElem?_eq_some_iff.mp h
  refine ⟨l.take n, l.drop (n + 1), ?_, length_take_of_le (Nat.le_of_lt hn)⟩
  rw [← drop_eq_getElem_cons hn, take_append_drop]

theorem eraseIdx_append_cons (l₁ : List α) (a : α) (l₂ : List α) :
    (l₁ ++ a :: l₂).eraseIdx l₁.length = l₁ ++ l₂ := by
  rw [eraseIdx_append_of_length_le (Nat.le_refl _), Nat.sub_self, eraseIdx_zero, tail_cons]

theorem set_append_cons (l₁ : List α) (a b : α) (l₂ : List α) :
    (l₁ ++ a :: l₂).set l₁.length b = l₁ ++ b :: l₂ := by
  rw [set_append_right _ _ (Nat.le_refl _), Nat.sub_self, set_cons_zero]

theorem getElem?_append_cons (l₁ : List α) (a : α) (l₂ : List α) :
    (l₁ ++ a :: l₂)[l₁.length]? = some a := by
  rw [getElem?_append_right (Nat.le_refl _), Nat.sub_self]
  rfl

theorem modify_append_cons (l₁ : List α) (a : α) (l₂ : List α) (f : α → α) :
    (l₁ ++ a :: l₂).modify l₁.length f = l₁ ++ f a :: l₂ := by
  induction l₁ with
  | nil => rfl
  | cons b l₁ ih => exact congrArg (b :: ·) ih

theorem mem_modify {l : List α} {n : ℕ} {f : α → α} {x : α} (h : x ∈ l.modify n f) :
    x ∈ l ∨ ∃ a, l[n]? = some a ∧ x = f a := by
  obtain ⟨j, hj⟩ := mem_iff_getElem?.mp h
  rw [getElem?_modify] at hj
  by_cases hn : n = j
  · subst hn
    obtain ⟨a, ha, rfl⟩ := Option.map_eq_some_iff.mp hj
    exact .inr ⟨a, ha, by simp⟩
  · obtain ⟨a, ha, rfl⟩ := Option.map_eq_some_iff.mp hj
    rw [if_neg hn]
    exact .inl (mem_of_getElem? ha)

theorem getElem?_modify_eq_some {l : List α} {n m : ℕ} {f : α → α} {x : α}
    (h : (l.modify n f)[m]? = some x) :
    (m = n ∧ ∃ a, l[n]? = some a ∧ x = f a) ∨ m ≠ n ∧ l[m]? = some x := by
  rw [getElem?_modify] at h
  obtain ⟨a, ha, rfl⟩ := Option.map_eq_some_iff.mp h
  by_cases hm : n = m
  · subst hm
    exact .inl ⟨rfl, a, ha, by simp⟩
  · exact .inr ⟨Ne.symm hm, by simpa [hm] using ha⟩

theorem modify_eq_of_getElem? {l : List α} {n : ℕ} {a : α} (h : l[n]? = some a) (f : α → α) :
    l.modify n f = l.modify n fun _ ↦ f a := by
  refine ext_getElem? fun m ↦ ?_
  rw [getElem?_modify, getElem?_modify]
  by_cases hm : n = m
  · subst hm
    simp [h]
  · simp [hm]

theorem map_modify_eq {l : List α} {n : ℕ} {f : α → α} (g : α → β)
    (h : ∀ a, l[n]? = some a → g (f a) = g a) : (l.modify n f).map g = l.map g := by
  refine ext_getElem? fun m ↦ ?_
  rw [getElem?_map, getElem?_map, getElem?_modify]
  by_cases hm : n = m
  · subst hm
    cases ha : l[n]? with
    | none => rfl
    | some a => simp [h a ha]
  · simp [hm]

theorem any_modify_eq {l : List α} {n : ℕ} {f : α → α} (p : α → Bool) (h : ∀ a, p (f a) = p a) :
    (l.modify n f).any p = l.any p := by
  have := congrArg (fun bs ↦ bs.any id) (map_modify_eq (l := l) (n := n) p fun a _ ↦ h a)
  simpa [List.any_map] using this

theorem forall₂_modify {R : α → α → Prop} (hR : ∀ a, R a a) {l : List α} {n : ℕ} {f : α → α}
    (hf : ∀ a, l[n]? = some a → R a (f a)) : Forall₂ R l (l.modify n f) := by
  induction l generalizing n with
  | nil => simp
  | cons a l ih =>
    cases n with
    | zero => exact .cons (hf a rfl) (forall₂_same.mpr fun b _ ↦ hR b)
    | succ n => exact .cons (hR a) (ih hf)

theorem Forall₂.exists_left {R : α → β → Prop} {l : List α} {l' : List β} (h : Forall₂ R l l')
    {b : β} (hb : b ∈ l') : ∃ a ∈ l, R a b := by
  induction h with
  | nil => cases hb
  | cons hab _ ih =>
    rcases mem_cons.mp hb with rfl | hb
    · exact ⟨_, mem_cons_self, hab⟩
    · obtain ⟨a, ha, hr⟩ := ih hb
      exact ⟨a, mem_cons_of_mem _ ha, hr⟩

theorem Forall₂.exists_right {R : α → β → Prop} {l : List α} {l' : List β} (h : Forall₂ R l l')
    {a : α} (ha : a ∈ l) : ∃ b ∈ l', R a b := by
  obtain ⟨b, hb, hr⟩ := Forall₂.exists_left h.flip ha
  exact ⟨b, hb, hr⟩

theorem Forall₂.getElem?_left {R : α → β → Prop} {l : List α} {l' : List β} (h : Forall₂ R l l')
    {n : ℕ} {b : β} (hb : l'[n]? = some b) : ∃ a, l[n]? = some a ∧ R a b := by
  induction h generalizing n with
  | nil => cases hb
  | cons hab _ ih =>
    cases n with
    | zero =>
      obtain rfl := Option.some.inj hb
      exact ⟨_, rfl, hab⟩
    | succ n => exact ih hb

theorem Forall₂.getElem?_right {R : α → β → Prop} {l : List α} {l' : List β} (h : Forall₂ R l l')
    {n : ℕ} {a : α} (ha : l[n]? = some a) : ∃ b, l'[n]? = some b ∧ R a b :=
  h.flip.getElem?_left ha

theorem Forall₂.comp {R : α → β → Prop} {S : β → γ → Prop} {T : α → γ → Prop}
    (hT : ∀ {a b c}, R a b → S b c → T a c) {l : List α} {l' : List β} {l'' : List γ}
    (h : Forall₂ R l l') (h' : Forall₂ S l' l'') : Forall₂ T l l'' := by
  induction h generalizing l'' with
  | nil =>
    cases h'
    exact .nil
  | cons hab _ ih =>
    cases h' with
    | cons hbc h' => exact .cons (hT hab hbc) (ih h')

end List

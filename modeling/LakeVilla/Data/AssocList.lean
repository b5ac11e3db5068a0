import Mathlib.Algebra.BigOperators.Group.List.Basic
import Mathlib.Data.List.Basic
import Mathlib.Data.List.Nodup

/-!
# Association lists as maps

`std::unordered_map` with the three ways the code writes to it: `insert` keeps an existing entry,
`insert_or_assign` replaces it, and `modify` changes it in place. Lookups are `List.lookup`; the
order of the entries is the order in which their keys were first inserted.
-/

namespace AssocList

variable {K V : Type} [DecidableEq K]

theorem lookup_cons_of_ne {k k' : K} (h : k' ≠ k) (v : V) (l : List (K × V)) :
    ((k, v) :: l).lookup k' = l.lookup k' := by
  rw [List.lookup_cons, beq_false_of_ne h]

theorem lookup_cons_eq (k k' : K) (v : V) (l : List (K × V)) :
    ((k, v) :: l).lookup k' = if k' = k then some v else l.lookup k' := by
  split
  · next h => rw [h, List.lookup_cons_self]
  · next h => exact lookup_cons_of_ne h v l

theorem mem_of_lookup {k : K} {v : V} {l : List (K × V)} (h : l.lookup k = some v) :
    (k, v) ∈ l := by
  induction l with
  | nil => cases h
  | cons e l ih =>
    obtain ⟨k₁, v₁⟩ := e
    rw [lookup_cons_eq] at h
    split at h
    · next he =>
      obtain rfl := Option.some.inj h
      rw [he]
      exact List.mem_cons_self
    · exact List.mem_cons_of_mem _ (ih h)

theorem lookup_eq_none {k : K} {l : List (K × V)} : l.lookup k = none ↔ k ∉ l.map (·.1) := by
  induction l with
  | nil => simp
  | cons e l ih =>
    obtain ⟨k₁, v⟩ := e
    rw [lookup_cons_eq, List.map_cons, List.mem_cons, not_or]
    split
    · next h => simp [h]
    · next h => rw [ih, and_iff_right h]

theorem lookup_of_mem {k : K} {v : V} {l : List (K × V)} (hl : (l.map (·.1)).Nodup)
    (h : (k, v) ∈ l) : l.lookup k = some v := by
  induction l with
  | nil => cases h
  | cons e l ih =>
    obtain ⟨k₁, v₁⟩ := e
    rw [List.map_cons, List.nodup_cons] at hl
    rw [lookup_cons_eq]
    rcases List.mem_cons.mp h with he | he
    · obtain ⟨rfl, rfl⟩ := Prod.mk.inj he
      rw [if_pos rfl]
    · rw [if_neg, ih hl.2 he]
      rintro rfl
      exact hl.1 (List.mem_map.mpr ⟨_, he, rfl⟩)

theorem lookup_filter (f : K → Bool) (k : K) (l : List (K × V)) :
    (l.filter fun e ↦ f e.1).lookup k = if f k then l.lookup k else none := by
  induction l with
  | nil => simp
  | cons e l ih =>
    obtain ⟨k₁, v⟩ := e
    by_cases h₁ : f k₁ = true
    · rw [List.filter_cons, if_pos h₁, lookup_cons_eq, lookup_cons_eq, ih]
      split
      · next h => rw [h, if_pos h₁]
      · rfl
    · rw [List.filter_cons, if_neg h₁, ih, lookup_cons_eq]
      by_cases h : k = k₁
      · rw [h, if_neg h₁, if_neg h₁]
      · rw [if_neg h]

/-- `insert`: an existing entry stays. -/
def insertNew (l : List (K × V)) (k : K) (v : V) : List (K × V) :=
  match l.lookup k with
  | some _ => l
  | none => l ++ [(k, v)]

/-- `insert_or_assign` -/
def insertOrAssign : List (K × V) → K → V → List (K × V)
  | [], k, v => [(k, v)]
  | (k', v') :: l, k, v => if k' = k then (k, v) :: l else (k', v') :: insertOrAssign l k v

/-- Changes the entry of a key if there is one. -/
def modify : List (K × V) → K → (V → V) → List (K × V)
  | [], _, _ => []
  | (k', v') :: l, k, f => if k' = k then (k', f v') :: l else (k', v') :: modify l k f

theorem lookup_insertOrAssign (l : List (K × V)) (k k' : K) (v : V) :
    (insertOrAssign l k v).lookup k' = if k' = k then some v else l.lookup k' := by
  induction l with
  | nil => rw [insertOrAssign, lookup_cons_eq]
  | cons e l ih =>
    obtain ⟨k₁, v₁⟩ := e
    rw [insertOrAssign]
    by_cases h : k₁ = k
    · subst h
      rw [if_pos rfl, lookup_cons_eq, lookup_cons_eq]
      split <;> rfl
    · rw [if_neg h, lookup_cons_eq, lookup_cons_eq, ih]
      split
      · next he => rw [if_neg (he ▸ h)]
      · rfl

theorem lookup_modify (l : List (K × V)) (k k' : K) (f : V → V) :
    (modify l k f).lookup k' = if k' = k then (l.lookup k).map f else l.lookup k' := by
  induction l with
  | nil => simp [modify]
  | cons e l ih =>
    obtain ⟨k₁, v₁⟩ := e
    rw [modify]
    by_cases h : k₁ = k
    · subst h
      rw [if_pos rfl, lookup_cons_eq, List.lookup_cons_self, lookup_cons_eq]
      split <;> rfl
    · rw [if_neg h, lookup_cons_eq, lookup_cons_eq, ih, lookup_cons_eq, if_neg (Ne.symm h)]
      split
      · next he => rw [if_neg (he ▸ h)]
      · rfl

theorem mem_insertNew {l : List (K × V)} {k : K} {v : V} {e : K × V} (h : e ∈ insertNew l k v) :
    e ∈ l ∨ e = (k, v) := by
  unfold insertNew at h
  split at h
  · exact .inl h
  · simpa using h

theorem insertOrAssign_ne_nil (l : List (K × V)) (k : K) (v : V) : insertOrAssign l k v ≠ [] := by
  intro h
  have hl := lookup_insertOrAssign l k k v
  rw [h, if_pos rfl] at hl
  cases hl

theorem mem_insertOrAssign {l : List (K × V)} {k : K} {v : V} {e : K × V}
    (h : e ∈ insertOrAssign l k v) : e ∈ l ∨ e = (k, v) := by
  induction l with
  | nil => exact .inr (List.mem_singleton.mp h)
  | cons e₁ l ih =>
    rw [insertOrAssign] at h
    split at h
    · exact (List.mem_cons.mp h).symm.imp_left (List.mem_cons_of_mem _)
    · rcases List.mem_cons.mp h with h | h
      · exact .inl (h ▸ List.mem_cons_self)
      · exact (ih h).imp_left (List.mem_cons_of_mem _)

theorem nodup_insertOrAssign {l : List (K × V)} (hl : (l.map (·.1)).Nodup) (k : K) (v : V) :
    ((insertOrAssign l k v).map (·.1)).Nodup := by
  induction l with
  | nil => simp [insertOrAssign]
  | cons e l ih =>
    obtain ⟨k₁, v₁⟩ := e
    rw [List.map_cons, List.nodup_cons] at hl
    rw [insertOrAssign]
    by_cases h : k₁ = k
    · rw [if_pos h, List.map_cons, List.nodup_cons]
      exact ⟨h ▸ hl.1, hl.2⟩
    · rw [if_neg h, List.map_cons, List.nodup_cons]
      refine ⟨fun hmem ↦ ?_, ih hl.2⟩
      obtain ⟨e, he, hek⟩ := List.mem_map.mp hmem
      rcases mem_insertOrAssign he with he | rfl
      · exact hl.1 (List.mem_map.mpr ⟨e, he, hek⟩)
      · exact h hek.symm

theorem mem_modify {l : List (K × V)} {k : K} {f : V → V} {e : K × V} (h : e ∈ modify l k f) :
    e ∈ l ∨ ∃ v, e = (k, f v) := by
  induction l with
  | nil => cases h
  | cons e₁ l ih =>
    rw [modify] at h
    split at h
    · next hk =>
      rcases List.mem_cons.mp h with h | h
      · exact .inr ⟨e₁.2, hk ▸ h⟩
      · exact .inl (List.mem_cons_of_mem _ h)
    · rcases List.mem_cons.mp h with h | h
      · exact .inl (h ▸ List.mem_cons_self)
      · exact (ih h).imp_left (List.mem_cons_of_mem _)

/-! ## Maps with other values -/

theorem lookup_map {W : Type} {f : V → W} (l : List (K × V)) (k : K) :
    (l.map fun e ↦ (e.1, f e.2)).lookup k = (l.lookup k).map f := by
  induction l with
  | nil => rfl
  | cons e l ih =>
    obtain ⟨k₁, v⟩ := e
    rw [List.map_cons, lookup_cons_eq, lookup_cons_eq, ih]
    split <;> rfl

theorem map_insertOrAssign {W : Type} (f : V → W) (l : List (K × V)) (k : K) (v : V) :
    (insertOrAssign l k v).map (fun e ↦ (e.1, f e.2)) =
      insertOrAssign (l.map fun e ↦ (e.1, f e.2)) k (f v) := by
  induction l with
  | nil => rfl
  | cons e l ih =>
    obtain ⟨k₁, v₁⟩ := e
    rw [insertOrAssign, List.map_cons, insertOrAssign]
    split
    · rfl
    · rw [List.map_cons, ih]

/-- The entries of one key, in a list with an entry for each key. -/
theorem filterMap_key {W : Type} {l : List (K × V)} (hl : (l.map (·.1)).Nodup) (k : K)
    (f : V → Option W) :
    (l.filterMap fun e ↦ if e.1 = k then f e.2 else none) = ((l.lookup k).bind f).toList := by
  induction l with
  | nil => rfl
  | cons e l ih =>
    obtain ⟨k₁, v⟩ := e
    rw [List.map_cons, List.nodup_cons] at hl
    rw [List.filterMap_cons, lookup_cons_eq, ih hl.2]
    by_cases h : k₁ = k
    · subst h
      have hnone : l.lookup k₁ = none := lookup_eq_none.mpr hl.1
      rw [if_pos rfl, if_pos rfl, hnone, Option.bind_some, Option.bind_none]
      cases f v <;> rfl
    · rw [if_neg h, if_neg (Ne.symm h)]

/-! ## Maps without a key -/

/-- The other entries. -/
def erase (l : List (K × V)) (k : K) : List (K × V) := l.filter fun e ↦ e.1 ≠ k

theorem lookup_erase_of_ne {l : List (K × V)} {k k' : K} (h : k' ≠ k) :
    (erase l k).lookup k' = l.lookup k' := by
  rw [erase, lookup_filter (fun k' ↦ k' ≠ k), if_pos (decide_eq_true h)]

theorem nodup_erase {l : List (K × V)} (hl : (l.map (·.1)).Nodup) (k : K) :
    ((erase l k).map (·.1)).Nodup := hl.sublist (List.filter_sublist.map _)

theorem erase_of_lookup {l : List (K × V)} {k : K} (h : l.lookup k = none) : erase l k = l := by
  refine List.filter_eq_self.mpr fun e he ↦ decide_eq_true ?_
  rintro rfl
  exact lookup_eq_none.mp h (List.mem_map.mpr ⟨e, he, rfl⟩)

theorem erase_cons_self (l : List (K × V)) (k : K) (v : V) : erase ((k, v) :: l) k = erase l k :=
  List.filter_cons_of_neg (by simp)

theorem erase_cons_of_ne {k k' : K} (h : k' ≠ k) (l : List (K × V)) (v : V) :
    erase ((k', v) :: l) k = (k', v) :: erase l k :=
  List.filter_cons_of_pos (by simpa using h)

theorem erase_insertOrAssign_self (l : List (K × V)) (k : K) (v : V) :
    erase (insertOrAssign l k v) k = erase l k := by
  induction l with
  | nil => exact erase_cons_self [] k v
  | cons e l ih =>
    obtain ⟨k₁, v₁⟩ := e
    rw [insertOrAssign]
    by_cases h : k₁ = k
    · subst h
      rw [if_pos rfl, erase_cons_self, erase_cons_self]
    · rw [if_neg h, erase_cons_of_ne h, erase_cons_of_ne h, ih]

theorem erase_insertOrAssign_of_ne {k k' : K} (h : k' ≠ k) (l : List (K × V)) (v : V) :
    erase (insertOrAssign l k' v) k = insertOrAssign (erase l k) k' v := by
  induction l with
  | nil => exact erase_cons_of_ne h [] v
  | cons e l ih =>
    obtain ⟨k₁, v₁⟩ := e
    rw [insertOrAssign]
    by_cases h₁ : k₁ = k
    · subst h₁
      rw [if_neg (Ne.symm h), erase_cons_self, erase_cons_self, ih]
    · rw [erase_cons_of_ne h₁, insertOrAssign]
      split
      · exact erase_cons_of_ne h l v
      · rw [erase_cons_of_ne h₁, ih]

theorem erase_modify_self (l : List (K × V)) (k : K) (f : V → V) :
    erase (modify l k f) k = erase l k := by
  induction l with
  | nil => rfl
  | cons e l ih =>
    obtain ⟨k₁, v₁⟩ := e
    rw [modify]
    by_cases h : k₁ = k
    · subst h
      rw [if_pos rfl, erase_cons_self, erase_cons_self]
    · rw [if_neg h, erase_cons_of_ne h, erase_cons_of_ne h, ih]

theorem erase_modify_of_ne {k k' : K} (h : k' ≠ k) (l : List (K × V)) (f : V → V) :
    erase (modify l k' f) k = modify (erase l k) k' f := by
  induction l with
  | nil => rfl
  | cons e l ih =>
    obtain ⟨k₁, v₁⟩ := e
    rw [modify]
    by_cases h₁ : k₁ = k
    · subst h₁
      rw [if_neg (Ne.symm h), erase_cons_self, erase_cons_self, ih]
    · rw [erase_cons_of_ne h₁, modify]
      split
      · exact erase_cons_of_ne h₁ l _
      · rw [erase_cons_of_ne h₁, ih]

/-! ## Sums over the entries -/

section Sum

variable {M : Type*} [AddCommMonoid M] (g : K × V → M) {l : List (K × V)} {k : K} {v : V}

/-- A new key adds its entry. -/
theorem sum_insertOrAssign_of_none (h : l.lookup k = none) (v' : V) :
    ((insertOrAssign l k v').map g).sum = (l.map g).sum + g (k, v') := by
  induction l with
  | nil => simp [insertOrAssign]
  | cons e l ih =>
    obtain ⟨k₁, v₁⟩ := e
    rw [lookup_cons_eq] at h
    split at h
    · cases h
    · next hne =>
      rw [insertOrAssign, if_neg (Ne.symm hne), List.map_cons, List.map_cons, List.sum_cons,
        List.sum_cons, ih h, add_assoc]

/-- The entry of a key that is there is replaced. -/
theorem sum_insertOrAssign_of_some (h : l.lookup k = some v) (v' : V) :
    ((insertOrAssign l k v').map g).sum + g (k, v) = (l.map g).sum + g (k, v') := by
  induction l with
  | nil => cases h
  | cons e l ih =>
    obtain ⟨k₁, v₁⟩ := e
    rw [lookup_cons_eq] at h
    rw [insertOrAssign]
    split at h
    · next heq =>
      obtain rfl := Option.some.inj h
      subst heq
      rw [if_pos rfl, List.map_cons, List.map_cons, List.sum_cons, List.sum_cons, add_right_comm,
        add_comm (g _) (g _), add_right_comm]
    · next hne =>
      rw [if_neg (Ne.symm hne), List.map_cons, List.map_cons, List.sum_cons, List.sum_cons,
        add_assoc, ih h, add_assoc]

/-- The entry of a key and the others. -/
theorem sum_erase_add (hl : (l.map (·.1)).Nodup) (k : K) :
    ((erase l k).map g).sum + ((l.lookup k).elim 0 fun v ↦ g (k, v)) = (l.map g).sum := by
  induction l with
  | nil => exact add_zero _
  | cons e l ih =>
    obtain ⟨k₁, v₁⟩ := e
    rw [List.map_cons, List.nodup_cons] at hl
    rw [lookup_cons_eq, List.map_cons, List.sum_cons]
    by_cases h : k₁ = k
    · subst h
      have hnone := lookup_eq_none.mpr hl.1
      rw [erase_cons_self, erase_of_lookup hnone, if_pos rfl]
      exact add_comm _ _
    · rw [erase_cons_of_ne h, if_neg (Ne.symm h), List.map_cons, List.sum_cons, add_assoc, ih hl.2]

end Sum

end AssocList

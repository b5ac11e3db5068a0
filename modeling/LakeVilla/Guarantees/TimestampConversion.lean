import LakeVilla.Conform.Timestamps

/-!
# Timestamp conversion

Converted timestamps are exact up to the floor. A result that needs more than 64 bits makes the
conversion invalid, and nothing else does: the bounds that the code computes by truncating division
are the exact ones on both sides.
-/

namespace LakeVilla.Conform

open ByteString
open Schema (TimeUnit)

variable {source target : TimeUnit} {context : ByteString} {values : List (Option ℤ)}

/-- All exact results fit. -/
def AllFit (source target : TimeUnit) (values : List (Option ℤ)) : Prop :=
  ∀ value, some value ∈ values → MachineInt.Fits 63 (exactTimestamp source target value)

section Traversal

variable {ε α β : Type} {f : α → Except ε β} {l : List α}

theorem mapM_eq_ok {g : α → β} (h : ∀ x ∈ l, f x = .ok (g x)) : l.mapM f = .ok (l.map g) := by
  induction l with
  | nil => rfl
  | cons x l ih =>
    rw [List.mapM_cons, h x List.mem_cons_self, ih fun y hy ↦ h y (List.mem_cons_of_mem _ hy)]
    rfl

/-- If all errors are the same, the traversal ends with it. -/
theorem mapM_eq_error {e : ε} (h : ∀ x ∈ l, (∃ y, f x = .ok y) ∨ f x = .error e)
    (hx : ∃ x ∈ l, f x = .error e) : l.mapM f = .error e := by
  induction l with
  | nil =>
    obtain ⟨x, hx, -⟩ := hx
    exact absurd hx List.not_mem_nil
  | cons x l ih =>
    rw [List.mapM_cons]
    rcases h x List.mem_cons_self with ⟨y, hy⟩ | he
    · obtain ⟨z, hz, he⟩ := hx
      have hz : z ∈ l := by
        rcases List.mem_cons.mp hz with rfl | hz
        · cases hy.symm.trans he
        · exact hz
      rw [hy, ih (fun u hu ↦ h u (List.mem_cons_of_mem _ hu)) ⟨z, hz, he⟩]
      rfl
    · rw [he]
      rfl

end Traversal

section

variable (hvalues : ∀ value, some value ∈ values → MachineInt.Fits 63 value)
include hvalues

theorem convertTimestamps_of_allFit (h : AllFit source target values) :
    convertTimestamps source target context values =
      .ok (values.map (Option.map (exactTimestamp source target))) := by
  unfold convertTimestamps
  split_ifs with heq
  · subst heq
    have hself : exactTimestamp source source = id := funext fun _ ↦ exactTimestamp_self
    rw [hself, Option.map_id, List.map_id]
  · refine mapM_eq_ok fun value hvalue ↦ ?_
    cases value with
    | none => rfl
    | some value =>
      rw [convertValue_eq (hvalues value hvalue), if_pos (h value hvalue)]
      rfl

theorem convertTimestamps_of_not_allFit (h : ¬AllFit source target values) :
    convertTimestamps source target context values = .error (outOfRange context) := by
  obtain ⟨value, hvalue, hout⟩ : ∃ value, some value ∈ values ∧
      ¬MachineInt.Fits 63 (exactTimestamp source target value) := by
    simpa only [AllFit, not_forall, exists_prop] using h
  unfold convertTimestamps
  split_ifs with heq
  · subst heq
    rw [exactTimestamp_self] at hout
    exact absurd (hvalues value hvalue) hout
  · refine mapM_eq_error (fun value hvalue ↦ ?_) ⟨some value, hvalue, ?_⟩
    · cases value with
      | none => exact .inl ⟨none, rfl⟩
      | some value =>
        rw [convertValue_eq (hvalues value hvalue)]
        split_ifs
        · exact .inl ⟨_, rfl⟩
        · exact .inr rfl
    · rw [convertValue_eq (hvalues value hvalue), if_neg hout]

end

/-- **Timestamp conversion is exact.** Every value becomes the floor of the exact quotient, unless
one of them does not fit; no operation overflows, and the order of values is kept. -/
theorem timestamp_conversion_exact (source target : TimeUnit) (context : ByteString)
    (values : List (Option ℤ))
    (hvalues : ∀ value, some value ∈ values → MachineInt.Fits 63 value) :
    (AllFit source target values → convertTimestamps source target context values =
      .ok (values.map (Option.map (exactTimestamp source target)))) ∧
    (¬AllFit source target values →
      convertTimestamps source target context values = .error (outOfRange context)) ∧
    convertTimestamps source target context values ≠ .error .undefined ∧
    ∀ result, convertTimestamps source target context values = .ok result →
      ∀ (i j : ℕ) (v v' : ℤ), values[i]? = some (some v) → values[j]? = some (some v') → v ≤ v' →
        ∃ u u', result[i]? = some (some u) ∧ result[j]? = some (some u') ∧ u ≤ u' := by
  refine ⟨convertTimestamps_of_allFit hvalues, convertTimestamps_of_not_allFit hvalues, ?_, ?_⟩
  · intro hundefined
    by_cases h : AllFit source target values
    · cases (convertTimestamps_of_allFit hvalues h).symm.trans hundefined
    · cases (convertTimestamps_of_not_allFit hvalues h).symm.trans hundefined
  · intro result hresult i j v v' hi hj hle
    by_cases h : AllFit source target values
    · obtain rfl := Except.ok.inj ((convertTimestamps_of_allFit hvalues h).symm.trans hresult)
      exact ⟨_, _, by rw [List.getElem?_map, hi]; rfl, by rw [List.getElem?_map, hj]; rfl,
        exactTimestamp_mono hle⟩
    · cases (convertTimestamps_of_not_allFit hvalues h).symm.trans hresult

/-- Nanoseconds are cut to microseconds, downwards. -/
theorem timestamp_conversion_sample :
    convertTimestamps .nano .micro (ascii "column ts")
        [some 1704110400123456789, some (-1), some (-1000), none] =
      .ok [some 1704110400123456, some (-1), some (-1), none] :=
  (timestamp_conversion_exact .nano .micro (ascii "column ts")
    [some 1704110400123456789, some (-1), some (-1000), none]
    (by simp [MachineInt.Fits])).1 (by
      intro value hvalue
      simp only [List.mem_cons, Option.some.injEq, reduceCtorEq, List.not_mem_nil, or_false]
        at hvalue
      rcases hvalue with rfl | rfl | rfl <;> decide)

end LakeVilla.Conform

import LakeVilla.Data.Bytes
import Mathlib.Data.Nat.Digits.Lemmas
import Mathlib.Order.Lattice
import Mathlib.Tactic.Ring

/-!
# Numbers of a fixed width, and parts of texts

Digit texts of one length are ordered as the numbers that they denote, so a number has exactly one
text of a given width, padded with zeros. `afterLast` is what follows the last occurrence of a
pattern.
-/

namespace ByteString

/-! ## Numbers of a fixed width -/

/-- All bytes are digits. -/
def AllDigits (text : ByteString) : Prop := ∀ c ∈ text, isDigit c = true

instance (text : ByteString) : Decidable text.AllDigits :=
  inferInstanceAs (Decidable (∀ c ∈ text, _))

theorem isDigit_iff {c : Byte} : isDigit c = true ↔ 48 ≤ c.val ∧ c.val ≤ 57 := by
  rw [isDigit, Bool.and_eq_true, decide_eq_true_eq, decide_eq_true_eq, Fin.le_def, Fin.le_def]
  rfl

theorem foldl_digits (text : ByteString) (n : ℕ) :
    text.foldl (fun n c ↦ 10 * n + (c.val - 48)) n = n * 10 ^ text.length + ofDecimal text := by
  induction text generalizing n with
  | nil => simp [ofDecimal]
  | cons c text ih =>
    have hcons : ofDecimal (c :: text) = (c.val - 48) * 10 ^ text.length + ofDecimal text := by
      rw [ofDecimal, List.foldl_cons, ih, Nat.mul_zero, Nat.zero_add]
    rw [List.foldl_cons, ih, hcons, List.length_cons]
    ring

theorem ofDecimal_cons (c : Byte) (text : ByteString) :
    ofDecimal (c :: text) = (c.val - 48) * 10 ^ text.length + ofDecimal text := by
  rw [ofDecimal, List.foldl_cons, foldl_digits, Nat.mul_zero, Nat.zero_add]

theorem ofDecimal_append (text text' : ByteString) :
    ofDecimal (text ++ text') = ofDecimal text * 10 ^ text'.length + ofDecimal text' := by
  rw [ofDecimal, List.foldl_append, foldl_digits]
  rfl

theorem ofDecimal_lt {text : ByteString} (h : text.AllDigits) :
    ofDecimal text < 10 ^ text.length := by
  induction text with
  | nil => exact Nat.one_pos
  | cons c text ih =>
    have hc := isDigit_iff.mp (h c List.mem_cons_self)
    have ih := ih fun d hd ↦ h d (List.mem_cons_of_mem _ hd)
    have hle : (c.val - 48) * 10 ^ text.length ≤ 9 * 10 ^ text.length :=
      Nat.mul_le_mul_right _ (by omega)
    rw [ofDecimal_cons, List.length_cons, pow_succ]
    omega

/-- Digit texts of one length are ordered as their numbers. -/
theorem lt_iff_ofDecimal_lt {text text' : ByteString} (h : text.AllDigits) (h' : text'.AllDigits)
    (hlen : text.length = text'.length) : text < text' ↔ ofDecimal text < ofDecimal text' := by
  induction text generalizing text' with
  | nil =>
    obtain rfl := List.length_eq_zero_iff.mp hlen.symm
    exact iff_of_false (List.lt_irrefl _) (lt_irrefl _)
  | cons c text ih =>
    cases text' with
    | nil => cases hlen
    | cons c' text' =>
      have hlen : text.length = text'.length := Nat.succ.inj hlen
      have ht : AllDigits text := fun d hd ↦ h d (List.mem_cons_of_mem _ hd)
      have ht' : AllDigits text' := fun d hd ↦ h' d (List.mem_cons_of_mem _ hd)
      have hc := isDigit_iff.mp (h c List.mem_cons_self)
      have hc' := isDigit_iff.mp (h' c' List.mem_cons_self)
      have hlt := ofDecimal_lt ht
      have hlt' := ofDecimal_lt ht'
      have hcc : c < c' ↔ c.val < c'.val := Fin.lt_def
      rw [List.cons_lt_cons_iff, ih ht ht' hlen, ofDecimal_cons, ofDecimal_cons, hlen, hcc]
      rw [hlen] at hlt
      rcases lt_trichotomy c.val c'.val with hv | hv | hv
      · have hstep : (c.val - 48 + 1) * 10 ^ text'.length ≤ (c'.val - 48) * 10 ^ text'.length :=
          Nat.mul_le_mul_right _ (by omega)
        rw [Nat.add_mul] at hstep
        exact iff_of_true (.inl hv) (by omega)
      · obtain rfl : c = c' := Fin.ext hv
        simp
      · have hstep : (c'.val - 48 + 1) * 10 ^ text'.length ≤ (c.val - 48) * 10 ^ text'.length :=
          Nat.mul_le_mul_right _ (by omega)
        rw [Nat.add_mul] at hstep
        refine iff_of_false ?_ (by omega)
        rintro (h | ⟨rfl, -⟩)
        · omega
        · omega

/-- Digit texts of one length are determined by their number. -/
theorem eq_of_ofDecimal_eq {text text' : ByteString} (h : text.AllDigits) (h' : text'.AllDigits)
    (hlen : text.length = text'.length) (heq : ofDecimal text = ofDecimal text') :
    text = text' := by
  rcases lt_trichotomy (text : List Byte) text' with hlt | heq' | hlt
  · exact absurd heq ((lt_iff_ofDecimal_lt h h' hlen).mp hlt).ne
  · exact heq'
  · exact absurd heq ((lt_iff_ofDecimal_lt h' h hlen.symm).mp hlt).ne'

theorem append_lt_append_iff {text text' : ByteString} (hlen : text.length = text'.length)
    (rest : ByteString) : text ++ rest < text' ++ rest ↔ text < text' := by
  induction text generalizing text' with
  | nil =>
    obtain rfl := List.length_eq_zero_iff.mp hlen.symm
    exact iff_of_false (List.lt_irrefl _) (List.lt_irrefl _)
  | cons c text ih =>
    cases text' with
    | nil => cases hlen
    | cons c' text' =>
      rw [List.cons_append, List.cons_append, List.cons_lt_cons_iff, List.cons_lt_cons_iff,
        ih (Nat.succ.inj hlen)]

/-- A number, padded with zeros to a width. -/
def padded (width n : ℕ) : ByteString :=
  List.replicate (width - (decimal n).length) 48 ++ decimal n

theorem allDigits_padded (width n : ℕ) : (padded width n).AllDigits := by
  intro c hc
  rcases List.mem_append.mp hc with hc | hc
  · rw [List.eq_of_mem_replicate hc]
    rfl
  · exact isDigit_of_mem_decimal hc

theorem ofDecimal_replicate_zero (k : ℕ) : ofDecimal (List.replicate k 48) = 0 := by
  induction k with
  | zero => rfl
  | succ k ih =>
    rw [List.replicate_succ, ofDecimal_cons, ih]
    exact Nat.zero_mul _

@[simp]
theorem ofDecimal_padded (width n : ℕ) : ofDecimal (padded width n) = n := by
  rw [padded, ofDecimal_append, ofDecimal_replicate_zero, ofDecimal_decimal, Nat.zero_mul,
    Nat.zero_add]

theorem length_decimal_le {width n : ℕ} (hwidth : 0 < width) (h : n < 10 ^ width) :
    (decimal n).length ≤ width := by
  unfold decimal
  split
  · exact hwidth
  · next hn =>
    rw [List.length_map, List.length_reverse]
    exact (Nat.digits_length_le_iff (by omega) n).mpr h

theorem length_padded {width n : ℕ} (hwidth : 0 < width) (h : n < 10 ^ width) :
    (padded width n).length = width := by
  have hle := length_decimal_le hwidth h
  rw [padded, List.length_append, List.length_replicate]
  omega

/-- A digit text is the padded text of its number. -/
theorem padded_ofDecimal {text : ByteString} (h : text.AllDigits) (hne : 0 < text.length) :
    padded text.length (ofDecimal text) = text :=
  eq_of_ofDecimal_eq (allDigits_padded _ _) h (length_padded hne (ofDecimal_lt h))
    (ofDecimal_padded _ _)

/-! ## The last occurrence of a pattern -/

/-- `rfind` and `substr`: what follows the last occurrence of a pattern that is not empty. -/
def afterLast (pattern : ByteString) : ByteString → Option ByteString
  | [] => none
  | c :: text =>
    match afterLast pattern text with
    | some name => some name
    | none =>
      if pattern.isPrefixOf (c :: text) then some ((c :: text).drop pattern.length) else none

section AfterLast

variable {pattern text pre name : ByteString}

theorem afterLast_sound (h : afterLast pattern text = some name) :
    ∃ pre, text = pre ++ (pattern ++ name) := by
  induction text with
  | nil => cases h
  | cons c text ih =>
    rw [afterLast] at h
    cases hrest : afterLast pattern text with
    | some name' =>
      rw [hrest] at h
      obtain rfl := Option.some.inj h
      obtain ⟨pre, hpre⟩ := ih hrest
      exact ⟨c :: pre, congrArg (c :: ·) hpre⟩
    | none =>
      simp only [hrest] at h
      split_ifs at h with hstarts
      obtain ⟨tail, htail⟩ := List.isPrefixOf_iff_prefix.mp hstarts
      obtain rfl := Option.some.inj h
      refine ⟨[], ?_⟩
      rw [← htail, List.drop_left]
      rfl

/-- An occurrence is the last one if none starts within the pattern and what follows it. -/
theorem afterLast_append (hne : pattern ≠ [])
    (h : ∀ pre' name', pre' ++ (pattern ++ name') = pattern ++ name → pre' = []) :
    afterLast pattern (pre ++ (pattern ++ name)) = some name := by
  induction pre with
  | nil =>
    rw [List.nil_append]
    cases htext : pattern ++ name with
    | nil => exact absurd (List.append_eq_nil_iff.mp htext).1 hne
    | cons c text =>
      rw [afterLast]
      cases hrest : afterLast pattern text with
      | some name' =>
        obtain ⟨pre', hpre⟩ := afterLast_sound hrest
        have hcons := h (c :: pre') name' (by rw [htext, List.cons_append, ← hpre])
        exact absurd hcons (List.cons_ne_nil _ _)
      | none =>
        have hstarts : pattern.isPrefixOf (c :: text) = true :=
          List.isPrefixOf_iff_prefix.mpr ⟨name, htext⟩
        simp only [hstarts, if_true]
        rw [← htext, List.drop_left]
  | cons c pre ih => rw [List.cons_append, afterLast, ih]

end AfterLast

end ByteString

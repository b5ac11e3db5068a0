import Mathlib.Data.List.Lex
import Mathlib.Data.Nat.Digits.Defs
import Mathlib.Tactic.IntervalCases

/-!
# Byte strings

Texts are lists of bytes, compared lexicographically. A *code point* of a UTF-8 text starts at every
byte that is not a continuation byte; nothing else about UTF-8 is used, so the lemmas hold of all
byte strings.
-/

abbrev Byte := Fin 256

instance instNeZeroByte : NeZero 256 := ⟨by decide⟩

/-- `std::string` -/
abbrev ByteString := List Byte

namespace ByteString

/-- Lookups in association lists decide equality. -/
instance : BEq ByteString := instBEqOfDecidableEq

instance instLawfulBEq : LawfulBEq ByteString := inferInstance

/-! ## Prefixes in the lexicographic order -/

section Order

variable {α : Type} [LinearOrder α]

theorem head_of_cons_le {a b : α} {p x : List α} (h : a :: p ≤ b :: x) :
    a < b ∨ a = b ∧ p ≤ x := by
  rcases h.lt_or_eq with h | h
  · exact (List.cons_lt_cons_iff.mp h).imp_right fun e ↦ ⟨e.1, e.2.le⟩
  · obtain ⟨rfl, rfl⟩ := List.cons.inj h
    exact .inr ⟨rfl, le_rfl⟩

theorem le_of_isPrefix {p x : List α} (h : p <+: x) : p ≤ x := by
  obtain ⟨y, rfl⟩ := h
  exact not_lt.mp (List.not_lt.mpr List.le_append_left)

/-- What lies between `p` and an extension of `p` starts with `p`. -/
theorem prefix_of_between {p x y : List α} (h : p ≤ x) (h' : x ≤ p ++ y) : p <+: x := by
  induction p generalizing x with
  | nil => exact List.nil_prefix
  | cons a p ih =>
    cases x with
    | nil => exact absurd (List.nil_lt_cons a p) (not_lt.mpr h)
    | cons b x =>
      rcases head_of_cons_le h with hab | ⟨rfl, hp⟩
      · rcases head_of_cons_le h' with hba | ⟨rfl, -⟩
        · exact absurd hab hba.asymm
        · exact absurd hab (lt_irrefl _)
      · have hx : x ≤ p ++ y := ((head_of_cons_le h').resolve_left (lt_irrefl a)).2
        exact List.cons_prefix_cons.mpr ⟨rfl, ih hp hx⟩

end Order

/-! ## Code points -/

/-- The byte is no continuation byte: a code point starts here. -/
def isLead (c : Byte) : Bool := c.val &&& 0xC0 != 0x80

/-- `code_points` -/
def codePoints (text : ByteString) : ℕ := text.countP isLead

/-- `first_code_points`: the first `n` characters of a text. -/
def firstCodePoints : ByteString → ℕ → ByteString
  | [], _ => []
  | c :: text, n =>
    if isLead c then
      if n = 0 then [] else c :: firstCodePoints text (n - 1)
    else c :: firstCodePoints text n

theorem codePoints_cons (c : Byte) (text : ByteString) :
    codePoints (c :: text) = codePoints text + if isLead c then 1 else 0 := List.countP_cons

theorem isPrefix_firstCodePoints (text : ByteString) (n : ℕ) : firstCodePoints text n <+: text := by
  induction text generalizing n with
  | nil => exact List.prefix_rfl
  | cons c text ih =>
    rw [firstCodePoints]
    split_ifs
    · exact List.nil_prefix
    · exact List.cons_prefix_cons.mpr ⟨rfl, ih _⟩
    · exact List.cons_prefix_cons.mpr ⟨rfl, ih _⟩

theorem codePoints_firstCodePoints {text : ByteString} {n : ℕ} (h : n ≤ codePoints text) :
    codePoints (firstCodePoints text n) = n := by
  induction text generalizing n with
  | nil => exact (Nat.le_zero.mp h).symm
  | cons c text ih =>
    rw [codePoints_cons] at h
    rw [firstCodePoints]
    split_ifs with hc hn
    · exact hn.symm
    · rw [if_pos hc] at h
      rw [codePoints_cons, if_pos hc, ih (by omega)]
      omega
    · rw [if_neg hc] at h
      rw [codePoints_cons, if_neg hc, ih h, Nat.add_zero]

/-- A text keeps its characters when another one is appended. -/
theorem firstCodePoints_append (text : ByteString) {c : ByteString}
    (hc : ∀ b ∈ c.head?, isLead b = true) :
    firstCodePoints (text ++ c) (codePoints text) = text := by
  induction text with
  | nil =>
    cases c with
    | nil => rfl
    | cons b c => rw [List.nil_append, firstCodePoints, if_pos (hc b rfl)]; rfl
  | cons b text ih =>
    rw [codePoints_cons, List.cons_append, firstCodePoints]
    split_ifs with hb
    · omega
    · rw [Nat.add_sub_cancel, ih]
    · rw [Nat.add_zero, ih]

/-! ## Decimal numbers -/

def isDigit (c : Byte) : Bool := 48 ≤ c && c ≤ 57

/-- `std::to_string` of an unsigned number -/
def decimal (n : ℕ) : ByteString :=
  if n = 0 then [48] else (Nat.digits 10 n).reverse.map fun d ↦ Fin.ofNat 256 (48 + d)

/-- The number that digits denote. -/
def ofDecimal (digits : ByteString) : ℕ := digits.foldl (fun n c ↦ 10 * n + (c.val - 48)) 0

/-- A number with its sign. -/
def signedText (negative : Bool) (n : ℕ) : ByteString :=
  (if negative then [45] else []) ++ decimal n

/-- `std::to_string` -/
def toText (n : ℤ) : ByteString := signedText (n < 0) n.natAbs

/-- The text of a string literal. -/
def ascii (s : String) : ByteString := s.toList.map fun c ↦ Fin.ofNat 256 c.toNat

theorem ofDecimal_digits {l : List ℕ} (hl : ∀ d ∈ l, d < 10) :
    ofDecimal (l.reverse.map fun d ↦ Fin.ofNat 256 (48 + d)) = Nat.ofDigits 10 l := by
  induction l with
  | nil => rfl
  | cons d l ih =>
    have hd : d < 10 := hl d List.mem_cons_self
    have hval : (Fin.ofNat 256 (48 + d)).val = 48 + d := Nat.mod_eq_of_lt (by omega)
    rw [List.reverse_cons, List.map_append, ofDecimal, List.foldl_append, ← ofDecimal,
      ih fun d hd ↦ hl d (List.mem_cons_of_mem _ hd), Nat.ofDigits_cons]
    simp only [List.map_cons, List.map_nil, List.foldl_cons, List.foldl_nil, hval]
    omega

@[simp] theorem ofDecimal_decimal (n : ℕ) : ofDecimal (decimal n) = n := by
  unfold decimal
  split
  · next h => rw [h]; rfl
  · rw [ofDecimal_digits fun d hd ↦ Nat.digits_lt_base (by omega) hd, Nat.ofDigits_digits]

theorem decimal_ne_nil (n : ℕ) : decimal n ≠ [] := by
  unfold decimal
  split
  · exact List.cons_ne_nil _ _
  · next h =>
    rw [Ne, List.map_eq_nil_iff, List.reverse_eq_nil_iff]
    exact Nat.digits_ne_nil_iff_ne_zero.mpr h

theorem isDigit_of_mem_decimal {n : ℕ} {c : Byte} (h : c ∈ decimal n) : isDigit c = true := by
  unfold decimal at h
  split at h
  · rw [List.mem_singleton.mp h]
    rfl
  · obtain ⟨d, hd, rfl⟩ := List.mem_map.mp h
    have hd : d < 10 := Nat.digits_lt_base (by omega) (List.mem_reverse.mp hd)
    interval_cases d <;> rfl

end ByteString

import LakeVilla.Keys.KeyMatcher
import Mathlib.Data.List.Basic

/-!
# The rows of a key

A data file is read as a table: rows in the chunks of the first column. `rows_of` finds the indices
of a key's rows; `select_rows` and `other_rows` split the table by such indices.
-/

namespace LakeVilla.Keys

variable {σ ρ : Type}

/-- A row: the first column, and what the other columns hold. -/
structure Row (σ ρ : Type) where
  key : Option (Scalar σ)
  rest : ρ
  deriving DecidableEq, Repr

/-- The rows of a table in the chunks of its first column. -/
structure DataTable (σ ρ : Type) where
  chunks : List (List (Row σ ρ))
  deriving DecidableEq, Repr

namespace DataTable

def rows (t : DataTable σ ρ) : List (Row σ ρ) := t.chunks.flatten

def numRows (t : DataTable σ ρ) : ℕ := t.rows.length

end DataTable

/-! ## `rows_of` -/

/-- A row of the key: its first column is not null and equals it. -/
def Row.matches (arrow : Arrow σ) (m : KeyMatcher σ) (r : Row σ ρ) : Bool :=
  match r.key with
  | some v => m.equals arrow v
  | none => false

/-- `rows_of`: the indices of the key's rows, chunk by chunk. -/
def KeyMatcher.rowsOf (arrow : Arrow σ) (m : KeyMatcher σ) : List (List (Row σ ρ)) → ℕ → List ℕ
  | [], _ => []
  | chunk :: chunks, offset =>
    ((chunk.zipIdx offset).filter fun e ↦ e.1.matches arrow m).map (·.2) ++
      KeyMatcher.rowsOf arrow m chunks (offset + chunk.length)

theorem KeyMatcher.rowsOf_eq (arrow : Arrow σ) (m : KeyMatcher σ) (chunks : List (List (Row σ ρ)))
    (offset : ℕ) : m.rowsOf arrow chunks offset =
      ((chunks.flatten.zipIdx offset).filter fun e ↦ e.1.matches arrow m).map (·.2) := by
  induction chunks generalizing offset with
  | nil => rfl
  | cons chunk chunks ih =>
    rw [KeyMatcher.rowsOf, ih, List.flatten_cons, List.zipIdx_append, List.filter_append,
      List.map_append]

/-! ## `select_rows` and `other_rows` -/

/-- Runs of consecutive indices, each with its first index and its length. -/
def runs : List ℕ → List (ℕ × ℕ)
  | [] => []
  | i :: is =>
    match runs is with
    | [] => [(i, 1)]
    | (start, length) :: rest =>
      if start = i + 1 then (i, length + 1) :: rest else (i, 1) :: (start, length) :: rest

/-- `Slice` -/
def DataTable.slice (t : DataTable σ ρ) (start length : ℕ) : List (Row σ ρ) :=
  (t.rows.drop start).take length

/-- `select_rows`: the rows at ascending indices, one slice for each run. -/
def selectRows (t : DataTable σ ρ) (indices : List ℕ) : DataTable σ ρ :=
  if indices.length = t.numRows then t
  else ⟨(runs indices).map fun run ↦ t.slice run.1 run.2⟩

/-- The loop of `other_rows` from index `i`, `n` indices before the end. -/
def otherRowsFrom : ℕ → ℕ → List ℕ → List ℕ
  | 0, _, _ => []
  | n + 1, i, [] => i :: otherRowsFrom n (i + 1) []
  | n + 1, i, next :: rows =>
    if next = i then otherRowsFrom n (i + 1) rows else i :: otherRowsFrom n (i + 1) (next :: rows)

/-- `other_rows`: the indices below `n` that are not in `rows` (ascending). -/
def otherRows (n : ℕ) (rows : List ℕ) : List ℕ := otherRowsFrom n 0 rows

theorem runs_flatMap (is : List ℕ) :
    (runs is).flatMap (fun run ↦ List.range' run.1 run.2) = is := by
  induction is with
  | nil => rfl
  | cons i is ih =>
    rw [runs]
    split
    · next h =>
      rw [h] at ih
      rw [← ih]
      rfl
    · next start length rest h =>
      rw [h] at ih
      split
      · next hs =>
        rw [← ih, hs, List.flatMap_cons, List.flatMap_cons, List.range'_succ, List.cons_append]
      · rw [← ih, List.flatMap_cons]
        rfl

theorem slice_eq (rows : List (Row σ ρ)) (start length : ℕ) :
    (rows.drop start).take length = (List.range' start length).filterMap (rows[·]?) := by
  induction length generalizing start with
  | zero => rfl
  | succ length ih =>
    rw [List.range'_succ, List.filterMap_cons]
    cases h : rows[start]? with
    | none =>
      rw [← ih (start + 1)]
      have hlen : rows.length ≤ start := List.getElem?_eq_none_iff.mp h
      rw [List.drop_of_length_le hlen, List.drop_of_length_le (by omega), List.take_nil,
        List.take_nil]
    | some r =>
      obtain ⟨hlt, rfl⟩ := List.getElem?_eq_some_iff.mp h
      rw [← ih (start + 1), List.drop_eq_getElem_cons hlt, List.take_succ_cons]

/-- The rows that `select_rows` finds are those at the indices. -/
theorem selectRows_rows (t : DataTable σ ρ) {l : List (Row σ ρ × ℕ)}
    (hl : l.Sublist t.rows.zipIdx) :
    (selectRows t (l.map (·.2))).rows = l.map (·.1) := by
  unfold selectRows
  split
  · next h =>
    rw [List.length_map, DataTable.numRows, ← List.length_zipIdx (l := t.rows) (i := 0)] at h
    rw [hl.eq_of_length h, List.zipIdx_map_fst]
  · have hslices : ∀ is : List ℕ, ((runs is).map fun run ↦ t.slice run.1 run.2).flatten =
        is.filterMap (t.rows[·]?) := by
      intro is
      conv_rhs => rw [← runs_flatMap is]
      rw [List.filterMap_flatMap, List.flatMap_def]
      simp only [DataTable.slice, slice_eq]
    rw [DataTable.rows, hslices, List.filterMap_map, ← List.filterMap_eq_map]
    apply List.filterMap_congr
    intro e he
    obtain ⟨hlt, heq⟩ := List.mem_zipIdx' (hl.subset he)
    simp only [Function.comp_apply]
    rw [List.getElem?_eq_getElem hlt, heq]

theorem otherRowsFrom_of_lt {n i : ℕ} {l : List ℕ} (h : ∀ j ∈ l, i < j) :
    otherRowsFrom (n + 1) i l = i :: otherRowsFrom n (i + 1) l := by
  cases l with
  | nil => rfl
  | cons j l =>
    have hne : j ≠ i := (h j List.mem_cons_self).ne'
    rw [otherRowsFrom, if_neg hne]

/-- `other_rows` of the indices of some rows are the indices of the others. -/
theorem otherRowsFrom_filter {α : Type} (p : α → Bool) (l : List α) (i : ℕ) :
    otherRowsFrom l.length i (((l.zipIdx i).filter fun e ↦ p e.1).map (·.2)) =
      ((l.zipIdx i).filter fun e ↦ !p e.1).map (·.2) := by
  induction l generalizing i with
  | nil => rfl
  | cons a l ih =>
    rw [List.zipIdx_cons, List.length_cons, List.filter_cons, List.filter_cons]
    cases hp : p a with
    | true =>
      rw [if_pos rfl, if_neg (by simp), List.map_cons, otherRowsFrom, if_pos rfl, ih]
    | false =>
      have hlt : ∀ j ∈ ((l.zipIdx (i + 1)).filter fun e ↦ p e.1).map (·.2), i < j := by
        intro j hj
        obtain ⟨e, he, rfl⟩ := List.mem_map.mp hj
        exact List.le_snd_of_mem_zipIdx (List.mem_filter.mp he).1
      rw [if_neg (by simp), if_pos (by simp), otherRowsFrom_of_lt hlt, List.map_cons, ih]

theorem filter_zipIdx_fst {α : Type} (p : α → Bool) (l : List α) (i : ℕ) :
    ((l.zipIdx i).filter fun e ↦ p e.1).map (·.1) = l.filter p := by
  have h := List.filter_map (f := Prod.fst) (p := p) (l := l.zipIdx i)
  rw [List.zipIdx_map_fst] at h
  exact h.symm

section KeyRows

variable (arrow : Arrow σ) (m : KeyMatcher σ) (t : DataTable σ ρ)

/-- The rows at the indices that `rows_of` returns are those of the key. -/
theorem selectRows_rowsOf :
    (selectRows t (m.rowsOf arrow t.chunks 0)).rows = t.rows.filter (·.matches arrow m) := by
  have h := selectRows_rows t
    (List.filter_sublist (l := t.rows.zipIdx) (p := fun e ↦ e.1.matches arrow m))
  rw [KeyMatcher.rowsOf_eq]
  exact h.trans (filter_zipIdx_fst _ _ _)

/-- The rows at the indices that `other_rows` returns are the others. -/
theorem selectRows_otherRows :
    (selectRows t (otherRows t.numRows (m.rowsOf arrow t.chunks 0))).rows =
      t.rows.filter fun r ↦ !r.matches arrow m := by
  have h := selectRows_rows t
    (List.filter_sublist (l := t.rows.zipIdx) (p := fun e ↦ !e.1.matches arrow m))
  rw [otherRows, KeyMatcher.rowsOf_eq, DataTable.numRows]
  have hother := otherRowsFrom_filter (fun r : Row σ ρ ↦ r.matches arrow m) t.rows 0
  rw [← DataTable.rows, hother]
  exact h.trans (filter_zipIdx_fst (fun r : Row σ ρ ↦ !r.matches arrow m) t.rows 0)

theorem rowsOf_length :
    (m.rowsOf arrow t.chunks 0).length = (t.rows.filter (·.matches arrow m)).length := by
  rw [← filter_zipIdx_fst (fun r : Row σ ρ ↦ r.matches arrow m) t.rows 0, KeyMatcher.rowsOf_eq,
    List.length_map, List.length_map]
  rfl

end KeyRows

end LakeVilla.Keys

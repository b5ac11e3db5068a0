import LakeVilla.Data.Positions
import LakeVilla.Reading.ReadTable
import Mathlib.Algebra.BigOperators.Ring.List

/-!
# Reading in parallel is reading one file after the other

What reading some files gives is a product over the files (`Outcome`): a file that cannot be read
makes it zero, no file at all is one. So it does not matter how the files are cut into ranges, as
long as the ranges follow each other from the first file to the last, and it does not matter in
which order the threads take their steps.

`split_range` counts in 32 bits. A list of `2 ^ 32` files or more is cut off at the remainder of its
length, and the files behind are not read.
-/

namespace LakeVilla.Reading

open Concurrency Intervals

variable {σ ρ File E : Type}

/-! ## Ranges -/

/-- `n` more parts of `step` positions, the ones before `remainder` with one more. -/
theorem splitLoop_tiles {step remainder n : ℕ} (i start : ℕ) (hstep : 0 < step)
    (hfit : start + n * step + (min (i + n) remainder - min i remainder) < 2 ^ 32) :
    Tiles start (start + n * step + (min (i + n) remainder - min i remainder))
      (splitLoop step remainder n i start) := by
  induction n generalizing i start with
  | zero => simpa [splitLoop] using Tiles.nil
  | succ n ih =>
    have hsucc : (n + 1) * step = step + n * step := by rw [Nat.succ_mul, Nat.add_comm]
    set stop := start + step + if i < remainder then 1 else 0 with hstop
    have hend : start + (n + 1) * step + (min (i + (n + 1)) remainder - min i remainder) =
        stop + n * step + (min (i + 1 + n) remainder - min (i + 1) remainder) := by
      rw [hsucc, hstop]
      split <;> omega
    rw [hend] at hfit ⊢
    have hmod : stop % 2 ^ 32 = stop := Nat.mod_eq_of_lt (by omega)
    simp only [splitLoop, ← hstop, hmod]
    refine .cons ?_ (ih _ _ hfit)
    rw [hstop]
    omega

/-- The ranges follow each other from the first position to the last, whatever number of parts is
asked for. -/
theorem splitRange_tiles (count parts : ℕ) (h : count < 2 ^ 32) :
    Tiles 0 count (splitRange 0 count parts) := by
  unfold splitRange
  split
  · next h0 =>
    obtain rfl : count = 0 := by omega
    exact .nil
  · next hpos =>
    set n := max 1 (min parts (count - 0)) with hn
    have hle : n ≤ count := by omega
    have hcount : n * (count / n) + count % n = count := Nat.div_add_mod count n
    have hlt : count % n < n := Nat.mod_lt _ (by omega)
    have hend : 0 + n * (count / n) + (min (0 + n) (count % n) - min 0 (count % n)) = count := by
      omega
    have := splitLoop_tiles 0 0 (Nat.div_pos hle (by omega)) (hend ▸ h)
    rwa [hend] at this

/-! ## Outcomes -/

/-- What reading some files gives. -/
inductive Outcome (σ ρ : Type)
  | failed
  /-- there was no file -/
  | empty
  | table (t : ArrowTable σ ρ)

namespace Outcome

def toTable : Outcome σ ρ → Option (ArrowTable σ ρ)
  | .table t => some t
  | _ => none

def ofPart : Option (ArrowTable σ ρ) → Outcome σ ρ
  | some t => .table t
  | none => .empty

def ofFile : Option (ArrowTable σ ρ) → Outcome σ ρ
  | some t => .table t
  | none => .failed

variable [DecidableEq σ]

protected def mul : Outcome σ ρ → Outcome σ ρ → Outcome σ ρ
  | .empty, o => o
  | o, .empty => o
  | .table t, .table u => ofFile (concatenateTables [t, u])
  | _, _ => .failed

theorem mul_empty (o : Outcome σ ρ) : Outcome.mul o .empty = o := by cases o <;> rfl

theorem failed_mul (o : Outcome σ ρ) : Outcome.mul .failed o = .failed := by cases o <;> rfl

theorem mul_failed (o : Outcome σ ρ) : Outcome.mul o .failed = .failed := by cases o <;> rfl

theorem table_mul_assoc (t u v : ArrowTable σ ρ) :
    Outcome.mul (Outcome.mul (.table t) (.table u)) (.table v) =
      Outcome.mul (.table t) (Outcome.mul (.table u) (.table v)) := by
  by_cases hu : u.schema = t.schema
  · by_cases hv : v.schema = t.schema <;>
      simp [Outcome.mul, concatenateTables, ofFile, hu, hv]
  · by_cases hv : v.schema = u.schema <;>
      simp [Outcome.mul, concatenateTables, ofFile, hu, hv]

protected theorem mul_assoc (a b c : Outcome σ ρ) :
    Outcome.mul (Outcome.mul a b) c = Outcome.mul a (Outcome.mul b c) := by
  cases a with
  | failed => simp only [failed_mul]
  | empty => rfl
  | table t =>
    cases b with
    | failed => simp only [failed_mul, mul_failed]
    | empty => rfl
    | table u =>
      cases c with
      | failed => simp only [mul_failed]
      | empty => simp only [mul_empty]
      | table v => exact table_mul_assoc t u v

instance : MonoidWithZero (Outcome σ ρ) where
  mul := Outcome.mul
  one := .empty
  zero := .failed
  one_mul _ := rfl
  mul_one := mul_empty
  zero_mul := failed_mul
  mul_zero := mul_failed
  mul_assoc := Outcome.mul_assoc

theorem table_mul_table (t u : ArrowTable σ ρ) :
    table t * table u = ofFile (concatenateTables [t, u]) := rfl

theorem ofFile_none : (ofFile none : Outcome σ ρ) = 0 := rfl

omit [DecidableEq σ] in
@[simp] theorem ofFile_some (t : ArrowTable σ ρ) : ofFile (some t) = table t := rfl

theorem ofPart_none : (ofPart none : Outcome σ ρ) = 1 := rfl

@[simp] theorem toTable_zero : (0 : Outcome σ ρ).toTable = none := rfl

@[simp] theorem toTable_one : (1 : Outcome σ ρ).toTable = none := rfl

omit [DecidableEq σ] in
theorem toTable_ofFile (t : Option (ArrowTable σ ρ)) : (ofFile t).toTable = t := by
  cases t <;> rfl

theorem ofFile_ne_one (t : Option (ArrowTable σ ρ)) : ofFile t ≠ 1 := by
  cases t <;> exact nofun

/-- Only no files at all give nothing. -/
theorem mul_eq_one {a b : Outcome σ ρ} (h : a * b = 1) : a = 1 ∧ b = 1 := by
  cases a with
  | failed => exact absurd ((zero_mul b).symm.trans h) nofun
  | empty => exact ⟨rfl, (one_mul b).symm.trans h⟩
  | table t =>
    cases b with
    | failed => cases h
    | empty => cases h
    | table u => exact absurd h (ofFile_ne_one _)

/-- The table read so far and the one of the next file. -/
theorem ofPart_mul_ofFile (part file : Option (ArrowTable σ ρ)) :
    ofPart part * ofFile file = ofFile (file >>= extend part) := by
  cases file with
  | none => exact mul_zero _
  | some u => cases part <;> rfl

end Outcome

open Outcome

section Outcomes

variable [DecidableEq σ] {read : File → Option (ArrowTable σ ρ)} {files : List File}

/-- What reading the files gives. -/
def outcome (read : File → Option (ArrowTable σ ρ)) (files : List File) : Outcome σ ρ :=
  (files.map fun f ↦ ofFile (read f)).prod

@[simp] theorem outcome_nil : outcome read [] = 1 := rfl

@[simp] theorem outcome_cons (f : File) :
    outcome read (f :: files) = ofFile (read f) * outcome read files :=
  List.prod_cons

theorem outcome_ne_one (h : files ≠ []) : outcome read files ≠ 1 := by
  obtain ⟨f, fs, rfl⟩ := List.exists_cons_of_ne_nil h
  exact fun h ↦ ofFile_ne_one _ (mul_eq_one h).1

theorem outcome_flatMap {ι : Type} (ranges : List ι) (g : ι → List File) :
    outcome read (ranges.flatMap g) = (ranges.map fun range ↦ outcome read (g range)).prod := by
  induction ranges with
  | nil => rfl
  | cons range ranges ih =>
    rw [List.map_cons, List.prod_cons, ← ih]
    simp [outcome]

/-- Tables of different schemas are not put together, whatever follows. -/
theorem concatenateTables_cons_cons (t u : ArrowTable σ ρ) (ts : List (ArrowTable σ ρ)) :
    concatenateTables (t :: u :: ts) =
      concatenateTables [t, u] >>= fun t' ↦ concatenateTables (t' :: ts) := by
  by_cases hu : u.schema = t.schema <;> simp [concatenateTables, hu]

theorem table_mul_outcome (t : ArrowTable σ ρ) : table t * outcome read files =
    ofFile (files.mapM read >>= fun ts ↦ concatenateTables (t :: ts)) := by
  induction files generalizing t with
  | nil => simp [concatenateTables, ofFile]
  | cons f fs ih =>
    rw [outcome_cons, ← mul_assoc]
    cases hf : read f with
    | none => simp [hf, ofFile_none]
    | some u =>
      rw [ofFile_some, table_mul_table]
      cases hts : fs.mapM read with
      | none =>
        simp only [hts] at ih
        cases concatenateTables [t, u] with
        | none => simp [hf, hts, ofFile_none]
        | some t' => simpa [hf, hts] using ih t'
      | some ts =>
        simp only [hts] at ih
        have hcons : (f :: fs).mapM read = some (u :: ts) := by simp [hf, hts]
        rw [hcons]
        change _ = ofFile (concatenateTables (t :: u :: ts))
        rw [concatenateTables_cons_cons t u ts]
        cases concatenateTables [t, u] with
        | none => exact zero_mul _
        | some t' => exact ih t'

/-- **Reading one file after the other**, and putting all tables together. -/
theorem outcome_eq (h : files ≠ []) :
    outcome read files = ofFile (files.mapM read >>= concatenateTables) := by
  obtain ⟨f, fs, rfl⟩ := List.exists_cons_of_ne_nil h
  rw [outcome_cons]
  cases hf : read f with
  | none => simp [hf, ofFile_none]
  | some u =>
    rw [ofFile_some, table_mul_outcome]
    cases hts : fs.mapM read <;> simp [hf, hts]

/-- A file that cannot be read spoils the result. -/
theorem outcome_of_unreadable (h : ∃ f ∈ files, read f = none) : outcome read files = 0 := by
  obtain ⟨f, hf, hnone⟩ := h
  exact List.prod_eq_zero (List.mem_map.mpr ⟨f, hf, by rw [hnone, ofFile_none]⟩)

/-- The rows of a file; none if it cannot be read. -/
def rowsOf (read : File → Option (ArrowTable σ ρ)) (f : File) : List ρ :=
  ((read f).map ArrowTable.rows).getD []

/-- Files that are read as tables of one schema. -/
theorem outcome_of_readable {schema : σ} (hne : files ≠ [])
    (h : ∀ f ∈ files, ∃ table, read f = some table ∧ table.schema = schema) :
    outcome read files = table ⟨schema, files.flatMap (rowsOf read)⟩ := by
  induction files with
  | nil => exact absurd rfl hne
  | cons f fs ih =>
    obtain ⟨t, hread, rfl⟩ := h f List.mem_cons_self
    rw [outcome_cons, hread, ofFile_some, List.flatMap_cons]
    have hrows : rowsOf read f = t.rows := by simp [rowsOf, hread]
    rw [hrows]
    by_cases hfs : fs = []
    · simp [hfs]
    · rw [ih hfs fun f hf ↦ h f (List.mem_cons_of_mem _ hf), table_mul_table]
      simp [concatenateTables]

/-! ## The threads -/

variable {list : List File} {ranges : List (ℕ × ℕ)} {success b : Bool} {th : Thread σ ρ}
  {s : Reads σ ρ} {a c : ℕ}

/-- What reading the files of a range gives. -/
def rangeOutcome (read : File → Option (ArrowTable σ ρ)) (list : List File) (range : ℕ × ℕ) :
    Outcome σ ρ :=
  outcome read (slice list range)

/-- What is known of a thread: its slot and the files it has still to read make up its range; or it
has failed, and so does its range. -/
def Thread.Sound (read : File → Option (ArrowTable σ ρ)) (list : List File) (success : Bool)
    (th : Thread σ ρ) : Prop :=
  match th.phase with
  | .reading => th.next ≤ th.range.2 ∧
      ofPart th.table * rangeOutcome read list (th.next, th.range.2) =
        rangeOutcome read list th.range
  | .failed => rangeOutcome read list th.range = 0
  | .ended => ofPart th.table = rangeOutcome read list th.range ∨
      rangeOutcome read list th.range = 0 ∧ success = false

theorem Thread.Sound.and (h : th.Sound read list success) : th.Sound read list (success && b) := by
  unfold Thread.Sound at h ⊢
  cases hp : th.phase <;> simp only [hp] at h ⊢
  case reading => exact h
  case failed => exact h
  case ended => exact h.imp_right fun h ↦ ⟨h.1, by simp [h.2]⟩

@[simp] theorem Thread.advance_range : (th.advance read list).range = th.range := by
  unfold Thread.advance
  split
  · split
    · split <;> rfl
    · rfl
  · rfl
  · rfl

section Advance

variable (hp : th.phase = .reading)
include hp

theorem Thread.advance_of_some {t : ArrowTable σ ρ} (hlt : th.next < th.range.2)
    (h : list[th.next]? >>= read >>= extend th.table = some t) :
    th.advance read list = { th with next := th.next + 1, table := some t } := by
  simp only [Thread.advance, hp, if_pos hlt, h]

theorem Thread.advance_of_none (hlt : th.next < th.range.2)
    (h : list[th.next]? >>= read >>= extend th.table = none) :
    th.advance read list = { th with table := none, phase := .failed } := by
  simp only [Thread.advance, hp, if_pos hlt, h]

theorem Thread.advance_of_le (hle : ¬th.next < th.range.2) :
    th.advance read list = { th with phase := .ended } := by
  simp only [Thread.advance, hp, if_neg hle]

end Advance

theorem Thread.advance_of_failed (hp : th.phase = .failed) :
    th.advance read list = { th with phase := .ended } := by
  simp only [Thread.advance, hp]

/-- A step of a thread. -/
theorem Thread.Sound.advance (h : th.Sound read list success) (hlen : th.range.2 ≤ list.length) :
    (th.advance read list).Sound read list (success && th.phase ≠ .failed) := by
  unfold Thread.Sound at h
  cases hp : th.phase with
  | reading =>
    simp only [hp] at h
    obtain ⟨hle, heq⟩ := h
    by_cases hlt : th.next < th.range.2
    · have hl : th.next < list.length := by omega
      rw [rangeOutcome, slice_eq_cons hlt hl, outcome_cons, ← mul_assoc, ofPart_mul_ofFile] at heq
      have hget : list[th.next]? >>= read = read list[th.next] := by simp [hl]
      cases hread : read list[th.next] >>= extend th.table with
      | none =>
        rw [advance_of_none hp hlt (hget ▸ hread)]
        rw [hread, ofFile_none, zero_mul] at heq
        exact heq.symm
      | some t =>
        rw [advance_of_some hp hlt (hget ▸ hread)]
        rw [hread] at heq
        simp only [Thread.Sound, hp]
        exact ⟨by omega, heq⟩
    · rw [advance_of_le hp hlt]
      have hnext : th.next = th.range.2 := by omega
      rw [hnext, rangeOutcome, slice_self, outcome_nil, mul_one] at heq
      exact .inl heq
  | failed =>
    simp only [hp] at h
    rw [advance_of_failed hp]
    exact .inr ⟨h, by simp⟩
  | ended =>
    simp only [hp] at h
    simpa [Thread.advance, Thread.Sound, hp] using h

/-- What is known while the threads run. -/
structure Reads.Sound (read : File → Option (ArrowTable σ ρ)) (list : List File)
    (ranges : List (ℕ × ℕ)) (s : Reads σ ρ) : Prop where
  parts : s.threads.map Thread.range = ranges
  threads : ∀ th ∈ s.threads, th.Sound read list s.success
  failed : s.success = false → ∃ range ∈ ranges, rangeOutcome read list range = 0

theorem Reads.Sound.start (htiles : Tiles a c ranges) :
    (Reads.start ranges).Sound read list ranges where
  parts := by simp [Reads.start, Thread.start, Function.comp_def]
  threads th hth := by
    obtain ⟨range, hrange, rfl⟩ := List.mem_map.mp hth
    exact ⟨(htiles.mem hrange).2.1.le, one_mul _⟩
  failed h := by simp [Reads.start] at h

/-- A step of one of the threads. -/
theorem Reads.Sound.advance (h : s.Sound read list ranges) (htiles : Tiles a c ranges)
    (hlen : c ≤ list.length) {l : ℕ} (hl : s.threads[l]? = some th) :
    (s.advance read list l).Sound read list ranges := by
  have hmem : th ∈ s.threads := List.mem_of_getElem? hl
  have hrange : th.range ∈ ranges := h.parts ▸ List.mem_map_of_mem hmem
  constructor
  · simp only [Reads.advance]
    rw [List.map_modify_eq _ fun _ _ ↦ Thread.advance_range, h.parts]
  · intro th' hth'
    simp only [Reads.advance, hl, Option.all_some] at hth' ⊢
    rcases List.mem_modify hth' with hth' | ⟨th₀, hth₀, rfl⟩
    · exact (h.threads th' hth').and
    · obtain rfl := Option.some.inj (hl.symm.trans hth₀)
      exact (h.threads th hmem).advance ((htiles.mem hrange).2.2.trans hlen)
  · intro hfalse
    simp only [Reads.advance, hl, Option.all_some, Bool.and_eq_false_iff] at hfalse
    rcases hfalse with hfalse | hfalse
    · exact h.failed hfalse
    · have hp : th.phase = .failed := by simpa using hfalse
      have := h.threads th hmem
      simp only [Thread.Sound, hp] at this
      exact ⟨th.range, hrange, this⟩

/-- The steps a thread has still to take, at most. -/
def Thread.remaining (th : Thread σ ρ) : ℕ :=
  match th.phase with
  | .reading => 2 * (th.range.2 - th.next) + 2
  | .failed => 1
  | .ended => 0

theorem Thread.remaining_advance (read : File → Option (ArrowTable σ ρ)) (list : List File)
    (h : th.phase ≠ .ended) : (th.advance read list).remaining < th.remaining := by
  cases hp : th.phase with
  | reading =>
    by_cases hlt : th.next < th.range.2
    · cases hread : list[th.next]? >>= read >>= extend th.table with
      | none => simp [advance_of_none hp hlt hread, remaining, hp]
      | some t =>
        simp only [advance_of_some hp hlt hread, remaining, hp]
        omega
    · simp [advance_of_le hp hlt, remaining, hp]
  | failed => simp [advance_of_failed hp, remaining, hp]
  | ended => exact absurd hp h

def Reads.remaining (s : Reads σ ρ) : ℕ := (s.threads.map Thread.remaining).sum

theorem Reads.remaining_advance {l : ℕ} (hl : s.threads[l]? = some th) (h : th.phase ≠ .ended) :
    (s.advance read list l).remaining < s.remaining := by
  obtain ⟨l₁, l₂, hs, rfl⟩ := List.exists_append_of_getElem? hl
  simp only [Reads.remaining, Reads.advance, hs, List.modify_append_cons, List.map_append,
    List.map_cons, List.sum_append, List.sum_cons]
  have := Thread.remaining_advance read list h
  omega

/-- The loop over the parts, when no slot is empty. -/
theorem merge_eq {parts : List (Option (ArrowTable σ ρ))} (h : ∀ part ∈ parts, part ≠ none)
    (table : Option (ArrowTable σ ρ)) :
    merge table parts = (ofPart table * (parts.map ofPart).prod).toTable := by
  induction parts generalizing table with
  | nil => cases table <;> simp [merge, ofPart, toTable]
  | cons part parts ih =>
    have ih := ih fun part hp ↦ h part (List.mem_cons_of_mem _ hp)
    obtain ⟨u, rfl⟩ := Option.ne_none_iff_exists'.mp (h part List.mem_cons_self)
    rw [List.map_cons, List.prod_cons]
    cases table with
    | none => simpa [merge, ofPart_none] using ih (some u)
    | some t =>
      rw [← mul_assoc]
      change _ = (table t * table u * _).toTable
      rw [table_mul_table]
      cases hcon : concatenateTables [t, u] with
      | none => simp [merge, hcon, ofFile_none]
      | some v => simpa [merge, hcon, ofPart] using ih (some v)

/-- **The result**, once all threads have ended. -/
theorem Reads.Sound.result (h : s.Sound read list ranges) (htiles : Tiles 0 c ranges)
    (hlen : c ≤ list.length) (hend : ∀ th ∈ s.threads, th.phase = .ended) :
    s.result = (outcome read (list.take c)).toTable := by
  have hprod : outcome read (list.take c) = (ranges.map (rangeOutcome read list)).prod := by
    rw [← slice_zero, ← htiles.flatMap_slice, outcome_flatMap]
    rfl
  rw [hprod]
  cases hs : s.success with
  | false =>
    obtain ⟨range, hrange, hzero⟩ := h.failed hs
    have : (ranges.map (rangeOutcome read list)).prod = 0 :=
      List.prod_eq_zero (List.mem_map.mpr ⟨range, hrange, hzero⟩)
    simp [Reads.result, hs, this]
  | true =>
    have hpart : ∀ th ∈ s.threads, ofPart th.table = rangeOutcome read list th.range := by
      intro th hth
      have := h.threads th hth
      simpa [Thread.Sound, hend th hth, hs] using this
    have hne : ∀ part ∈ s.threads.map Thread.table, part ≠ none := by
      rintro _ hpm hnone
      obtain ⟨th, hth, rfl⟩ := List.mem_map.mp hpm
      have hrange := htiles.mem (h.parts ▸ List.mem_map_of_mem hth)
      have hslice : slice list th.range ≠ [] := by
        rw [slice_eq_cons hrange.2.1 (by omega)]
        exact List.cons_ne_nil _ _
      exact outcome_ne_one hslice ((hpart th hth).symm.trans (by rw [hnone, ofPart_none]))
    have hmap : (s.threads.map Thread.table).map ofPart = ranges.map (rangeOutcome read list) := by
      rw [← h.parts, List.map_map, List.map_map]
      exact List.map_congr_left hpart
    simp only [Reads.result, hs, if_true]
    rw [merge_eq hne, hmap, ofPart_none, one_mul]

/-- **Every run ends**, and with the same result. -/
theorem threads_ends (read : File → Option (ArrowTable σ ρ)) (htiles : Tiles 0 c ranges)
    (hlen : c ≤ list.length) :
    (threads read list ranges).Ends (·.result = (outcome read (list.take c)).toTable)
      (.start ranges) := by
  refine .of_measure (P := Reads.Sound read list ranges) Reads.remaining ?_ ?_ (.start htiles)
  · rintro l s h ⟨th, hl, hp⟩
    exact ⟨h.advance htiles hlen hl, Reads.remaining_advance hl hp⟩
  · intro s h hfinal
    refine h.result htiles hlen fun th hth ↦ ?_
    obtain ⟨l, hl⟩ := List.mem_iff_getElem?.mp hth
    by_contra hp
    exact hfinal l ⟨th, hl, hp⟩

end Outcomes

/-! ## The table -/

namespace LiveTable

variable [DecidableEq σ] {t : LiveTable σ ρ File E} {numThreads : ℕ}
  {result : Option (ArrowTable σ ρ)}

/-- One file after the other: the concatenation of all tables, if every file is read. -/
def sequential (t : LiveTable σ ρ File E) : Option (ArrowTable σ ρ) :=
  t.list.mapM t.readDataFile >>= concatenateTables

/-- The tables that the live files are read as have one schema. -/
def OneSchema (t : LiveTable σ ρ File E) : Prop :=
  ∃ schema, ∀ f ∈ t.list, ∀ table, t.readDataFile f = some table → table.schema = schema

/-- The number of files that `split_range` is given. -/
def counted (t : LiveTable σ ρ File E) : ℕ := t.list.length % 2 ^ 32

theorem sequential_eq (hne : t.list ≠ []) :
    t.sequential = (outcome t.readDataFile t.list).toTable := by
  rw [outcome_eq hne, toTable_ofFile, sequential]

/-- The files that are counted decide what is returned. -/
theorem readTable_iff (hne : t.list ≠ []) : t.ReadTable numThreads result ↔
    result = (outcome t.readDataFile (t.list.take t.counted)).toTable := by
  cases hschema : t.schema with
  | error e =>
    have hnone : (outcome t.readDataFile (t.list.take t.counted)).toTable = none := by
      cases t.list.take t.counted with
      | nil => rfl
      | cons f fs => rw [outcome_of_unreadable ⟨f, by simp [readDataFile, hschema]⟩, toTable_zero]
    simp [ReadTable, hschema, hnone]
  | ok schema =>
    have hlt : t.counted < 2 ^ 32 := Nat.mod_lt _ (by decide)
    have hends := threads_ends t.readDataFile (splitRange_tiles t.counted numThreads hlt)
      (Nat.mod_le t.list.length _)
    simp only [ReadTable, hschema, if_neg hne]
    constructor
    · intro h
      obtain ⟨s, hs, hs'⟩ := h.exists_and hends
      exact hs.symm.trans hs'
    · rintro rfl
      exact hends

/-- Every file is counted, or one that is counted cannot be read, or the ones that are not counted
hold no rows. -/
def Covered (t : LiveTable σ ρ File E) : Prop :=
  t.list.length < 2 ^ 32 ∨
  (∃ f ∈ t.list.take t.counted, t.readDataFile f = none) ∨
  (t.counted = 0 ∧ ∃ f ∈ t.list, t.readDataFile f = none) ∨
  (t.counted ≠ 0 ∧ ∀ f ∈ t.list.drop t.counted, ∃ table, t.readDataFile f = some table ∧
    table.rows = [])

/-- Files of one schema that can be read. -/
theorem outcome_of_forall {files : List File} {schema : σ} (hsub : files ⊆ t.list)
    (hne : files ≠ [])
    (hone : ∀ f ∈ t.list, ∀ table, t.readDataFile f = some table → table.schema = schema)
    (h : ¬∃ f ∈ files, t.readDataFile f = none) :
    outcome t.readDataFile files = table ⟨schema, files.flatMap (rowsOf t.readDataFile)⟩ := by
  refine outcome_of_readable hne fun f hf ↦ ?_
  obtain ⟨table, htable⟩ := Option.ne_none_iff_exists'.mp fun hnone ↦ h ⟨f, hf, hnone⟩
  exact ⟨table, htable, hone f (hsub hf) table htable⟩

/-- Nothing is returned of no files; that is right if the list cannot be read. -/
theorem none_eq_iff (hne : t.list ≠ []) (hone : t.OneSchema) :
    none = (outcome t.readDataFile t.list).toTable ↔ ∃ f ∈ t.list, t.readDataFile f = none := by
  obtain ⟨schema, hone⟩ := hone
  by_cases hall : ∃ f ∈ t.list, t.readDataFile f = none
  · simp only [outcome_of_unreadable hall, toTable_zero, true_iff]
    exact hall
  · simp only [outcome_of_forall (List.Subset.refl _) hne hone hall, hall, iff_false]
    exact nofun

/-- The files before the cut-off can be read; those behind it have to be read as no rows. -/
theorem outcome_take_eq_iff (hone : t.OneSchema) (h0 : t.counted ≠ 0) (hne : t.list ≠ [])
    (htake : ¬∃ f ∈ t.list.take t.counted, t.readDataFile f = none) :
    (outcome t.readDataFile (t.list.take t.counted)).toTable =
        (outcome t.readDataFile t.list).toTable ↔
      ∀ f ∈ t.list.drop t.counted, ∃ table, t.readDataFile f = some table ∧ table.rows = [] := by
  obtain ⟨schema, hone⟩ := hone
  have hne' : t.list.take t.counted ≠ [] := by simp [h0, hne]
  rw [outcome_of_forall (List.take_subset _ _) hne' hone htake]
  by_cases hall : ∃ f ∈ t.list, t.readDataFile f = none
  · rw [outcome_of_unreadable hall]
    refine ⟨nofun, fun h ↦ ?_⟩
    obtain ⟨f, hf, hnone⟩ := hall
    rw [← List.take_append_drop t.counted t.list, List.mem_append] at hf
    rcases hf with hf | hf
    · exact absurd ⟨f, hf, hnone⟩ htake
    · obtain ⟨table, htable, -⟩ := h f hf
      exact absurd (hnone.symm.trans htable) nofun
  · have hsplit : t.list.flatMap (rowsOf t.readDataFile) =
        (t.list.take t.counted).flatMap (rowsOf t.readDataFile) ++
          (t.list.drop t.counted).flatMap (rowsOf t.readDataFile) := by
      rw [← List.flatMap_append, List.take_append_drop]
    rw [outcome_of_forall (List.Subset.refl _) hne hone hall, hsplit]
    have hrows : ∀ f ∈ t.list.drop t.counted, (rowsOf t.readDataFile f = [] ↔
        ∃ table, t.readDataFile f = some table ∧ table.rows = []) := by
      intro f hf
      obtain ⟨table, htable⟩ :=
        Option.ne_none_iff_exists'.mp fun hnone ↦ hall ⟨f, List.mem_of_mem_drop hf, hnone⟩
      simp [rowsOf, htable]
    simp only [toTable, Option.some.injEq, ArrowTable.mk.injEq, true_and, List.self_eq_append_right,
      List.flatMap_eq_nil_iff]
    exact forall₂_congr hrows

/-- **Reading in parallel returns what reading one file after the other returns**, whatever the
number of threads and the order of their steps, exactly as long as no file with rows is cut off. -/
theorem parallel_read_iff (t : LiveTable σ ρ File E) (numThreads : ℕ) (hne : t.list ≠ [])
    (hone : t.OneSchema) : t.ReadTable numThreads t.sequential ↔ t.Covered := by
  rw [readTable_iff hne, sequential_eq hne, eq_comm]
  by_cases hlen : t.list.length < 2 ^ 32
  · have hcounted : t.counted = t.list.length := Nat.mod_eq_of_lt hlen
    rw [hcounted, List.take_length]
    exact ⟨fun _ ↦ .inl hlen, fun _ ↦ rfl⟩
  by_cases htake : ∃ f ∈ t.list.take t.counted, t.readDataFile f = none
  · have hall : ∃ f ∈ t.list, t.readDataFile f = none :=
      htake.imp fun f hf ↦ ⟨List.mem_of_mem_take hf.1, hf.2⟩
    rw [outcome_of_unreadable htake, outcome_of_unreadable hall]
    exact ⟨fun _ ↦ .inr (.inl htake), fun _ ↦ rfl⟩
  by_cases h0 : t.counted = 0
  · have hnone : (outcome t.readDataFile (t.list.take t.counted)).toTable = none := by
      rw [h0, List.take_zero, outcome_nil, toTable_one]
    rw [hnone, none_eq_iff hne hone]
    rw [h0] at htake
    simp only [Covered, hlen, htake, h0, false_or, true_and, ne_eq, not_true_eq_false, false_and,
      or_false]
  · rw [outcome_take_eq_iff hone h0 hne htake]
    simp only [Covered, hlen, htake, h0, false_or, false_and, ne_eq, not_false_eq_true, true_and]

/-- Three files, two of them with a row, and five threads. -/
theorem parallel_read_sample :
    let t : LiveTable ℕ ℕ ℕ Unit :=
      ⟨.ok none, [0, 1, 2], fun f ↦ some ⟨7, List.replicate (f % 2) f⟩, fun _ _ _ ↦ none⟩
    t.ReadTable 5 (some ⟨7, [1]⟩) := by
  intro t
  have hone : t.OneSchema := ⟨7, fun f _ table h ↦ by
    obtain rfl := Option.some.inj h
    rfl⟩
  exact (parallel_read_iff t 5 (by decide) hone).mpr (.inl (by decide))

/-- `2 ^ 32` files with one row each: no thread is started. -/
theorem long_list_unread :
    let t : LiveTable ℕ ℕ ℕ Unit :=
      ⟨.ok none, List.replicate (2 ^ 32) 0, fun _ ↦ some ⟨7, [1]⟩, fun _ _ _ ↦ none⟩
    t.ReadTable 4 none ∧ ¬t.ReadTable 4 t.sequential := by
  intro t
  have hlen : t.list.length = 2 ^ 32 := List.length_replicate
  have hne : t.list ≠ [] := by
    intro h
    rw [h] at hlen
    cases hlen
  have h0 : t.counted = 0 := by rw [counted, hlen, Nat.mod_self]
  have hnone : (outcome t.readDataFile (t.list.take t.counted)).toTable = none := by
    rw [h0, List.take_zero, outcome_nil, toTable_one]
  have hone : t.OneSchema := ⟨7, fun f _ table h ↦ by
    obtain rfl := Option.some.inj h
    rfl⟩
  constructor
  · rw [readTable_iff hne, hnone]
  · rw [readTable_iff hne, hnone, sequential_eq hne, eq_comm, none_eq_iff hne hone]
    rintro ⟨f, -, hf⟩
    cases hf

end LiveTable

end LakeVilla.Reading

import LakeVilla.Data.Positions
import LakeVilla.Guarantees.FailedRemoval
import LakeVilla.Keys.RedoUpdate

/-!
# Arithmetic on integer columns in a redo

The operation of an update is applied at commit, to the rows that are found then. What has to come
out is the exact result for every value (`ExactUpdate`), or nothing has to change. The code takes
what `std::stoi` reads at the beginning of the operand and computes with 32 bits without a check; so
it does what it has to exactly for operands and values that need none.
-/

namespace LakeVilla.Keys

open ByteString
open Sublog (UpdateOperation UpdateValues)

variable {σ ρ : Type}

/-! ## Exact results -/

/-- The integer that a text denotes; blanks may stand around it. -/
def denoted (text : ByteString) : Option ℤ :=
  let (negative, rest) := splitSign (text.dropWhile isSpace)
  let digits := rest.takeWhile isDigit
  if digits ≠ [] ∧ (rest.dropWhile isDigit).all isSpace then
    some (withSign negative (ofDecimal digits))
  else none

/-- The exact result for the value `n` and the operand `v`, if there is one. -/
def exactResult (op : UpdateOperation) (v n : ℤ) : Option ℤ :=
  match op with
  | .none => some n
  | .rep => some v
  | .add => some (n + v)
  | .sub => some (n - v)
  | .mul => some (n * v)
  | .div => if v = 0 then none else some (n.tdiv v)

/-- The operation gives the cell a new value. Nulls are only replaced. -/
def Computes (op : UpdateOperation) : Cell σ → Prop
  | some (.number _) => op ≠ .none
  | _ => op = .rep

instance (op : UpdateOperation) (c : Cell σ) : Decidable (Computes op c) := by
  unfold Computes
  split <;> infer_instance

/-- The number in a cell. -/
def Cell.toInt : Cell σ → ℤ
  | some (.number n) => n
  | _ => 0

/-- The cell holds the exact result for the number that the text denotes. -/
def ExactCell (op : UpdateOperation) (text : ByteString) (old new : Cell σ) : Prop :=
  if Computes op old then
    ∃ v m, denoted text = some v ∧ exactResult op v (Cell.toInt old) = some m ∧ InInt32 m ∧
      new = some (.number m)
  else new = old

/-- What an operation has to do with a column. String columns are not looked at. -/
def ExactColumn (float : FloatOp) (columns : List Field) (op : UpdateOperation)
    (ref : ByteString × ByteString) (rows rows' : List (FullRow σ)) : Prop :=
  match findColumn columns ref.1 with
  | some (i, .string) => buildStringCol float op ref.2 i rows = .ok rows'
  | some (i, .int32) =>
    List.Forall₂ (fun r r' ↦ ∃ c, ExactCell op ref.2 (r.cell i) c ∧ r' = r.setCell i c) rows rows'
  | _ => rows' = rows

/-- What an update has to do with rows, one pair after the other. -/
def ExactUpdate (float : FloatOp) (columns : List Field) (op : UpdateOperation) :
    UpdateValues → List (FullRow σ) → List (FullRow σ) → Prop
  | [], rows, rows' => rows' = rows
  | ref :: values, rows, rows' => ∃ mid, ExactColumn float columns op ref rows mid ∧
      ExactUpdate float columns op values mid rows'

/-- **Exact or refused.** The step replaces the rows of the key by the exact results, or returns
false with the same files; nothing is undefined, and nothing throws for the sake of an integer
column. -/
def Redo.ExactOrRefused (ctx : RedoContext σ) (columns : List Field) (r : Redo σ) (index : ℕ) :
    Prop :=
  match r.update ctx columns index with
  | .ok (true, r') => ∃ values op rows rows', ctx.updateVals[index]? = some values ∧
      ctx.updateOps[index]? = some op ∧ keyRows r.foundFiles = some rows ∧
      ExactUpdate ctx.float columns op values rows.rows rows' ∧
      r.replaceRows ctx rows' = (true, r')
  | .ok (false, r') => r'.state.table.createdFiles = r.state.table.createdFiles ∧
      r'.state.table.deletedFiles = r.state.table.deletedFiles
  | .error fault => fault = .float

/-! ## Operands and values that need no check -/

/-- `std::stoi` reads a number, and every value has a result that fits. -/
def Answers (op : UpdateOperation) (text : ByteString) (cells : List (Cell σ)) : Prop :=
  ∃ v, stoi text = some v ∧
    ∀ c ∈ cells, Computes op c → ∃ m, exactResult op v (Cell.toInt c) = some m ∧ InInt32 m

/-- If a value is computed, the whole operand is a number. -/
def Whole (op : UpdateOperation) (text : ByteString) (cells : List (Cell σ)) : Prop :=
  (∃ c ∈ cells, Computes op c) → denoted text ≠ none

/-- A cell with the exact result for the operand that is read. -/
def exactCell (op : UpdateOperation) (v : ℤ) (c : Cell σ) : Cell σ :=
  if Computes op c then some (.number ((exactResult op v (Cell.toInt c)).getD 0)) else c

/-- A column with exact results for the operand that is read. -/
def exactColumn (float : FloatOp) (columns : List Field) (op : UpdateOperation)
    (rows : List (FullRow σ)) (ref : ByteString × ByteString) : Option (List (FullRow σ)) :=
  match findColumn columns ref.1 with
  | some (i, .string) => (buildStringCol float op ref.2 i rows).toOption
  | some (i, .int32) =>
    some (rows.map fun r ↦ r.setCell i (exactCell op ((stoi ref.2).getD 0) (r.cell i)))
  | _ => some rows

/-- Something holds for every integer column that is updated, with the exact results of the pairs
before. -/
def EachColumn (P : ByteString → List (Cell σ) → Prop) (float : FloatOp) (columns : List Field)
    (op : UpdateOperation) : UpdateValues → List (FullRow σ) → Prop
  | [], _ => True
  | ref :: values, rows =>
    (∀ i, findColumn columns ref.1 = some (i, .int32) → P ref.2 (rows.map (·.cell i))) ∧
    ∀ rows', exactColumn float columns op rows ref = some rows' →
      EachColumn P float columns op values rows'

/-- The found files that are not retired yet. -/
def unretired : List ByteString → List (KeyFile σ ρ) → List (KeyFile σ ρ)
  | _, [] => []
  | retired, f :: files =>
    if f.path ∈ retired then unretired retired files else f :: unretired (f.path :: retired) files

/-- The rows can be written. -/
def State.CanWrite (out : Outside σ ρ) (st : State σ ρ) (rows : DataTable σ ρ) : Prop :=
  (∃ rows', out.conform rows = some rows') ∧
    out.canWrite (st.newDataFilePath out st.asked) = true

/-- A found file cannot be rewritten after one new file was written. -/
def Redo.Stuck (ctx : RedoContext σ) (r : Redo σ) : Prop :=
  let files := unretired r.retiredFiles r.foundFiles
  ∃ i f, files[i]? = some f ∧
    CannotRewrite ctx.out r.state (r.state.asked + 1 + rewrites (files.take i)) f

/-- All results exist and fit; and if the rows are written, no operand is cut off and every found
file can be rewritten. -/
def Redo.NeedsNoCheck (ctx : RedoContext σ) (columns : List Field) (r : Redo σ) (index : ℕ) :
    Prop :=
  ∀ values op rows, ctx.updateVals[index]? = some values → ctx.updateOps[index]? = some op →
    keyRows r.foundFiles = some rows →
    EachColumn (Answers op) ctx.float columns op values rows.rows ∧
    ∀ rows', values.foldlM (exactColumn ctx.float columns op) rows.rows = some rows' →
      r.state.CanWrite ctx.out ⟨[rows']⟩ →
      EachColumn (Whole op) ctx.float columns op values rows.rows ∧ ¬r.Stuck ctx

/-! ## Operands -/

variable {op : UpdateOperation} {text : ByteString} {v n : ℤ} {c : Cell σ}

theorem InInt32.inInt64 (h : InInt32 n) : InInt64 n := by
  unfold InInt32 at h
  unfold InInt64
  omega

theorem int32_of_inInt32 (h : InInt32 n) : int32 n = some n := if_pos h

theorem inInt32_of_int32 {m : ℤ} (h : int32 n = some m) : InInt32 m := by
  unfold int32 at h
  split at h
  · next hn => exact Option.some.inj h ▸ hn
  · cases h

/-- A whole number is read as what it denotes. -/
theorem stoi_of_denoted (h : denoted text = some v) : stoi text = int32 v := by
  unfold denoted at h
  unfold stoi stoll
  cases hsign : splitSign (text.dropWhile isSpace) with
  | mk negative rest =>
    simp only [hsign] at h ⊢
    split at h
    · next hdigits =>
      obtain rfl := Option.some.inj h
      rw [if_neg hdigits.1]
      by_cases h64 : InInt64 (withSign negative (ofDecimal (rest.takeWhile isDigit)))
      · rw [if_pos h64]
      · rw [if_neg h64, int32, if_neg fun h32 ↦ h64 h32.inInt64]
    · cases h

theorem stoi_inInt32 (h : stoi text = some v) : InInt32 v := by
  unfold stoi at h
  split at h
  · exact inInt32_of_int32 h
  · cases h

/-! ## Cells -/

theorem buildInt_eq (hv : InInt32 v) : buildInt op v c =
    if Computes op c then ((exactResult op v (Cell.toInt c)).bind int32).map (some ∘ .number)
    else some c := by
  unfold buildInt
  split
  · next hrep =>
    have hcomputes : Computes op c := by
      unfold Computes
      split
      · simp [hrep]
      · exact hrep
    rw [if_pos hcomputes, hrep, exactResult, Option.bind_some, int32_of_inInt32 hv]
    rfl
  · next hrep =>
    split
    · next n =>
      cases op with
      | none => simp [Computes]
      | rep => exact absurd rfl hrep
      | add => simp [Computes, exactResult, Cell.toInt]
      | sub => simp [Computes, exactResult, Cell.toInt]
      | mul => simp [Computes, exactResult, Cell.toInt]
      | div => by_cases h0 : v = 0 <;> simp [Computes, exactResult, Cell.toInt, h0]
    · next hc =>
      have hcomputes : ¬Computes op c := by
        unfold Computes
        split
        · next n => exact absurd rfl (hc n)
        · exact hrep
      rw [if_neg hcomputes]

/-- A value with a result that fits. -/
theorem buildInt_of_fits (hv : InInt32 v)
    (h : Computes op c → ∃ m, exactResult op v (Cell.toInt c) = some m ∧ InInt32 m) :
    buildInt op v c = some (exactCell op v c) := by
  rw [buildInt_eq hv, exactCell]
  split
  · next hc =>
    obtain ⟨m, hm, h32⟩ := h hc
    simp [hm, int32_of_inInt32 h32]
  · rfl

/-- A value without a result, or with one that does not fit. -/
theorem buildInt_of_not_fits (hv : InInt32 v)
    (h : ¬(Computes op c → ∃ m, exactResult op v (Cell.toInt c) = some m ∧ InInt32 m)) :
    buildInt op v c = none := by
  obtain ⟨hc, hm⟩ := Classical.not_imp.mp h
  rw [buildInt_eq hv, if_pos hc]
  cases hresult : exactResult op v (Cell.toInt c) with
  | none => rfl
  | some m =>
    have h32 : ¬InInt32 m := fun h32 ↦ hm ⟨m, hresult, h32⟩
    simp [int32, h32]

theorem exactCell_iff (hv : Computes op c → denoted text = some v)
    (h : Computes op c → ∃ m, exactResult op v (Cell.toInt c) = some m ∧ InInt32 m) {c' : Cell σ} :
    ExactCell op text c c' ↔ c' = exactCell op v c := by
  unfold ExactCell exactCell
  split
  · next hc =>
    obtain ⟨m, hm, h32⟩ := h hc
    constructor
    · rintro ⟨v', m', hv', hm', -, rfl⟩
      obtain rfl := Option.some.inj ((hv hc).symm.trans hv')
      rw [hm', Option.getD_some]
    · rintro rfl
      exact ⟨v, m, hv hc, hm, h32, by rw [hm, Option.getD_some]⟩
  · rfl

/-- A whole operand is the number that is read. -/
theorem denoted_of_ne_none (hstoi : stoi text = some v) (h : denoted text ≠ none) :
    denoted text = some v := by
  obtain ⟨v', hv'⟩ := Option.ne_none_iff_exists'.mp h
  have h32 := (stoi_of_denoted hv').symm.trans hstoi
  rw [int32_of_inInt32 (by unfold int32 at h32; split at h32 <;> [assumption; cases h32])] at h32
  rw [hv', h32]

/-! ## Columns -/

theorem forall₂_eq_map {α β : Type} {f : α → β} {l : List α} {l' : List β} :
    List.Forall₂ (fun a b ↦ b = f a) l l' ↔ l' = l.map f := by
  induction l generalizing l' with
  | nil => simp
  | cons a l ih => cases l' <;> simp [ih]

theorem forall₂_congr_mem {α β : Type} {R S : α → β → Prop} {l : List α} {l' : List β}
    (h : ∀ a ∈ l, ∀ b, R a b ↔ S a b) : List.Forall₂ R l l' ↔ List.Forall₂ S l l' := by
  induction l generalizing l' with
  | nil => simp
  | cons a l ih =>
    simp only [List.forall₂_cons_left_iff, h a List.mem_cons_self,
      ih fun a ha ↦ h a (List.mem_cons_of_mem _ ha)]

theorem toOption_eq_some {ε α : Type} {x : Except ε α} {a : α} :
    x.toOption = some a ↔ x = .ok a := by
  cases x <;> simp [Except.toOption]

section Columns

variable {float : FloatOp} {columns : List Field} {rows rows' : List (FullRow σ)} {i : ℕ}
  {ref : ByteString × ByteString}

/-- The results of a column, if they all exist and fit. -/
theorem buildIntCol_of_fits (hv : InInt32 v)
    (h : ∀ c ∈ rows.map (·.cell i), Computes op c →
      ∃ m, exactResult op v (Cell.toInt c) = some m ∧ InInt32 m) :
    buildIntCol op v i rows = .ok (rows.map fun r ↦ r.setCell i (exactCell op v (r.cell i))) := by
  have hrows : (rows.mapM fun r ↦ (buildInt op v (r.cell i)).map (r.setCell i)) =
      some (rows.map fun r ↦ r.setCell i (exactCell op v (r.cell i))) := by
    induction rows with
    | nil => rfl
    | cons r rows ih =>
      have hr := buildInt_of_fits hv (h (r.cell i) (by simp))
      have ih := ih fun c hc ↦ h c (List.mem_cons_of_mem _ hc)
      simp [hr, ih]
  rw [buildIntCol, hrows]
  rfl

theorem buildIntCol_of_not_fits (hv : InInt32 v)
    (h : ¬∀ c ∈ rows.map (·.cell i), Computes op c →
      ∃ m, exactResult op v (Cell.toInt c) = some m ∧ InInt32 m) :
    buildIntCol op v i rows = .error .undefined := by
  have hrows : (rows.mapM fun r ↦ (buildInt op v (r.cell i)).map (r.setCell i)) = none := by
    induction rows with
    | nil => exact absurd (fun _ hc ↦ nomatch hc) h
    | cons r rows ih =>
      by_cases hr : Computes op (r.cell i) →
          ∃ m, exactResult op v (Cell.toInt (r.cell i)) = some m ∧ InInt32 m
      · have ih := ih fun hall ↦ h fun c hc ↦ (List.mem_cons.mp hc).elim (· ▸ hr) (hall c)
        simp [buildInt_of_fits hv hr, ih]
      · simp [buildInt_of_not_fits hv hr]
  rw [buildIntCol, hrows]
  rfl

/-- A pair whose column needs no check; a string column may throw. -/
theorem updateColumn_of_answers
    (h : ∀ i, findColumn columns ref.1 = some (i, .int32) →
      Answers op ref.2 (rows.map (·.cell i))) :
    updateColumn float columns op rows ref =
      Fault.float.orElse (exactColumn float columns op rows ref) := by
  unfold updateColumn exactColumn
  cases hfind : findColumn columns ref.1 with
  | none => rfl
  | some column =>
    obtain ⟨i, type⟩ := column
    cases type
    case string =>
      simp only [buildStringCol, toOption_orElse]
    case int32 =>
      obtain ⟨v, hstoi, hfits⟩ := h i hfind
      simp only [hstoi]
      exact buildIntCol_of_fits (stoi_inInt32 hstoi) hfits
    all_goals rfl

/-- A pair whose column has no exact results. -/
theorem updateColumn_of_not_answers
    (h : ¬∀ i, findColumn columns ref.1 = some (i, .int32) →
      Answers op ref.2 (rows.map (·.cell i))) :
    ∃ fault ≠ Fault.float, updateColumn float columns op rows ref = .error fault := by
  obtain ⟨i, h⟩ := not_forall.mp h
  obtain ⟨hfind, hnot⟩ := Classical.not_imp.mp h
  simp only [updateColumn, hfind]
  cases hstoi : stoi ref.2 with
  | none => exact ⟨.operand, nofun, rfl⟩
  | some v =>
    have hfits := fun hfits ↦ hnot ⟨v, hstoi, hfits⟩
    exact ⟨.undefined, nofun, buildIntCol_of_not_fits (stoi_inInt32 hstoi) hfits⟩

/-- The exact results of an integer column are those for the operand that is read, if it is not
cut off. -/
theorem exactRows_iff (hstoi : stoi text = some v)
    (hfits : ∀ c ∈ rows.map (·.cell i), Computes op c →
      ∃ m, exactResult op v (Cell.toInt c) = some m ∧ InInt32 m) :
    List.Forall₂ (fun r r' ↦ ∃ c, ExactCell op text (r.cell i) c ∧ r' = r.setCell i c) rows rows' ↔
      rows' = (rows.map fun r ↦ r.setCell i (exactCell op v (r.cell i))) ∧
        Whole op text (rows.map (·.cell i)) := by
  have hrow : Whole op text (rows.map (·.cell i)) → ∀ r ∈ rows, ∀ r' : FullRow σ,
      (∃ c, ExactCell op text (r.cell i) c ∧ r' = r.setCell i c) ↔
        r' = r.setCell i (exactCell op v (r.cell i)) := by
    intro hwhole r hr r'
    have hmem : r.cell i ∈ rows.map (·.cell i) := List.mem_map_of_mem hr
    simp only [exactCell_iff (fun hc ↦ denoted_of_ne_none hstoi (hwhole ⟨_, hmem, hc⟩))
      (hfits _ hmem), exists_eq_left]
  constructor
  · intro h
    have hwhole : Whole op text (rows.map (·.cell i)) := by
      rintro ⟨c, hc, hcomputes⟩
      obtain ⟨r, hr, rfl⟩ := List.mem_map.mp hc
      obtain ⟨r', -, c', hexact, -⟩ := List.Forall₂.exists_right h hr
      rw [ExactCell, if_pos hcomputes] at hexact
      obtain ⟨v', m, hv', -⟩ := hexact
      rw [hv']
      exact nofun
    exact ⟨forall₂_eq_map.mp ((forall₂_congr_mem (hrow hwhole)).mp h), hwhole⟩
  · rintro ⟨hrows, hwhole⟩
    exact (forall₂_congr_mem (hrow hwhole)).mpr (forall₂_eq_map.mpr hrows)

/-- **The exact results** are those for the operand that is read, if none is cut off. -/
theorem exactColumn_iff
    (h : ∀ i, findColumn columns ref.1 = some (i, .int32) →
      Answers op ref.2 (rows.map (·.cell i))) :
    ExactColumn float columns op ref rows rows' ↔
      exactColumn float columns op rows ref = some rows' ∧
        ∀ i, findColumn columns ref.1 = some (i, .int32) →
          Whole op ref.2 (rows.map (·.cell i)) := by
  unfold ExactColumn exactColumn
  cases hfind : findColumn columns ref.1 with
  | none => simp [eq_comm]
  | some column =>
    obtain ⟨i, type⟩ := column
    cases type
    case string => simp [toOption_eq_some]
    case int32 =>
      obtain ⟨v, hstoi, hfits⟩ := h i hfind
      simp [exactRows_iff hstoi hfits, hstoi, eq_comm]
    all_goals simp [eq_comm]

end Columns

/-! ## All pairs -/

section Pairs

variable {float : FloatOp} {columns : List Field} {values : UpdateValues}
  {rows rows' : List (FullRow σ)}

/-- The arithmetic of the step, if no column needs a check. -/
theorem updateColumns_of_answers (h : EachColumn (Answers op) float columns op values rows) :
    updateColumns float columns op values rows =
      Fault.float.orElse (values.foldlM (exactColumn float columns op) rows) := by
  induction values generalizing rows with
  | nil => rfl
  | cons ref values ih =>
    rw [updateColumns, List.foldlM_cons, List.foldlM_cons, updateColumn_of_answers h.1]
    cases hcolumn : exactColumn float columns op rows ref with
    | none => rfl
    | some mid => exact ih (h.2 mid hcolumn)

theorem updateColumns_of_not_answers
    (h : ¬EachColumn (Answers op) float columns op values rows) :
    ∃ fault ≠ Fault.float, updateColumns float columns op values rows = .error fault := by
  induction values generalizing rows with
  | nil => exact absurd trivial h
  | cons ref values ih =>
    rw [updateColumns, List.foldlM_cons]
    by_cases hfirst : ∀ i, findColumn columns ref.1 = some (i, .int32) →
        Answers op ref.2 (rows.map (·.cell i))
    · obtain ⟨mid, hrest⟩ := not_forall.mp fun hrest ↦ h ⟨hfirst, hrest⟩
      obtain ⟨hmid, hrest⟩ := Classical.not_imp.mp hrest
      obtain ⟨fault, hne, hfault⟩ := ih hrest
      refine ⟨fault, hne, ?_⟩
      rw [updateColumn_of_answers hfirst, hmid]
      exact hfault
    · obtain ⟨fault, hne, hfault⟩ := updateColumn_of_not_answers hfirst
      exact ⟨fault, hne, by rw [hfault]; rfl⟩

/-- The exact results of an update are those for the operands that are read, if none is cut off. -/
theorem exactUpdate_iff (h : EachColumn (Answers op) float columns op values rows) :
    ExactUpdate float columns op values rows rows' ↔
      values.foldlM (exactColumn float columns op) rows = some rows' ∧
        EachColumn (Whole op) float columns op values rows := by
  induction values generalizing rows with
  | nil => simp [ExactUpdate, EachColumn, eq_comm]
  | cons ref values ih =>
    simp only [ExactUpdate, EachColumn, List.foldlM_cons, exactColumn_iff h.1]
    cases hcolumn : exactColumn float columns op rows ref with
    | none => simp
    | some mid =>
      have ih := ih (h.2 mid hcolumn)
      simp only [Option.some.injEq, Option.bind_eq_bind, Option.bind_some, forall_eq']
      constructor
      · rintro ⟨_, ⟨rfl, hwhole⟩, hexact⟩
        obtain ⟨hrows, hrest⟩ := ih.mp hexact
        exact ⟨hrows, hwhole, hrest⟩
      · rintro ⟨hrows, hwhole, hrest⟩
        exact ⟨mid, ⟨rfl, hwhole⟩, ih.mpr ⟨hrows, hrest⟩⟩

end Pairs

/-! ## Writing and removing -/

section Files

variable {out : Outside σ ρ} {st : State σ ρ} {rows : DataTable σ ρ}

theorem tryWrite_of_canWrite (h : st.CanWrite out rows) :
    ∃ rows', st.tryWrite out rows = (true, st.create out rows') := by
  obtain ⟨⟨rows', hconform⟩, hwrite⟩ := h
  refine ⟨rows', ?_⟩
  simp only [State.tryWrite, hconform]
  exact if_pos hwrite

/-- Rows that are not written leave the table as it was. -/
theorem tryWrite_of_not_canWrite (h : ¬st.CanWrite out rows) :
    (st.tryWrite out rows).1 = false ∧ (st.tryWrite out rows).2.table = st.table := by
  unfold State.tryWrite
  cases hconform : out.conform rows with
  | none => exact ⟨rfl, rfl⟩
  | some rows' =>
    have hwrite : ¬out.canWrite (st.newDataFilePath out st.asked) = true :=
      fun hwrite ↦ h ⟨⟨rows', hconform⟩, hwrite⟩
    simp only [if_neg hwrite, and_self]

theorem retireFound_fst (out : Outside σ ρ) (files : List (KeyFile σ ρ))
    (retired : List ByteString) (st : State σ ρ) :
    (retireFound out files retired st).1 = (removeLoop out (unretired retired files) st).1 := by
  induction files generalizing retired st with
  | nil => rfl
  | cons f files ih =>
    unfold retireFound unretired
    split
    · exact ih retired st
    · rw [removeLoop]
      cases hf : removeKeyRows out st f with
      | mk ok st' =>
        cases ok with
        | true => exact ih _ st'
        | false => rfl

/-- A created file stays in `created_files`. -/
def Created (st : State σ ρ) (path : ByteString) : Prop :=
  st.table.createdFiles.lookup path ≠ none

theorem created_modify {path p : ByteString} {f : FileStats → FileStats}
    {l : List (ByteString × FileStats)} (h : l.lookup p ≠ none) :
    (AssocList.modify l path f).lookup p ≠ none := by
  rw [AssocList.lookup_modify]
  split
  · next hp => simpa [hp] using h
  · exact h

theorem created_insertOrAssign {path p : ByteString} {v : FileStats}
    {l : List (ByteString × FileStats)} (h : l.lookup p ≠ none) :
    (AssocList.insertOrAssign l path v).lookup p ≠ none := by
  rw [AssocList.lookup_insertOrAssign]
  split
  · exact nofun
  · exact h

theorem Created.removeKeyRows {p : ByteString} (out : Outside σ ρ) (h : Created st p)
    (f : KeyFile σ ρ) :
    Created (removeKeyRows out st f).2 p := by
  rcases removeKeyRows_cases out st f with ⟨-, hf⟩ | ⟨-, rest, -, -, hf⟩ | ⟨-, asked, hf⟩
  · rw [hf]
    exact created_modify h
  · rw [hf]
    exact created_modify (created_insertOrAssign h)
  · rw [hf]
    exact h

theorem Created.retireFound {p : ByteString} (out : Outside σ ρ) (h : Created st p)
    (files : List (KeyFile σ ρ)) (retired : List ByteString) :
    Created (retireFound out files retired st).2.2 p := by
  induction files generalizing retired st with
  | nil => exact h
  | cons f files ih =>
    unfold Keys.retireFound
    split
    · exact ih h retired
    · have hstep := h.removeKeyRows out f
      cases hf : Keys.removeKeyRows out st f with
      | mk ok st' =>
        rw [hf] at hstep
        cases ok with
        | true => exact ih hstep _
        | false => exact hstep

theorem created_create (out : Outside σ ρ) (st : State σ ρ) (rows : DataTable σ ρ) :
    Created (st.create out rows) (st.newDataFilePath out st.asked) := by
  unfold Created State.create TableStats.registerCreatedFile
  simp [TableStats.noteCreated, TableStats.logCreated, AssocList.lookup_insertOrAssign,
    State.createdStats]

end Files

/-! ## The step -/

section Step

variable {ctx : RedoContext σ} {columns : List Field} {r : Redo σ} {rows : List (FullRow σ)}

/-- Rows that are not written leave the files as they were. -/
theorem replaceRows_of_not_canWrite (h : ¬r.state.CanWrite ctx.out ⟨[rows]⟩) :
    ∃ r', r.replaceRows ctx rows = (false, r') ∧ r'.state.table = r.state.table := by
  obtain ⟨hok, htable⟩ := tryWrite_of_not_canWrite h
  cases htry : r.state.tryWrite ctx.out ⟨[rows]⟩ with
  | mk ok st =>
    rw [htry] at hok htable
    subst hok
    exact ⟨{ r with state := st }, by simp only [Redo.replaceRows, htry], htable⟩

/-- Once the rows are written, the step returns true unless a found file cannot be rewritten; then
there is a new file. -/
theorem replaceRows_of_canWrite (h : r.state.CanWrite ctx.out ⟨[rows]⟩) :
    ((r.replaceRows ctx rows).1 = false ↔ r.Stuck ctx) ∧
      Created (r.replaceRows ctx rows).2.state
        (r.state.newDataFilePath ctx.out r.state.asked) := by
  obtain ⟨rows', htry⟩ := tryWrite_of_canWrite h
  have hcreated := (created_create ctx.out r.state rows').retireFound ctx.out r.foundFiles
    r.retiredFiles
  have hfst := retireFound_fst ctx.out r.foundFiles r.retiredFiles (r.state.create ctx.out rows')
  simp only [Redo.replaceRows, htry]
  refine ⟨?_, hcreated⟩
  rw [hfst, removeLoop_fst]
  rfl

/-- The step on rows of the key that are there. -/
theorem exactOrRefused_of_rows {values : UpdateValues} {op : UpdateOperation}
    {rows : DataTable σ (List (Cell σ))} {index : ℕ}
    (hvalues : ctx.updateVals[index]? = some values)
    (hop : ctx.updateOps[index]? = some op) (hrows : keyRows r.foundFiles = some rows)
    (hnew : r.state.table.createdFiles.lookup
      (r.state.newDataFilePath ctx.out r.state.asked) = none) :
    r.ExactOrRefused ctx columns index ↔
      EachColumn (Answers op) ctx.float columns op values rows.rows ∧
      ∀ rows', values.foldlM (exactColumn ctx.float columns op) rows.rows = some rows' →
        r.state.CanWrite ctx.out ⟨[rows']⟩ →
        EachColumn (Whole op) ctx.float columns op values rows.rows ∧ ¬r.Stuck ctx := by
  have hupdate : r.update ctx columns index =
      (updateColumns ctx.float columns op values rows.rows).map (r.replaceRows ctx) := by
    simp only [Redo.update, hvalues, hop, hrows]
    cases updateColumns ctx.float columns op values rows.rows <;> rfl
  unfold Redo.ExactOrRefused
  rw [hupdate]
  by_cases hanswers : EachColumn (Answers op) ctx.float columns op values rows.rows
  · rw [updateColumns_of_answers hanswers]
    cases hexact : values.foldlM (exactColumn ctx.float columns op) rows.rows with
    | none => exact iff_of_true rfl ⟨hanswers, by simp⟩
    | some rows' =>
      simp only [Fault.orElse, Except.map, Option.some.injEq, forall_eq', hanswers, true_and]
      by_cases hwrite : r.state.CanWrite ctx.out ⟨[rows']⟩
      · obtain ⟨hstuck, hcreated⟩ := replaceRows_of_canWrite hwrite
        cases hreplace : r.replaceRows ctx rows' with
        | mk ok r' =>
          rw [hreplace] at hstuck hcreated
          cases ok with
          | false =>
            refine iff_of_false (fun h ↦ hcreated ?_) fun h ↦ (h hwrite).2 (hstuck.mp rfl)
            rw [h.1, hnew]
          | true =>
            have hnot : ¬r.Stuck ctx := fun h ↦ Bool.true_eq_false_eq_False (hstuck.mpr h)
            constructor
            · rintro ⟨values', op', rows₀, rows₁, hvalues', hop', hrows', hupdated, -⟩ -
              obtain rfl := Option.some.inj (hvalues.symm.trans hvalues')
              obtain rfl := Option.some.inj (hop.symm.trans hop')
              obtain rfl := Option.some.inj (hrows.symm.trans hrows')
              exact ⟨((exactUpdate_iff hanswers).mp hupdated).2, hnot⟩
            · intro h
              exact ⟨values, op, rows, rows', hvalues, hop, hrows,
                (exactUpdate_iff hanswers).mpr ⟨hexact, (h hwrite).1⟩, hreplace⟩
      · obtain ⟨r', hreplace, htable⟩ := replaceRows_of_not_canWrite hwrite
        rw [hreplace]
        exact iff_of_true ⟨by rw [htable], by rw [htable]⟩ fun h ↦ absurd h hwrite
  · obtain ⟨fault, hne, hfault⟩ := updateColumns_of_not_answers hanswers
    rw [hfault]
    exact iff_of_false hne fun h ↦ hanswers h.1

/-- **Redo arithmetic.** The step is exact or refused if and only if no check is missed. -/
theorem redo_arithmetic_iff (ctx : RedoContext σ) (columns : List Field) (r : Redo σ) (index : ℕ)
    (hnew : r.state.table.createdFiles.lookup
      (r.state.newDataFilePath ctx.out r.state.asked) = none) :
    r.ExactOrRefused ctx columns index ↔ r.NeedsNoCheck ctx columns index := by
  by_cases h : ∃ values op rows, ctx.updateVals[index]? = some values ∧
      ctx.updateOps[index]? = some op ∧ keyRows r.foundFiles = some rows
  · obtain ⟨values, op, rows, hvalues, hop, hrows⟩ := h
    rw [exactOrRefused_of_rows hvalues hop hrows hnew]
    refine ⟨fun h values' op' rows' hvalues' hop' hrows' ↦ ?_,
      fun h ↦ h values op rows hvalues hop hrows⟩
    obtain rfl := Option.some.inj (hvalues.symm.trans hvalues')
    obtain rfl := Option.some.inj (hop.symm.trans hop')
    obtain rfl := Option.some.inj (hrows.symm.trans hrows')
    exact h
  · have hupdate : r.update ctx columns index = .ok (false, r) := by
      simp only [Redo.update]
      cases hvalues : ctx.updateVals[index]? with
      | none => cases ctx.updateOps[index]? <;> rfl
      | some values =>
        cases hop : ctx.updateOps[index]? with
        | none => rfl
        | some op =>
          cases hrows : keyRows r.foundFiles with
          | none => rfl
          | some rows => exact absurd ⟨values, op, rows, hvalues, hop, hrows⟩ h
    unfold Redo.ExactOrRefused
    rw [hupdate]
    exact iff_of_true ⟨rfl, rfl⟩ fun values op rows hvalues hop hrows ↦
      absurd ⟨values, op, rows, hvalues, hop, hrows⟩ h

end Step

/-! ## A row with an integer -/

/-- Storage that answers, and one update of the column `n`. -/
def integerContext (op : UpdateOperation) (operand : ByteString) : RedoContext Unit where
  out :=
    { arrow := sampleArrow
      conform := some
      statistics := fun _ ↦ {}
      encodedSize := fun _ ↦ 4
      newName := fun n ↦ ascii "n" ++ decimal n
      canRead := fun _ ↦ true
      canWrite := fun _ ↦ true }
  float _ _ _ := none
  updateVals := [[(ascii "n", operand)]]
  updateOps := [op]

def integerColumns : List Field :=
  [{ name := ascii "k", type := .string }, { name := ascii "n", type := .int32 }]

/-- A file was found whose only row is the key's, with the integer `n`. -/
def foundInteger (n : ℤ) : Redo Unit where
  state :=
    { table :=
        { deltaLog := { basePath := ascii "b/", files := [], nodup := List.nodup_nil }
          schema := .ok (some { fields := integerColumns }) }
      stored := fun _ ↦ none }
  foundFiles :=
    [{ path := ascii "b/f"
       data := some ⟨[[⟨some (.text (ascii "a")), [some (.number n)]⟩]]⟩
       rows := [0] }]

/-- `37 + 5` -/
theorem redo_arithmetic_sample :
    (foundInteger 37).ExactOrRefused (integerContext .add (ascii "5")) integerColumns 0 := by
  refine (redo_arithmetic_iff _ _ _ _ rfl).mpr fun values op rows hvalues hop hrows ↦ ?_
  obtain rfl := Option.some.inj hvalues
  obtain rfl := Option.some.inj hop
  obtain rfl := Option.some.inj hrows
  have hcolumn : findColumn integerColumns (ascii "n") = some (1, .int32) := by decide +kernel
  refine ⟨⟨fun i hi ↦ ?_, fun _ _ ↦ trivial⟩,
    fun _ _ _ ↦ ⟨⟨fun i hi _ ↦ ?_, fun _ _ ↦ trivial⟩, ?_⟩⟩
  · obtain rfl : 1 = i := (Prod.mk.inj (Option.some.inj (hcolumn.symm.trans hi))).1
    refine ⟨5, by decide +kernel, fun c hc _ ↦ ?_⟩
    obtain rfl := List.mem_singleton.mp hc
    exact ⟨42, rfl, by decide⟩
  · decide +kernel
  · rintro ⟨i, f, hf, hcannot⟩
    obtain rfl := List.mem_singleton.mp (List.mem_of_getElem? hf)
    cases hcannot.1

theorem not_exactOrRefused {ctx : RedoContext σ} {columns : List Field} {r : Redo σ} {index : ℕ}
    (fault : Fault) (h : r.update ctx columns index = .error fault) (hne : fault ≠ .float) :
    ¬r.ExactOrRefused ctx columns index := by
  unfold Redo.ExactOrRefused
  rw [h]
  exact hne

/-- The greatest integer and one more; a division by zero; an operand that is no number; and an
operand that is cut off. -/
theorem integers_not_checked :
    ¬(foundInteger 2147483647).ExactOrRefused (integerContext .add (ascii "1")) integerColumns 0 ∧
    ¬(foundInteger 1).ExactOrRefused (integerContext .div (ascii "0")) integerColumns 0 ∧
    ¬(foundInteger 1).ExactOrRefused (integerContext .mul (ascii "abc")) integerColumns 0 ∧
    ¬(foundInteger 1).ExactOrRefused (integerContext .add (ascii "3.7")) integerColumns 0 := by
  refine ⟨not_exactOrRefused .undefined rfl nofun,
    not_exactOrRefused .undefined rfl nofun,
    not_exactOrRefused .operand rfl nofun, fun h ↦ ?_⟩
  have h := ((exactOrRefused_of_rows rfl rfl rfl rfl).mp h).2 _ rfl ⟨⟨_, rfl⟩, rfl⟩
  have hwhole : Whole .add (ascii "3.7") [(some (.number 1) : Cell Unit)] := h.1.1 1 rfl
  exact hwhole ⟨_, List.mem_singleton.mpr rfl, nofun⟩ (by decide +kernel)

end LakeVilla.Keys

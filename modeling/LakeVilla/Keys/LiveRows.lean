import LakeVilla.Guarantees.KeyLookup
import LakeVilla.Keys.Removal
import Mathlib.Algebra.Order.BigOperators.Group.List
import Mathlib.Data.Multiset.OrderedMonoid

/-!
# The rows of a snapshot

The live rows as a multiset: what the registrations of files and the removal of a key do to them,
entry by entry of the snapshot.
-/

namespace LakeVilla.Keys

variable {σ ρ : Type}

/-! ## Registrations -/

section Registrations

variable {content content' : ByteString → DataTable σ ρ} {log : DeltaLogManager}
  {p path : ByteString} {entry : DeltaLogEntry} {overwrite : Bool}

/-- The live rows of an entry. -/
def entryRows (content : ByteString → DataTable σ ρ) (base : ByteString)
    (e : ByteString × DeltaLogEntry) : Multiset (Row σ ρ) :=
  if e.2.operation = .add then ↑(content (base ++ e.1)).rows else 0

theorem coe_flatMap {α β : Type} (f : α → List β) (l : List α) :
    (↑(l.flatMap f) : Multiset β) = (l.map fun a ↦ (↑(f a) : Multiset β)).sum := by
  induction l with
  | nil => rfl
  | cons a l ih => rw [List.flatMap_cons, ← Multiset.coe_add, ih, List.map_cons, List.sum_cons]

theorem coe_liveRows (log : DeltaLogManager) (content : ByteString → DataTable σ ρ) :
    (↑(log.liveRows content) : Multiset (Row σ ρ)) =
      (log.files.map (entryRows content log.basePath)).sum := by
  rw [DeltaLogManager.liveRows, coe_flatMap]
  congr 1
  apply List.map_congr_left
  intro e he
  rw [entryRows]
  split <;> rfl

theorem liveRows_congr
    (h : ∀ q e, log.Live q e → content (log.basePath ++ q) = content' (log.basePath ++ q)) :
    log.liveRows content = log.liveRows content' := by
  apply List.flatMap_congr
  intro e he
  split
  · next hadd => rw [h e.1 e.2 ⟨he, hadd⟩]
  · rfl

/-- A new file adds its rows. -/
theorem liveRows_registerAdd (h : log.files.lookup p = none) (hadd : entry.operation = .add)
    (hpath : path = log.basePath ++ p) :
    (↑((log.registerOperation .add path entry overwrite).liveRows content) : Multiset (Row σ ρ)) =
      ↑(log.liveRows content) + ↑(content path).rows := by
  subst hpath
  rw [coe_liveRows, coe_liveRows]
  simp only [DeltaLogManager.registerOperation, DeltaLogManager.relative_append, h]
  rw [AssocList.sum_insertOrAssign_of_none _ h, entryRows, if_pos hadd]

/-- Removing a file removes its rows. -/
theorem liveRows_registerDelete {e : DeltaLogEntry} (h : log.Live p e)
    (hpath : path = log.basePath ++ p) :
    (↑((log.registerOperation .delete path entry false).liveRows content) : Multiset (Row σ ρ)) +
      ↑(content path).rows = ↑(log.liveRows content) := by
  subst hpath
  obtain ⟨hlookup, hadd⟩ := DeltaLogManager.live_iff_lookup.mp h
  have hsum := AssocList.sum_insertOrAssign_of_some (entryRows content log.basePath) hlookup
    { e with operation := .delete }
  rw [coe_liveRows, coe_liveRows]
  simp only [DeltaLogManager.registerOperation, DeltaLogManager.relative_append, hlookup,
    e.update_delete hadd]
  rw [entryRows, if_pos hadd, entryRows, if_neg (by simp), add_zero] at hsum
  exact hsum

end Registrations

/-! ## Removed keys -/

/-- The rows of a found file that `remove_key_rows` keeps. -/
def KeyFile.keptRows (f : KeyFile σ ρ) : List (Row σ ρ) :=
  if f.allRows then []
  else
    match f.data with
    | some data => (selectRows data (otherRows data.numRows f.rows)).rows
    | none => []

/-- What a removal of a key is to keep of a file: all other rows if it is live, and all rows if the
update `prev` itself wrote it. -/
def survivorsAt (arrow : Arrow σ) (c : KeyColumn) (key : ByteString)
    (created : List (ByteString × FileStats)) (prev : Option ℕ) (path : ByteString)
    (data : DataTable σ ρ) (e : DeltaLogEntry) : List (Row σ ρ) :=
  if e.operation ≠ .add then []
  else if skipped created prev path then data.rows
  else data.rows.filter fun r ↦ ¬r.HasKey arrow c key

def TableStats.survivors (arrow : Arrow σ) (c : KeyColumn) (key : ByteString) (prev : Option ℕ)
    (content : ByteString → DataTable σ ρ) (tbl : TableStats) : List (Row σ ρ) :=
  tbl.deltaLog.files.flatMap fun e ↦
    survivorsAt arrow c key tbl.createdFiles prev (tbl.deltaLog.basePath ++ e.1)
      (content (tbl.deltaLog.basePath ++ e.1)) e.2

/-- The other rows of files that are dropped without being read. -/
def lostAt (arrow : Arrow σ) (c : KeyColumn) (key : ByteString)
    (created : List (ByteString × FileStats)) (prev : Option ℕ) (path : ByteString)
    (data : DataTable σ ρ) (e : DeltaLogEntry) : List (Row σ ρ) :=
  if e.operation = .add ∧ skipped created prev path = false ∧ classifyEntry arrow c key e = .exact then
    data.rows.filter fun r ↦ ¬r.HasKey arrow c key
  else []

/-- What is lost. -/
def TableStats.lostRows (arrow : Arrow σ) (c : KeyColumn) (key : ByteString) (prev : Option ℕ)
    (content : ByteString → DataTable σ ρ) (tbl : TableStats) : List (Row σ ρ) :=
  tbl.deltaLog.files.flatMap fun e ↦
    lostAt arrow c key tbl.createdFiles prev (tbl.deltaLog.basePath ++ e.1)
      (content (tbl.deltaLog.basePath ++ e.1)) e.2

section Entry

variable {arrow : Arrow σ} {c : KeyColumn} {key path : ByteString} {data : DataTable σ ρ}
  {e : DeltaLogEntry} {m : KeyMatcher σ} {created : List (ByteString × FileStats)}
  {prev : Option ℕ}

theorem keptRows_of_read {rows : List ℕ} (hrows : rows = m.rowsOf arrow data.chunks 0) :
    KeyFile.keptRows { path := path, data := some data, rows := rows, exact := false } =
      data.rows.filter fun r ↦ !r.matches arrow m := by
  subst hrows
  have hsplit := List.length_eq_length_filter_add (l := data.rows) (·.matches arrow m)
  simp only [KeyFile.keptRows, KeyFile.allRows, Bool.false_or, rowsOf_length, selectRows_otherRows,
    decide_eq_true_eq]
  split
  · next hall =>
    rw [DataTable.numRows] at hall
    exact (List.eq_nil_of_length_eq_zero (by omega)).symm
  · rfl

/-- The rows of a file, and what is done to them: what is kept of it and what survives in it. -/
theorem keyFileAt_balance (h : e.operation = .add → ValidFile arrow c data e) :
    (if e.operation = .add then (↑data.rows : Multiset (Row σ ρ)) else 0) +
        ((keyFileAt arrow c key false created prev path data e).toList.map fun f ↦
          (↑f.keptRows : Multiset (Row σ ρ))).sum +
        ↑(lostAt arrow c key created prev path data e) =
      ↑(survivorsAt arrow c key created prev path data e) +
        ((keyFileAt arrow c key false created prev path data e).toList.map fun _ ↦
          (↑data.rows : Multiset (Row σ ρ))).sum := by
  by_cases hadd : e.operation = .add
  · have hvalid := h hadd
    cases hskip : skipped created prev path with
    | true => simp [keyFileAt, lostAt, survivorsAt, hadd, hskip]
    | false =>
      by_cases hnone : classifyEntry arrow c key e = .none
      · have hkeep : (data.rows.filter fun r ↦ ¬r.HasKey arrow c key) = data.rows :=
          List.filter_eq_self.mpr fun r hr ↦ decide_eq_true fun hkey ↦
            hvalid.classify_ne_none hr hkey hnone
        have hsurvive : survivorsAt arrow c key created prev path data e = data.rows := by
          rw [survivorsAt, if_neg (not_not.mpr hadd), hskip]
          exact hkeep
        simp [keyFileAt, lostAt, hsurvive, hadd, hskip, hnone]
      by_cases hexact : classifyEntry arrow c key e = .exact
      · have hfile : keyFileAt arrow c key false created prev path data e =
            some { path := path, exact := true } := by
          rw [keyFileAt, if_pos ⟨hadd, hskip, hnone⟩, keyFileOf, if_pos ⟨hexact, rfl⟩]
        simp [hfile, lostAt, survivorsAt, hadd, hskip, hexact, KeyFile.keptRows, KeyFile.allRows,
          add_comm]
      · have hlost : lostAt arrow c key created prev path data e = [] :=
          if_neg fun h ↦ hexact h.2.2
        have hsurvive : survivorsAt arrow c key created prev path data e =
            data.rows.filter fun r ↦ !r.matches arrow (KeyMatcher.make arrow c.type key) := by
          rw [survivorsAt, if_neg (not_not.mpr hadd), hskip, hvalid.filter_not_matches hnone]
          rfl
        have hfile : keyFileAt arrow c key false created prev path data e =
            keyFileOf arrow (KeyMatcher.make arrow c.type key) false path
              (classifyEntry arrow c key e) data := if_pos ⟨hadd, hskip, hnone⟩
        rw [hfile, if_pos hadd, hlost, hsurvive, keyFileOf, if_neg fun h ↦ hexact h.1]
        dsimp only
        split
        · next hempty =>
          -- no row of the key: the file stays
          have hlen := rowsOf_length arrow (KeyMatcher.make arrow c.type key) data
          rw [List.isEmpty_iff.mp hempty, List.length_nil] at hlen
          have hall : (data.rows.filter fun r ↦
              !r.matches arrow (KeyMatcher.make arrow c.type key)) = data.rows := by
            have hmatch := List.filter_eq_nil_iff.mp (List.eq_nil_of_length_eq_zero hlen.symm)
            exact List.filter_eq_self.mpr fun r hr ↦ by simpa using hmatch r hr
          rw [hall]
          simp
        · rw [decide_eq_false hexact]
          simp only [Option.toList_some, List.map_cons, List.map_nil, List.sum_cons, List.sum_nil,
            add_zero, Multiset.coe_nil]
          rw [keptRows_of_read rfl, add_comm]
  · simp [keyFileAt, lostAt, survivorsAt, hadd]

/-- What is lost is nothing unless a null is shown as the key. -/
theorem lostAt_eq_nil_iff (hvalid : e.operation = .add → ValidFile arrow c data e) :
    lostAt arrow c key created prev path data e = [] ↔
      (e.operation = .add → skipped created prev path = false →
        ¬NullShownAsKey arrow c key data e) := by
  unfold lostAt
  split
  · next h =>
    obtain ⟨hadd, hskip, hexact⟩ := h
    simp only [hadd, hskip, forall_const]
    obtain ⟨r, hr, hkey⟩ := (hvalid hadd).of_exact hexact
    have hnull : NullShownAsKey arrow c key data e ↔ r.key = none := by
      rw [nullShownAsKey_iff, and_iff_left hexact]
      exact ⟨fun ⟨r', hr', h⟩ ↦ List.singleton_inj.mp (hr'.symm.trans hr) ▸ h, fun h ↦ ⟨r, hr, h⟩⟩
    rw [hr, hnull, List.filter_eq_nil_iff]
    simp only [List.mem_singleton, forall_eq, decide_eq_true_eq, not_not]
    constructor
    · rintro ⟨v, hv, -⟩ hk
      cases hk.symm.trans hv
    · exact fun h ↦ hkey.resolve_left h
  · next h =>
    refine iff_of_true rfl fun hadd hskip hnull ↦ h ⟨hadd, hskip, ?_⟩
    exact (nullShownAsKey_iff.mp hnull).2

end Entry

/-! ### All entries -/

theorem sum_filterMap {α β M : Type*} [AddCommMonoid M] (g : α → Option β) (h : β → M) (l : List α) :
    ((l.filterMap g).map h).sum = (l.map fun a ↦ ((g a).toList.map h).sum).sum := by
  induction l with
  | nil => rfl
  | cons a l ih =>
    rw [List.filterMap_cons, List.map_cons, List.sum_cons, ← ih]
    cases g a <;> simp

section Snapshot

variable {arrow : Arrow σ} {c : KeyColumn} {key : ByteString} {prev : Option ℕ}
  {content : ByteString → DataTable σ ρ} {tbl : TableStats} {files : List (KeyFile σ ρ)}

/-- What is done to the rows of a snapshot whose files of a key are removed. -/
theorem liveRows_balance (hvalid : tbl.Valid arrow c content)
    (hfiles : files = tbl.deltaLog.files.filterMap fun e ↦
      keyFileAt arrow c key false tbl.createdFiles prev (tbl.deltaLog.basePath ++ e.1)
        (content (tbl.deltaLog.basePath ++ e.1)) e.2) :
    ↑(tbl.deltaLog.liveRows content) +
        (files.map fun f ↦ (↑f.keptRows : Multiset (Row σ ρ))).sum +
        ↑(tbl.lostRows arrow c key prev content) =
      ↑(tbl.survivors arrow c key prev content) +
        (files.map fun f ↦ (↑(content f.path).rows : Multiset (Row σ ρ))).sum := by
  subst hfiles
  rw [coe_liveRows, TableStats.survivors, TableStats.lostRows, coe_flatMap, coe_flatMap,
    sum_filterMap, sum_filterMap, ← List.sum_map_add, ← List.sum_map_add, ← List.sum_map_add]
  congr 1
  apply List.map_congr_left
  intro e he
  have hpath : ∀ f ∈ (keyFileAt arrow c key false tbl.createdFiles prev
      (tbl.deltaLog.basePath ++ e.1) (content (tbl.deltaLog.basePath ++ e.1)) e.2).toList,
      (↑(content f.path).rows : Multiset (Row σ ρ)) =
        ↑(content (tbl.deltaLog.basePath ++ e.1)).rows := by
    intro f hf
    rw [(keyFileAt_eq_some (Option.mem_toList.mp hf)).2]
  rw [List.map_congr_left hpath, entryRows]
  exact keyFileAt_balance fun hadd ↦ hvalid e.1 e.2 ⟨he, hadd⟩

/-- If the update has no files yet, all rows of other keys are to stay. -/
theorem survivors_eq_filter (hprev : ∀ path, skipped tbl.createdFiles prev path = false) :
    tbl.survivors arrow c key prev content =
      (tbl.deltaLog.liveRows content).filter fun r ↦ ¬r.HasKey arrow c key := by
  rw [TableStats.survivors, DeltaLogManager.liveRows, List.filter_flatMap]
  congr 1
  funext e
  rw [survivorsAt, hprev]
  by_cases hadd : e.2.operation = .add
  · rw [if_neg (not_not.mpr hadd), if_pos hadd]
    rfl
  · rw [if_pos hadd, if_neg hadd]
    rfl

theorem lostRows_eq_nil_iff (hvalid : tbl.Valid arrow c content) :
    tbl.lostRows arrow c key prev content = [] ↔ ∀ path e, tbl.deltaLog.Live path e →
      skipped tbl.createdFiles prev (tbl.deltaLog.basePath ++ path) = false →
      ¬NullShownAsKey arrow c key (content (tbl.deltaLog.basePath ++ path)) e := by
  rw [TableStats.lostRows, List.flatMap_eq_nil_iff]
  constructor
  · rintro hnil path e ⟨he, hadd⟩
    exact (lostAt_eq_nil_iff fun hadd ↦ hvalid path e ⟨he, hadd⟩).mp (hnil (path, e) he) hadd
  · rintro hnull ⟨path, e⟩ he
    exact (lostAt_eq_nil_iff fun hadd ↦ hvalid path e ⟨he, hadd⟩).mpr fun hadd ↦
      hnull path e ⟨he, hadd⟩

end Snapshot

end LakeVilla.Keys

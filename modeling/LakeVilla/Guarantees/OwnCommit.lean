import LakeVilla.Guarantees.FailedRemoval
import LakeVilla.Keys.CommitLog

/-!
# A transaction reads what it will commit

Local changes are kept twice: as valid files for the commit and as operations in the snapshot. The
two agree as long as no file that was removed is added again without overwriting: the commit adds
it, but in the snapshot the remove beats the add.
-/

namespace LakeVilla.Keys

open ByteString

variable {σ ρ : Type}

/-! ## Calls -/

/-- `add_file(path, overwrite)`, where `objects` is what `list_objects` returns. -/
def addFilePath (st : State σ ρ) (path : ByteString) (overwrite : Bool)
    (objects : List (ByteString × ℤ)) : Bool × State σ ρ :=
  let logged := st.table.deltaLog.getSize path
  let size :=
    if logged < 0 then objects.foldl (fun size o ↦ if o.1 = path then o.2 else size) logged
    else logged
  if size < 0 then (false, st)
  else
    let stats : FileStats := { path := path, size := size }
    (true, { st with table := st.table.registerCreatedFile stats overwrite })

/-- `add_file(rows)` -/
def addFileRows (out : Outside σ ρ) (st : State σ ρ) (rows : DataTable σ ρ) (prev : Option ℕ) :
    Bool × State σ ρ :=
  match out.conform rows with
  | none => (false, st)
  | some rows =>
    let path := st.newDataFilePath out st.asked
    if out.canWrite path then
      let stats : FileStats :=
        { path := path, size := out.encodedSize rows, updateId := prev,
          stats := out.statistics rows }
      (true,
        { table := st.table.registerCreatedFile stats false
          stored := Function.update st.stored path (some rows)
          asked := st.asked + 1 })
    else (false, { st with asked := st.asked + 1 })

/-- `remove_file(path)` -/
def removeFilePath (st : State σ ρ) (path : ByteString) : Bool × State σ ρ :=
  if path = [] then (false, st)
  else (true, { st with table := st.table.registerDeletedFile path })

/-- A call with explicit logging. -/
inductive Call (σ ρ : Type)
  | addPath (path : ByteString) (overwrite : Bool) (objects : List (ByteString × ℤ))
  | addRows (rows : DataTable σ ρ) (prev : Option ℕ)
  | removePath (path : ByteString)
  | removeKey (key : ByteString) (prev : Option ℕ)

def Call.run (out : Outside σ ρ) (st : State σ ρ) : Call σ ρ → State σ ρ
  | .addPath path overwrite objects => (addFilePath st path overwrite objects).2
  | .addRows rows prev => (addFileRows out st rows prev).2
  | .removePath path => (removeFilePath st path).2
  | .removeKey key prev => (removeFile out true st key prev).state

/-! ## What a transaction reads and commits -/

/-- The snapshot of the versions before a version. -/
structure StartingSnapshot (log : DeltaLogManager) (version : ℤ) : Prop where
  actions : ∀ k e, log.files.lookup k = some e → e.operation = .add ∨ e.operation = .delete
  older : ∀ k e, log.files.lookup k = some e → e.version < version

/-- A transaction before its first change. -/
def State.Unchanged (st : State σ ρ) : Prop :=
  st.table.createdFiles = [] ∧ st.table.deletedFiles = []

/-- The live files of the snapshot are those after the commit. -/
def ReadsItsCommit (start : DeltaLogManager) (version : ℤ) (tbl : TableStats) : Prop :=
  ∀ k, k ∈ tbl.deltaLog.getList ↔ k ∈ (start.replay version tbl.buildCommitLog).getList

/-- A path can be read back from its action. -/
def TableStats.Plain (tbl : TableStats) (path : ByteString) : Prop :=
  path ≠ [] ∧ 0 ∉ tbl.deltaLog.relative path

/-- An add comes into effect in the snapshot and in the commit: without overwriting, the file was
not removed before; with it, it was not removed under another path. -/
def TableStats.MayAdd (tbl : TableStats) (path : ByteString) (overwrite : Bool) : Prop :=
  tbl.Plain path ∧
    if overwrite then ∀ q ∈ validPaths tbl.deletedFiles,
      tbl.deltaLog.relative q = tbl.deltaLog.relative path → q = path
    else ¬tbl.deltaLog.Deleted (tbl.deltaLog.relative path)

/-- The names of new files are not in the snapshot. -/
def State.NewNames (out : Outside σ ρ) (st : State σ ρ) : Prop :=
  ∀ n, st.asked ≤ n → st.table.deltaLog.files.lookup (out.newName n) = none ∧ 0 ∉ out.newName n

/-- What a call must not do. -/
def Call.Proper (out : Outside σ ρ) (st : State σ ρ) : Call σ ρ → Prop
  | .addPath path overwrite _ => st.table.MayAdd path overwrite
  | .addRows _ _ => st.NewNames out
  | .removePath path => 0 ∉ st.table.deltaLog.relative path
  | .removeKey key prev => st.NewNames out ∧
    ∀ files, findKeyFiles out.arrow (st.readDataFile out) st.table key false prev = some files →
      ∀ f ∈ files, 0 ∉ st.table.deltaLog.relative f.path

/-- Runs of proper calls. -/
inductive Calls (out : Outside σ ρ) (st₀ : State σ ρ) : State σ ρ → Prop
  | start : Calls out st₀ st₀
  | step {st : State σ ρ} {c : Call σ ρ} :
      Calls out st₀ st → c.Proper out st → Calls out st₀ (c.run out st)

/-! ## The invariant -/

/-- Snapshot and valid files agree. -/
structure Consistent (start : DeltaLogManager) (tbl : TableStats) : Prop where
  basePath : tbl.deltaLog.basePath = start.basePath
  actions : ∀ k e, tbl.deltaLog.files.lookup k = some e → e.operation = .add ∨ e.operation = .delete
  namedCreated : Named tbl.createdFiles
  namedDeleted : Named tbl.deletedFiles
  plainCreated : ∀ q ∈ validPaths tbl.createdFiles, 0 ∉ tbl.deltaLog.relative q
  plainDeleted : ∀ q ∈ validPaths tbl.deletedFiles, 0 ∉ tbl.deltaLog.relative q
  logged : ∀ q ∈ validPaths tbl.deletedFiles,
    tbl.deltaLog.files.lookup (tbl.deltaLog.relative q) ≠ none
  live : ∀ k, k ∈ tbl.deltaLog.getList ↔
    (k ∈ start.getList ∨ ∃ q ∈ validPaths tbl.createdFiles, tbl.deltaLog.relative q = k) ∧
      ¬∃ q ∈ validPaths tbl.deletedFiles, tbl.deltaLog.relative q = k

/-! ### The snapshot -/

/-- The snapshot holds adds and removes only. -/
def DeltaLogManager.OfActions (log : DeltaLogManager) : Prop :=
  ∀ k e, log.files.lookup k = some e → e.operation = .add ∨ e.operation = .delete

namespace DeltaLogManager

variable {log : DeltaLogManager} {path k : ByteString} {entry : DeltaLogEntry} {overwrite : Bool}

theorem OfActions.register {op : DLOperation} (h : log.OfActions)
    (hop : op = .add ∨ op = .delete) (hentry : entry.operation = op) :
    (log.registerOperation op path entry overwrite).OfActions := by
  intro k e he
  by_cases hk : k = log.relative path
  · subst hk
    cases hlookup : log.files.lookup (log.relative path) with
    | none =>
      simp only [registerOperation, AssocList.lookup_insertOrAssign, hlookup, if_true] at he
      obtain rfl := Option.some.inj he
      rwa [hentry]
    | some current =>
      rw [lookup_registerOperation_self hlookup] at he
      obtain rfl := Option.some.inj he
      rcases h _ current hlookup with hcurrent | hcurrent
      · rcases hop with rfl | rfl
        · cases overwrite <;> simp [DeltaLogEntry.update, hcurrent]
        · cases overwrite <;> simp [DeltaLogEntry.update, hcurrent]
      · rcases hop with rfl | rfl
        · cases overwrite <;> simp [DeltaLogEntry.update, hcurrent]
        · cases overwrite <;> simp [DeltaLogEntry.update, hcurrent]
  · rw [lookup_registerOperation_of_ne hk] at he
    exact h k e he

/-- An add makes a file live, unless it meets a remove that it does not overwrite. -/
theorem mem_getList_registerAdd (h : log.OfActions) (hentry : entry.operation = .add)
    (hadd : overwrite = false → ¬log.Deleted (log.relative path)) :
    k ∈ (log.registerOperation .add path entry overwrite).getList ↔
      k = log.relative path ∨ k ∈ log.getList := by
  rw [mem_getList_iff_lookup, mem_getList_iff_lookup]
  by_cases hk : k = log.relative path
  · subst hk
    refine iff_of_true ?_ (.inl rfl)
    cases hlookup : log.files.lookup (log.relative path) with
    | none =>
      refine ⟨entry, ?_, hentry⟩
      simp only [registerOperation, AssocList.lookup_insertOrAssign, hlookup, if_true]
    | some current =>
      refine ⟨_, lookup_registerOperation_self hlookup, ?_⟩
      cases overwrite with
      | true => rfl
      | false =>
        have hcurrent : current.operation = .add :=
          (h _ current hlookup).resolve_right fun hdelete ↦ hadd rfl ⟨current, hlookup, hdelete⟩
        rw [DeltaLogEntry.update_add hcurrent]
        exact hcurrent
  · rw [lookup_registerOperation_of_ne hk, or_iff_right hk]

theorem mem_getList_registerDelete (h : log.OfActions) (hentry : entry.operation = .delete) :
    k ∈ (log.registerOperation .delete path entry false).getList ↔
      k ≠ log.relative path ∧ k ∈ log.getList := by
  rw [mem_getList_iff_lookup, mem_getList_iff_lookup]
  by_cases hk : k = log.relative path
  · subst hk
    refine iff_of_false ?_ fun h ↦ h.1 rfl
    rintro ⟨e, he, hadd⟩
    cases hlookup : log.files.lookup (log.relative path) with
    | none =>
      simp only [registerOperation, AssocList.lookup_insertOrAssign, hlookup, if_true] at he
      obtain rfl := Option.some.inj he
      cases hentry.symm.trans hadd
    | some current =>
      rw [lookup_registerOperation_self hlookup] at he
      obtain rfl := Option.some.inj he
      rcases h _ current hlookup with hcurrent | hcurrent
      · rw [DeltaLogEntry.update_delete hcurrent] at hadd
        cases hadd
      · rw [DeltaLogEntry.update_of_delete hcurrent] at hadd
        cases hcurrent.symm.trans hadd
  · rw [lookup_registerOperation_of_ne hk, and_iff_right hk]

theorem lookup_registerOperation_ne_none {op : DLOperation}
    (h : k = log.relative path ∨ log.files.lookup k ≠ none) :
    (log.registerOperation op path entry overwrite).files.lookup k ≠ none := by
  simp only [registerOperation, AssocList.lookup_insertOrAssign]
  split_ifs with hk
  · exact Option.some_ne_none _
  · exact h.resolve_left hk

end DeltaLogManager

/-! ### Registrations -/

namespace Consistent

variable {start : DeltaLogManager} {tbl : TableStats} {version : ℤ}

theorem readsItsCommit (h : Consistent start tbl) (hstart : StartingSnapshot start version) :
    ReadsItsCommit start version tbl := by
  intro k
  have hlogged : ∀ files, (∀ q ∈ validPaths files, 0 ∉ tbl.deltaLog.relative q) →
      ((∃ q ∈ validPaths files, tbl.loggedPath q = k) ↔
        ∃ q ∈ validPaths files, tbl.deltaLog.relative q = k) := by
    intro files hplain
    refine exists_congr fun q ↦ and_congr_right fun hq ↦ ?_
    rw [TableStats.loggedPath, cString_eq_self (hplain q hq)]
  rw [DeltaLogManager.mem_getList_replay (hstart.older k)
    fun a ha ↦ TableStats.operation_of_mem_buildCommitLog ha,
    TableStats.exists_add h.namedCreated, TableStats.exists_remove h.namedDeleted,
    hlogged _ h.plainCreated, hlogged _ h.plainDeleted, h.live]

theorem of_unchanged {st : State σ ρ} (hstart : StartingSnapshot st.table.deltaLog version)
    (h : st.Unchanged) : Consistent st.table.deltaLog st.table := by
  have hnone : ∀ files : List (ByteString × FileStats), files = [] → ∀ q, q ∉ validPaths files := by
    rintro files rfl q hq
    obtain ⟨-, s, hs, -⟩ := mem_validPaths.mp hq
    cases hs
  have hnamed : ∀ files : List (ByteString × FileStats), files = [] → Named files := by
    rintro files rfl path s hs
    cases hs
  refine ⟨rfl, hstart.actions, hnamed _ h.1, hnamed _ h.2, fun q hq ↦ absurd hq (hnone _ h.1 q),
    fun q hq ↦ absurd hq (hnone _ h.2 q), fun q hq ↦ absurd hq (hnone _ h.2 q), fun k ↦ ?_⟩
  refine ⟨fun hk ↦ ⟨.inl hk, ?_⟩, fun hk ↦ hk.1.resolve_right ?_⟩
  · rintro ⟨q, hq, -⟩
    exact hnone _ h.2 q hq
  · rintro ⟨q, hq, -⟩
    exact hnone _ h.1 q hq

theorem registerCreatedFile (h : Consistent start tbl) {stats : FileStats} {overwrite : Bool}
    (hvalid : stats.valid = true) (hadd : tbl.MayAdd stats.path overwrite) :
    Consistent start (tbl.registerCreatedFile stats overwrite) := by
  obtain ⟨⟨hne, hplain⟩, hremoved⟩ := hadd
  have hcreated : ∀ q, q ∈ validPaths (tbl.registerCreatedFile stats overwrite).createdFiles ↔
      q ≠ [] ∧ (q = stats.path ∨ q ∈ validPaths tbl.createdFiles) :=
    fun q ↦ mem_validPaths_insertOrAssign hvalid
  have hdeleted : ∀ q, q ∈ validPaths (tbl.registerCreatedFile stats overwrite).deletedFiles ↔
      q ≠ stats.path ∧ q ∈ validPaths tbl.deletedFiles := fun q ↦ mem_validPaths_invalidate
  have hnot : overwrite = false →
      ¬tbl.deltaLog.Deleted (tbl.deltaLog.relative stats.path) := by
    rintro rfl
    exact hremoved
  -- The file is not removed under another path.
  have hother : ∀ q ∈ validPaths tbl.deletedFiles,
      tbl.deltaLog.relative q = tbl.deltaLog.relative stats.path → q = stats.path := by
    intro q hq hrel
    cases overwrite with
    | true => exact hremoved q hq hrel
    | false =>
      obtain ⟨e, he⟩ := Option.ne_none_iff_exists'.mp (h.logged q hq)
      have hdead : tbl.deltaLog.relative q ∉ tbl.deltaLog.getList :=
        fun hmem ↦ ((h.live _).mp hmem).2 ⟨q, hq, rfl⟩
      rcases h.actions _ e he with hop | hop
      · exact absurd (DeltaLogManager.mem_getList_iff_lookup.mpr ⟨e, he, hop⟩) hdead
      · exact absurd ⟨e, hrel ▸ he, hop⟩ hremoved
  refine ⟨h.basePath, DeltaLogManager.OfActions.register h.actions (.inl rfl) rfl,
    h.namedCreated.insertOrAssign stats, h.namedDeleted.invalidate stats.path, ?_, ?_, ?_, ?_⟩
  · intro q hq
    rcases ((hcreated q).mp hq).2 with rfl | hq
    · exact hplain
    · exact h.plainCreated q hq
  · exact fun q hq ↦ h.plainDeleted q ((hdeleted q).mp hq).2
  · intro q hq
    exact DeltaLogManager.lookup_registerOperation_ne_none
      (.inr (h.logged q ((hdeleted q).mp hq).2))
  · intro k
    have hlive : k ∈ (tbl.registerCreatedFile stats overwrite).deltaLog.getList ↔
        k = tbl.deltaLog.relative stats.path ∨ k ∈ tbl.deltaLog.getList :=
      DeltaLogManager.mem_getList_registerAdd h.actions rfl hnot
    rw [hlive, h.live]
    change _ ↔ (k ∈ start.getList ∨ ∃ q ∈ validPaths _, tbl.deltaLog.relative q = k) ∧
      ¬∃ q ∈ validPaths _, tbl.deltaLog.relative q = k
    simp only [hcreated, hdeleted]
    by_cases hk : k = tbl.deltaLog.relative stats.path
    · refine iff_of_true (.inl hk) ⟨.inr ⟨stats.path, ⟨hne, .inl rfl⟩, hk.symm⟩, ?_⟩
      rintro ⟨q, ⟨hq, hmem⟩, hrel⟩
      exact hq (hother q hmem (hrel.trans hk))
    · rw [or_iff_right hk]
      refine and_congr (or_congr_right ?_) (not_congr ?_)
      · constructor
        · rintro ⟨q, hq, hrel⟩
          exact ⟨q, ⟨(mem_validPaths.mp hq).1, .inr hq⟩, hrel⟩
        · rintro ⟨q, ⟨-, rfl | hq⟩, hrel⟩
          · exact absurd hrel.symm hk
          · exact ⟨q, hq, hrel⟩
      · constructor
        · rintro ⟨q, hq, hrel⟩
          refine ⟨q, ⟨?_, hq⟩, hrel⟩
          rintro rfl
          exact hk hrel.symm
        · rintro ⟨q, ⟨-, hq⟩, hrel⟩
          exact ⟨q, hq, hrel⟩

theorem registerDeletedFile (h : Consistent start tbl) {path : ByteString} (hne : path ≠ [])
    (hplain : 0 ∉ tbl.deltaLog.relative path) :
    Consistent start (tbl.registerDeletedFile path) := by
  have hcreated : ∀ q, q ∈ validPaths (tbl.registerDeletedFile path).createdFiles ↔
      q ≠ path ∧ q ∈ validPaths tbl.createdFiles := fun q ↦ mem_validPaths_invalidate
  have hdeleted : ∀ q, q ∈ validPaths (tbl.registerDeletedFile path).deletedFiles ↔
      q ≠ [] ∧ (q = path ∨ q ∈ validPaths tbl.deletedFiles) :=
    fun q ↦ mem_validPaths_insertOrAssign rfl
  refine ⟨h.basePath, DeltaLogManager.OfActions.register h.actions (.inr rfl) rfl,
    h.namedCreated.invalidate path,
    h.namedDeleted.insertOrAssign { path := path, size := tbl.deltaLog.getSize path },
    ?_, ?_, ?_, ?_⟩
  · exact fun q hq ↦ h.plainCreated q ((hcreated q).mp hq).2
  · intro q hq
    rcases ((hdeleted q).mp hq).2 with rfl | hq
    · exact hplain
    · exact h.plainDeleted q hq
  · intro q hq
    apply DeltaLogManager.lookup_registerOperation_ne_none
    rcases ((hdeleted q).mp hq).2 with rfl | hq
    · exact .inl rfl
    · exact .inr (h.logged q hq)
  · intro k
    have hlive : k ∈ (tbl.registerDeletedFile path).deltaLog.getList ↔
        k ≠ tbl.deltaLog.relative path ∧ k ∈ tbl.deltaLog.getList :=
      DeltaLogManager.mem_getList_registerDelete h.actions rfl
    rw [hlive, h.live]
    change _ ↔ (k ∈ start.getList ∨ ∃ q ∈ validPaths _, tbl.deltaLog.relative q = k) ∧
      ¬∃ q ∈ validPaths _, tbl.deltaLog.relative q = k
    simp only [hcreated, hdeleted]
    by_cases hk : k = tbl.deltaLog.relative path
    · refine iff_of_false (fun h ↦ h.1 hk) fun h ↦ h.2 ⟨path, ⟨hne, .inl rfl⟩, hk.symm⟩
    · rw [and_iff_right hk]
      refine and_congr (or_congr_right ?_) (not_congr ?_)
      · constructor
        · rintro ⟨q, hq, hrel⟩
          refine ⟨q, ⟨?_, hq⟩, hrel⟩
          rintro rfl
          exact hk hrel.symm
        · rintro ⟨q, ⟨-, hq⟩, hrel⟩
          exact ⟨q, hq, hrel⟩
      · constructor
        · rintro ⟨q, hq, hrel⟩
          exact ⟨q, ⟨(mem_validPaths.mp hq).1, .inr hq⟩, hrel⟩
        · rintro ⟨q, ⟨-, rfl | hq⟩, hrel⟩
          · exact absurd hrel.symm hk
          · exact ⟨q, hq, hrel⟩

end Consistent

/-! ### Calls -/

section Run

variable {out : Outside σ ρ} {st : State σ ρ} {start : DeltaLogManager}

/-- No name that is still to come was removed. -/
structure NamesLeft (out : Outside σ ρ) (st : State σ ρ) : Prop where
  base : st.table.deltaLog.basePath ≠ []
  plain : ∀ n, st.asked ≤ n → 0 ∉ out.newName n
  notDeleted : ∀ n, st.asked ≤ n → ¬st.table.deltaLog.Deleted (out.newName n)

theorem State.NewNames.namesLeft (h : st.NewNames out) (hbase : st.table.deltaLog.basePath ≠ []) :
    NamesLeft out st where
  base := hbase
  plain n hn := (h n hn).2
  notDeleted n hn := by
    rintro ⟨e, he, -⟩
    cases (h n hn).1.symm.trans he

/-- The next name may be added. -/
theorem NamesLeft.mayAdd (h : NamesLeft out st) :
    st.table.MayAdd (st.newDataFilePath out st.asked) false := by
  have hrel : st.table.deltaLog.relative (st.newDataFilePath out st.asked) =
      out.newName st.asked := DeltaLogManager.relative_append _ _
  refine ⟨⟨List.append_ne_nil_of_left_ne_nil h.base _, ?_⟩, ?_⟩
  · rw [hrel]
    exact h.plain _ le_rfl
  · rw [if_neg Bool.false_ne_true, hrel]
    exact h.notDeleted _ le_rfl

theorem Consistent.addFilePath (h : Consistent start st.table) {path : ByteString}
    {overwrite : Bool} (hadd : st.table.MayAdd path overwrite)
    (objects : List (ByteString × ℤ)) :
    Consistent start (addFilePath st path overwrite objects).2.table := by
  unfold Keys.addFilePath
  dsimp only
  split_ifs
  · exact h
  · exact h.registerCreatedFile rfl hadd
  · exact h.registerCreatedFile rfl hadd

theorem Consistent.addFileRows (h : Consistent start st.table) (hnames : NamesLeft out st)
    (rows : DataTable σ ρ) (prev : Option ℕ) :
    Consistent start (addFileRows out st rows prev).2.table := by
  unfold Keys.addFileRows
  cases out.conform rows with
  | none => exact h
  | some rows =>
    dsimp only
    split_ifs
    · exact h.registerCreatedFile rfl hnames.mayAdd
    · exact h

/-- A file that a removal may find. -/
structure Found (out : Outside σ ρ) (st : State σ ρ) (f : KeyFile σ ρ) : Prop where
  ne_nil : f.path ≠ []
  plain : 0 ∉ st.table.deltaLog.relative f.path
  notNew : ∀ n, st.asked ≤ n → out.newName n ≠ st.table.deltaLog.relative f.path

theorem DeltaLogManager.Deleted.of_registerOperation {log : DeltaLogManager} {k path : ByteString}
    {op : DLOperation} {entry : DeltaLogEntry} {overwrite : Bool}
    (h : (log.registerOperation op path entry overwrite).Deleted k) (hk : k ≠ log.relative path) :
    log.Deleted k := by
  obtain ⟨e, he, hop⟩ := h
  rw [lookup_registerOperation_of_ne hk] at he
  exact ⟨e, he, hop⟩

/-- One found file, whether or not it can be rewritten. -/
theorem Consistent.removeKeyRows (h : Consistent start st.table) (hnames : NamesLeft out st)
    {f : KeyFile σ ρ} (hf : Found out st f) :
    Consistent start (removeKeyRows out st f).2.table := by
  rcases removeKeyRows_cases out st f with ⟨-, hrun⟩ | ⟨-, rest, -, -, hrun⟩ | ⟨-, asked, hrun⟩
  · rw [hrun]
    exact h.registerDeletedFile hf.ne_nil hf.plain
  · rw [hrun]
    let stats : FileStats :=
      { path := st.newDataFilePath out st.asked, size := out.encodedSize rest,
        stats := out.statistics rest }
    have hcreated : Consistent start (st.table.registerCreatedFile stats false) :=
      h.registerCreatedFile rfl hnames.mayAdd
    exact hcreated.registerDeletedFile hf.ne_nil hf.plain
  · rw [hrun]
    exact h

/-- A file that was removed leaves the names that are still to come alone. -/
theorem NamesLeft.removeKeyRows {st' : State σ ρ} (h : Consistent start st.table)
    (hnames : NamesLeft out st) {f : KeyFile σ ρ} (hf : Found out st f)
    (hrun : Keys.removeKeyRows out st f = (true, st')) :
    NamesLeft out st' ∧ st.asked ≤ st'.asked := by
  rcases removeKeyRows_cases out st f with ⟨-, hcase⟩ | ⟨-, rest, -, -, hcase⟩ | ⟨-, asked, hcase⟩
  · obtain ⟨-, rfl⟩ := Prod.mk.inj (hcase.symm.trans hrun)
    refine ⟨⟨hnames.base, hnames.plain, ?_⟩, le_rfl⟩
    intro n hn hdeleted
    exact hnames.notDeleted n hn (hdeleted.of_registerOperation (hf.notNew n hn))
  · obtain ⟨-, rfl⟩ := Prod.mk.inj (hcase.symm.trans hrun)
    let stats : FileStats :=
      { path := st.newDataFilePath out st.asked, size := out.encodedSize rest,
        stats := out.statistics rest }
    refine ⟨⟨hnames.base, fun n hn ↦ hnames.plain n (Nat.le_of_succ_le hn), ?_⟩, Nat.le_succ _⟩
    intro n hn hdeleted
    have hn : st.asked < n := hn
    have hcreated : (st.table.registerCreatedFile stats false).deltaLog.Deleted (out.newName n) :=
      hdeleted.of_registerOperation (hf.notNew n hn.le)
    by_cases hname : out.newName n =
        st.table.deltaLog.relative (st.newDataFilePath out st.asked)
    · -- the name of the file that was just created
      have hlive : out.newName n ∈ (st.table.registerCreatedFile stats false).deltaLog.getList :=
        (DeltaLogManager.mem_getList_registerAdd h.actions rfl
          fun _ ↦ hnames.mayAdd.2).mpr (.inl hname)
      exact hcreated.not_mem_getList hlive
    · exact hnames.notDeleted n hn.le (hcreated.of_registerOperation hname)
  · cases hcase.symm.trans hrun

theorem Consistent.removeLoop (h : Consistent start st.table) (hnames : NamesLeft out st)
    {files : List (KeyFile σ ρ)} (hfiles : ∀ f ∈ files, Found out st f) :
    Consistent start (removeLoop out files st).2.table := by
  induction files generalizing st with
  | nil => exact h
  | cons f files ih =>
    have hf := hfiles f List.mem_cons_self
    have hstep := h.removeKeyRows hnames hf
    rw [Keys.removeLoop]
    cases hrun : Keys.removeKeyRows out st f with
    | mk ok st' =>
      rw [hrun] at hstep
      cases ok with
      | false => exact hstep
      | true =>
        obtain ⟨hnames', hasked⟩ := hnames.removeKeyRows h hf hrun
        have hrel : st'.table.deltaLog.relative = st.table.deltaLog.relative := by
          funext path
          rw [DeltaLogManager.relative, DeltaLogManager.relative, hstep.basePath, h.basePath]
        refine ih hstep hnames' fun g hg ↦ ?_
        have hg := hfiles g (List.mem_cons_of_mem _ hg)
        refine ⟨hg.ne_nil, ?_, fun n hn ↦ ?_⟩
        · rw [hrel]
          exact hg.plain
        · rw [hrel]
          exact hg.notNew n (hasked.trans hn)

theorem Consistent.removeFile (h : Consistent start st.table)
    (hbase : st.table.deltaLog.basePath ≠ []) (hnames : st.NewNames out) {key : ByteString}
    {prev : Option ℕ} (hplain : ∀ files,
      findKeyFiles out.arrow (st.readDataFile out) st.table key false prev = some files →
        ∀ f ∈ files, 0 ∉ st.table.deltaLog.relative f.path) :
    Consistent start (removeFile out true st key prev).state.table := by
  unfold Keys.removeFile
  cases hfound : findKeyFiles out.arrow (st.readDataFile out) st.table key false prev with
  | none => exact h
  | some files =>
    cases files with
    | nil => exact h
    | cons f files =>
      refine h.removeLoop (hnames.namesLeft hbase) fun g hg ↦ ?_
      obtain ⟨p, e, hlive, hpath⟩ := findKeyFiles_live hfound hg
      refine ⟨?_, hplain _ hfound g hg, fun n hn hname ↦ ?_⟩
      · rw [hpath]
        exact List.append_ne_nil_of_left_ne_nil hbase p
      · rw [hpath, DeltaLogManager.relative_append] at hname
        have hlookup := (DeltaLogManager.live_iff_lookup.mp hlive).1
        rw [← hname] at hlookup
        cases (hnames n hn).1.symm.trans hlookup

theorem Consistent.run (h : Consistent start st.table) (hbase : st.table.deltaLog.basePath ≠ [])
    {c : Call σ ρ} (hc : c.Proper out st) : Consistent start (c.run out st).table := by
  cases c with
  | addPath path overwrite objects => exact h.addFilePath hc objects
  | addRows rows prev => exact h.addFileRows (hc.namesLeft hbase) rows prev
  | removePath path =>
    change Consistent start (removeFilePath st path).2.table
    unfold removeFilePath
    split_ifs with hne
    · exact h
    · exact h.registerDeletedFile hne hc
  | removeKey key prev => exact h.removeFile hbase hc.1 hc.2

/-- **A transaction reads what it will commit**, in every state of a run of proper calls. -/
theorem reads_own_commit {st₀ : State σ ρ} {version : ℤ}
    (hstart : StartingSnapshot st₀.table.deltaLog version)
    (hbase : st₀.table.deltaLog.basePath ≠ []) (hunchanged : st₀.Unchanged)
    (h : Calls out st₀ st) : ReadsItsCommit st₀.table.deltaLog version st.table := by
  have hinv : Consistent st₀.table.deltaLog st.table := by
    induction h with
    | start => exact .of_unchanged hstart hunchanged
    | step _ hc ih => exact ih.run (ih.basePath ▸ hbase) hc
  exact hinv.readsItsCommit hstart

end Run

/-! ## Removed and added again -/

theorem twoFiles_startingSnapshot (keys : List (Option ByteString)) :
    StartingSnapshot (twoFiles keys).table.deltaLog 1 := by
  have hentry : ∀ k e, (twoFiles keys).table.deltaLog.files.lookup k = some e →
      e = { operation := .add } := by
    intro k e he
    rcases List.mem_cons.mp (AssocList.mem_of_lookup he) with h | h
    · exact (Prod.mk.inj h).2
    · exact (Prod.mk.inj (List.mem_singleton.mp h)).2
  refine ⟨fun k e he ↦ ?_, fun k e he ↦ ?_⟩
  · rw [hentry k e he]
    exact .inl rfl
  · rw [hentry k e he]
    decide

/-- The file `f` is removed and added again. -/
def againCalls (overwrite : Bool) : List (Call Unit Unit) :=
  [.removePath (ascii "b/f"), .addPath (ascii "b/f") overwrite [(ascii "b/f", 4)],
    .addRows (keyTable []) none]

def afterCalls (calls : List (Call Unit Unit)) : State Unit Unit :=
  calls.foldl (Call.run (sampleOutside true)) (twoFiles [])

theorem reads_own_commit_sample :
    ReadsItsCommit (twoFiles []).table.deltaLog 1 (afterCalls (againCalls true)).table := by
  have hplain : 0 ∉ (twoFiles []).table.deltaLog.relative (ascii "b/f") := by decide +kernel
  have h₁ : Calls (sampleOutside true) (twoFiles []) (afterCalls ((againCalls true).take 1)) :=
    .step (c := .removePath (ascii "b/f")) .start hplain
  have h₂ : Calls (sampleOutside true) (twoFiles []) (afterCalls ((againCalls true).take 2)) := by
    refine .step (c := .addPath (ascii "b/f") true [(ascii "b/f", 4)]) h₁ ⟨⟨?_, ?_⟩, ?_⟩
    · decide +kernel
    · decide +kernel
    · rw [if_pos rfl]
      decide +kernel
  have h₃ : Calls (sampleOutside true) (twoFiles []) (afterCalls (againCalls true)) := by
    refine .step (c := .addRows (keyTable []) none) h₂ fun n _ ↦ ⟨rfl, fun h ↦ ?_⟩
    rcases List.mem_append.mp h with h | h
    · revert h
      decide
    · cases isDigit_of_mem_decimal h
  exact reads_own_commit (twoFiles_startingSnapshot []) (by decide) ⟨rfl, rfl⟩ h₃

/-- Without overwriting, the commit adds the file and the snapshot does not. -/
theorem added_again_unread :
    ¬ReadsItsCommit (twoFiles []).table.deltaLog 1
      (afterCalls ((againCalls false).take 2)).table := by
  intro h
  have hcommitted : ascii "f" ∈ ((twoFiles []).table.deltaLog.replay 1
      (afterCalls ((againCalls false).take 2)).table.buildCommitLog).getList := by
    decide +kernel
  have hlive := (h (ascii "f")).mpr hcommitted
  revert hlive
  decide +kernel

end LakeVilla.Keys

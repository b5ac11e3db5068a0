import LakeVilla.Keys.RemovalRun

/-!
# A table without one of its files

The state of a table as it is apart from one file, `own`. Steps that concern this file leave the
rest as it is; steps that concern other files act on the rest alone.
-/

namespace LakeVilla.Keys

variable {σ ρ : Type} {own : ByteString}

/-! ## The snapshot -/

/-- The other files of a snapshot. -/
def DeltaLogManager.without (own : ByteString) (log : DeltaLogManager) : DeltaLogManager where
  basePath := log.basePath
  files := AssocList.erase log.files own
  nodup := AssocList.nodup_erase log.nodup own

section Log

variable {log : DeltaLogManager} {op : DLOperation} {path : ByteString} {entry : DeltaLogEntry}
  {overwrite : Bool}

theorem without_registerOperation_self (h : log.relative path = own) :
    (log.registerOperation op path entry overwrite).without own = log.without own := by
  apply DeltaLogManager.ext
  · rfl
  · subst h
    exact AssocList.erase_insertOrAssign_self _ _ _

theorem without_registerOperation_of_ne (h : log.relative path ≠ own) :
    (log.registerOperation op path entry overwrite).without own =
      (log.without own).registerOperation op path entry overwrite := by
  apply DeltaLogManager.ext
  · rfl
  · refine (AssocList.erase_insertOrAssign_of_ne h _ _).trans ?_
    have hlookup : (log.without own).files.lookup ((log.without own).relative path) =
        log.files.lookup (log.relative path) := AssocList.lookup_erase_of_ne h
    simp only [DeltaLogManager.registerOperation, hlookup]
    rfl

theorem without_getSize (h : log.relative path ≠ own) :
    (log.without own).getSize path = log.getSize path := by
  have hlookup : (log.without own).files.lookup ((log.without own).relative path) =
      log.files.lookup (log.relative path) := AssocList.lookup_erase_of_ne h
  simp only [DeltaLogManager.getSize, hlookup]

theorem without_eq_self (h : log.files.lookup own = none) : log.without own = log :=
  DeltaLogManager.ext rfl (AssocList.erase_of_lookup h)

theorem live_without {q : ByteString} {e : DeltaLogEntry} :
    (log.without own).Live q e ↔ log.Live q e ∧ q ≠ own := by
  simp only [DeltaLogManager.Live, DeltaLogManager.without, AssocList.erase, List.mem_filter,
    decide_eq_true_eq]
  tauto

end Log

/-! ## The table -/

namespace TableStats

/-- The table without the file. -/
def without (own : ByteString) (tbl : TableStats) : TableStats :=
  { tbl with
    deltaLog := tbl.deltaLog.without own
    createdFiles := AssocList.erase tbl.createdFiles (tbl.fullPath own)
    deletedFiles := AssocList.erase tbl.deletedFiles (tbl.fullPath own) }

variable {tbl : TableStats} {stats : FileStats} {path : ByteString} {overwrite : Bool} {size : ℤ}

theorem without_noteCreated_self (h : stats.path = tbl.fullPath own) :
    (tbl.noteCreated stats).without own = tbl.without own := by
  simp only [without, noteCreated, fullPath, h, AssocList.erase_insertOrAssign_self,
    AssocList.erase_modify_self]

theorem without_noteCreated_of_ne (h : stats.path ≠ tbl.fullPath own) :
    (tbl.noteCreated stats).without own = (tbl.without own).noteCreated stats := by
  simp only [fullPath] at h
  simp only [without, noteCreated, fullPath, AssocList.erase_insertOrAssign_of_ne h,
    AssocList.erase_modify_of_ne h]

theorem without_logCreated_self (h : stats.path = tbl.fullPath own) :
    (tbl.logCreated stats overwrite).without own = tbl.without own := by
  have hrel : tbl.deltaLog.relative stats.path = own := by
    rw [h, fullPath, DeltaLogManager.relative_append]
  simp only [without, logCreated, fullPath, without_registerOperation_self hrel,
    DeltaLogManager.registerOperation_basePath]

theorem without_logCreated_of_ne (h : tbl.deltaLog.relative stats.path ≠ own) :
    (tbl.logCreated stats overwrite).without own = (tbl.without own).logCreated stats overwrite := by
  simp only [without, logCreated, fullPath, without_registerOperation_of_ne h,
    DeltaLogManager.registerOperation_basePath]

theorem without_noteDeleted_of_ne (h : path ≠ tbl.fullPath own) :
    (tbl.noteDeleted path size).without own = (tbl.without own).noteDeleted path size := by
  simp only [fullPath] at h
  simp only [without, noteDeleted, fullPath, AssocList.erase_insertOrAssign_of_ne h,
    AssocList.erase_modify_of_ne h]

theorem without_logDeleted_of_ne (h : tbl.deltaLog.relative path ≠ own) :
    (tbl.logDeleted path).without own = (tbl.without own).logDeleted path := by
  simp only [without, logDeleted, fullPath, without_registerOperation_of_ne h,
    DeltaLogManager.registerOperation_basePath]

end TableStats

/-- The candidates of a table without a file. -/
theorem candidates_without {arrow : Arrow σ} {c : KeyColumn} {key : ByteString}
    {tbl : TableStats} : (tbl.without own).candidates arrow c key =
      (tbl.candidates arrow c key).filter fun candidate ↦ candidate.1 ≠ tbl.fullPath own := by
  rw [TableStats.candidates, TableStats.candidates, findFiles_classify, findFiles_classify,
    List.filter_filterMap]
  change (AssocList.erase tbl.deltaLog.files own).filterMap _ = _
  rw [AssocList.erase, List.filterMap_filter]
  apply List.filterMap_congr
  rintro ⟨q, e⟩ -
  dsimp only
  split_ifs with hq hfound hfound
  · rw [Option.filter_some_pos]
    · rfl
    · simpa [TableStats.fullPath] using hq
  · rfl
  · rw [Option.filter_some_neg]
    simpa [TableStats.fullPath] using hq
  · rfl
/-! ## The state -/

namespace State

/-- The state without the file. -/
def without (own : ByteString) (st : State σ ρ) : State σ ρ where
  table := st.table.without own
  stored := Function.update st.stored (st.table.fullPath own) none
  asked := st.asked

variable {st : State σ ρ}

/-- Data files other than the own one are not concerned. -/
theorem without_stored {path : ByteString} (h : path ≠ st.table.fullPath own) :
    (st.without own).stored path = st.stored path := Function.update_of_ne h _ _

theorem without_readDataFile (out : Outside σ ρ) {path : ByteString}
    (h : path ≠ st.table.fullPath own) :
    (st.without own).readDataFile out path = st.readDataFile out path := by
  simp only [readDataFile, without_stored h]

theorem without_content {path : ByteString} (h : path ≠ st.table.fullPath own) :
    (st.without own).content path = st.content path := by
  simp only [content, without_stored h]

theorem without_withTable (st : State σ ρ) {tbl tbl' : TableStats} (h : tbl.without own = tbl')
    (hbase : tbl.deltaLog.basePath = st.table.deltaLog.basePath) :
    State.without own { st with table := tbl } = { st.without own with table := tbl' } := by
  subst h
  simp only [without, TableStats.fullPath, hbase]

/-- A file that is new is not in the state. -/
structure NewFile (own : ByteString) (st : State σ ρ) : Prop where
  notLogged : st.table.deltaLog.files.lookup own = none
  notCreated : st.table.createdFiles.lookup (st.table.fullPath own) = none
  notDeleted : st.table.deletedFiles.lookup (st.table.fullPath own) = none
  notStored : st.stored (st.table.fullPath own) = none

theorem NewFile.without_eq_self (h : st.NewFile own) : st.without own = st := by
  have htable : st.table.without own = st.table := by
    rw [TableStats.without, Keys.without_eq_self h.notLogged,
      AssocList.erase_of_lookup h.notCreated, AssocList.erase_of_lookup h.notDeleted]
  have hstored : Function.update st.stored (st.table.fullPath own) none = st.stored :=
    Function.update_eq_self_iff.mpr h.notStored.symm
  rw [without, htable, hstored]

/-- The live rows are those of the file and the others. -/
theorem liveRows_without (st : State σ ρ) {e : DeltaLogEntry}
    (h : st.table.deltaLog.files.lookup own = some e) (hadd : e.operation = .add) :
    (st.without own).liveRows + ↑(st.content (st.table.fullPath own)).rows = st.liveRows := by
  have hsum := AssocList.sum_erase_add (entryRows st.content st.table.deltaLog.basePath)
    st.table.deltaLog.nodup own
  rw [h, Option.elim_some, entryRows, if_pos hadd, ← coe_liveRows] at hsum
  have hcontent : ∀ q e, (st.table.deltaLog.without own).Live q e →
      (st.without own).content (st.table.deltaLog.basePath ++ q) =
        st.content (st.table.deltaLog.basePath ++ q) := fun q e hq ↦
    without_content fun hpath ↦ (live_without.mp hq).2 (List.append_cancel_left hpath)
  have hothers : (st.without own).liveRows =
      ((st.table.deltaLog.without own).files.map
        (entryRows st.content st.table.deltaLog.basePath)).sum :=
    (congrArg Multiset.ofList (liveRows_congr hcontent)).trans (coe_liveRows _ _)
  rw [hothers]
  exact hsum

end State

/-! ## The commit -/

theorem mem_validPaths_erase {files : List (ByteString × FileStats)} {path q : ByteString}
    (h : q ≠ path) : q ∈ validPaths (AssocList.erase files path) ↔ q ∈ validPaths files := by
  rw [mem_validPaths, mem_validPaths, AssocList.lookup_erase_of_ne h]

/-- A commit that contains the other files of the snapshot, and the file, contains all. -/
theorem agrees_of_without {tbl : TableStats} {version : Finset ByteString} {e : DeltaLogEntry}
    {s : FileStats} (h : (tbl.without own).Agrees version) (hlive : tbl.deltaLog.Live own e)
    (hcreated : tbl.createdFiles.lookup (tbl.fullPath own) = some s) (hvalid : s.valid = true)
    (hdeleted : tbl.deletedFiles.lookup (tbl.fullPath own) = none) (hne : tbl.fullPath own ≠ []) :
    tbl.Agrees version := by
  have hnot : tbl.fullPath own ∉ validPaths tbl.deletedFiles := by
    rw [mem_validPaths, hdeleted]
    rintro ⟨-, s, hs, -⟩
    cases hs
  ext q
  by_cases hq : q = tbl.fullPath own
  · subst hq
    refine iff_of_true ?_ (mem_liveFiles.mpr ⟨own, e, hlive, rfl⟩)
    exact mem_committedFiles.mpr ⟨.inr (mem_validPaths.mpr ⟨hne, s, hcreated, hvalid⟩), hnot⟩
  · have hother : q ∈ (tbl.without own).committedFiles version ↔
        q ∈ (tbl.deltaLog.without own).liveFiles := by
      rw [h]
      rfl
    rw [mem_committedFiles, mem_liveFiles] at hother
    have hvalidPaths : ∀ files : List (ByteString × FileStats),
        q ∈ validPaths (AssocList.erase files (tbl.fullPath own)) ↔ q ∈ validPaths files := fun _ ↦
      mem_validPaths_erase hq
    rw [mem_committedFiles, mem_liveFiles, ← hvalidPaths tbl.createdFiles,
      ← hvalidPaths tbl.deletedFiles]
    refine hother.trans ⟨?_, ?_⟩
    · rintro ⟨p, e', hp, rfl⟩
      exact ⟨p, e', (live_without.mp hp).1, rfl⟩
    · rintro ⟨p, e', hp, rfl⟩
      exact ⟨p, e', live_without.mpr ⟨hp, fun h ↦ hq (h ▸ rfl)⟩, rfl⟩

end LakeVilla.Keys

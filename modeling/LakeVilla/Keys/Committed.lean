import LakeVilla.Keys.LiveRows
import Mathlib.Algebra.BigOperators.Group.Finset.Basic
import Mathlib.Data.Finset.SDiff

/-!
# The files of a commit

A commit adds the valid created files to the version it is based on and removes the valid deleted
files. Registering a file changes this set of files as it changes the live files of the snapshot.
-/

namespace LakeVilla.Keys

variable {σ ρ : Type}

/-- The files that are still valid. -/
def validPaths (files : List (ByteString × FileStats)) : List ByteString :=
  (files.map (·.1)).filter fun path ↦ path ≠ [] ∧ (files.lookup path).any (·.valid)

theorem mem_validPaths {files : List (ByteString × FileStats)} {path : ByteString} :
    path ∈ validPaths files ↔ path ≠ [] ∧ ∃ s, files.lookup path = some s ∧ s.valid = true := by
  simp only [validPaths, List.mem_filter, decide_eq_true_eq]
  constructor
  · rintro ⟨-, hne, h⟩
    exact ⟨hne, by simpa [Option.any_eq_true] using h⟩
  · rintro ⟨hne, s, hs, hvalid⟩
    refine ⟨?_, hne, by simp [hs, hvalid]⟩
    exact List.mem_map.mpr ⟨(path, s), AssocList.mem_of_lookup hs, rfl⟩

/-- `build_commit_log`: the files after a commit on top of a version with the files `version`. A
remove beats an add of the same version. -/
def TableStats.committedFiles (tbl : TableStats) (version : Finset ByteString) :
    Finset ByteString :=
  (version ∪ (validPaths tbl.createdFiles).toFinset) \ (validPaths tbl.deletedFiles).toFinset

/-- The live files of a snapshot. -/
def DeltaLogManager.liveFiles (log : DeltaLogManager) : Finset ByteString :=
  (log.getList.map (log.basePath ++ ·)).toFinset

/-- The commit contains the files of the snapshot. -/
def TableStats.Agrees (tbl : TableStats) (version : Finset ByteString) : Prop :=
  tbl.committedFiles version = tbl.deltaLog.liveFiles

/-- The rows of some files. -/
def rowsIn (content : ByteString → DataTable σ ρ) (files : Finset ByteString) :
    Multiset (Row σ ρ) :=
  ∑ path ∈ files, (↑(content path).rows : Multiset (Row σ ρ))

theorem mem_liveFiles {log : DeltaLogManager} {path : ByteString} :
    path ∈ log.liveFiles ↔ ∃ p e, log.Live p e ∧ path = log.basePath ++ p := by
  simp only [DeltaLogManager.liveFiles, List.mem_toFinset, List.mem_map,
    DeltaLogManager.mem_getList]
  constructor
  · rintro ⟨p, ⟨e, he⟩, rfl⟩
    exact ⟨p, e, he, rfl⟩
  · rintro ⟨p, e, he, rfl⟩
    exact ⟨p, ⟨e, he⟩, rfl⟩

/-- The live rows are those of the live files. -/
theorem rowsIn_liveFiles (log : DeltaLogManager) (content : ByteString → DataTable σ ρ) :
    rowsIn content log.liveFiles = ↑(log.liveRows content) := by
  have hnodup : (log.getList.map (log.basePath ++ ·)).Nodup :=
    (log.nodup.sublist (List.filter_sublist.map _)).map (List.append_right_injective _)
  rw [rowsIn, DeltaLogManager.liveFiles, List.sum_toFinset _ hnodup, coe_liveRows,
    DeltaLogManager.getList, List.map_map, List.map_map]
  induction log.files with
  | nil => rfl
  | cons e files ih =>
    rw [List.filter_cons, List.map_cons, List.sum_cons, ← ih, entryRows]
    by_cases hadd : e.2.operation = .add
    · rw [if_pos hadd, if_pos (decide_eq_true hadd), List.map_cons, List.sum_cons]
      rfl
    · rw [if_neg hadd, if_neg (by simpa using hadd), zero_add]

/-! ## Registrations -/

section Registrations

variable {tbl : TableStats} {version : Finset ByteString} {path p : ByteString}

theorem mem_committedFiles : path ∈ tbl.committedFiles version ↔
    (path ∈ version ∨ path ∈ validPaths tbl.createdFiles) ∧ path ∉ validPaths tbl.deletedFiles := by
  simp [TableStats.committedFiles]

theorem mem_validPaths_insertOrAssign {files : List (ByteString × FileStats)} {s : FileStats}
    {q : ByteString} (hvalid : s.valid = true) :
    q ∈ validPaths (AssocList.insertOrAssign files path s) ↔
      q ≠ [] ∧ (q = path ∨ q ∈ validPaths files) := by
  rw [mem_validPaths, mem_validPaths, AssocList.lookup_insertOrAssign]
  by_cases hq : q = path
  · simp [hq, hvalid]
  · simp [hq]

theorem mem_validPaths_invalidate {files : List (ByteString × FileStats)} {q : ByteString} :
    q ∈ validPaths (AssocList.modify files path ({ · with valid := false })) ↔
      q ≠ path ∧ q ∈ validPaths files := by
  rw [mem_validPaths, mem_validPaths, AssocList.lookup_modify]
  by_cases hq : q = path
  · simp [hq]
  · simp [hq]

/-- Registering a created file adds it to the commit. -/
theorem committedFiles_registerCreated {stats : FileStats} {overwrite : Bool}
    (hne : stats.path ≠ []) (hvalid : stats.valid = true) :
    (tbl.registerCreatedFile stats overwrite).committedFiles version =
      insert stats.path (tbl.committedFiles version) := by
  ext q
  rw [mem_committedFiles, Finset.mem_insert, mem_committedFiles]
  change (q ∈ version ∨ q ∈ validPaths (AssocList.insertOrAssign tbl.createdFiles _ _)) ∧
    q ∉ validPaths (AssocList.modify tbl.deletedFiles _ _) ↔ _
  rw [mem_validPaths_insertOrAssign hvalid, mem_validPaths_invalidate]
  have hcreated : q ∈ validPaths tbl.createdFiles → q ≠ [] := fun h ↦ (mem_validPaths.mp h).1
  by_cases hq : q = stats.path
  · subst hq
    simp [hne]
  · simp only [hq, false_or, ne_eq, not_false_eq_true, true_and]
    tauto

/-- Registering a deleted file removes it from the commit. -/
theorem committedFiles_registerDeleted (hne : path ≠ []) :
    (tbl.registerDeletedFile path).committedFiles version =
      (tbl.committedFiles version).erase path := by
  ext q
  rw [mem_committedFiles, Finset.mem_erase, mem_committedFiles]
  change (q ∈ version ∨ q ∈ validPaths (AssocList.modify tbl.createdFiles _ _)) ∧
    q ∉ validPaths (AssocList.insertOrAssign tbl.deletedFiles _ _) ↔ _
  rw [mem_validPaths_insertOrAssign rfl, mem_validPaths_invalidate]
  have hdeleted : q ∈ validPaths tbl.deletedFiles → q ≠ [] := fun h ↦ (mem_validPaths.mp h).1
  by_cases hq : q = path
  · subst hq
    simp [hne]
  · simp only [hq, false_or, ne_eq, not_false_eq_true, true_and]
    tauto

/-- Registering a created file adds it to the snapshot. -/
theorem liveFiles_registerAdd {log : DeltaLogManager} {entry : DeltaLogEntry} {overwrite : Bool}
    (h : log.files.lookup p = none) (hadd : entry.operation = .add)
    (hpath : path = log.basePath ++ p) :
    (log.registerOperation .add path entry overwrite).liveFiles = insert path log.liveFiles := by
  subst hpath
  ext q
  rw [Finset.mem_insert, mem_liveFiles, mem_liveFiles]
  constructor
  · rintro ⟨r, e, hlive, rfl⟩
    by_cases hr : r = p
    · exact .inl (hr ▸ rfl)
    · rw [DeltaLogManager.live_registerOperation_of_ne
        (by rwa [DeltaLogManager.relative_append])] at hlive
      exact .inr ⟨r, e, hlive, rfl⟩
  · rintro (rfl | ⟨r, e, hlive, rfl⟩)
    · refine ⟨p, entry, DeltaLogManager.live_iff_lookup.mpr ⟨?_, hadd⟩, rfl⟩
      simp only [DeltaLogManager.registerOperation, DeltaLogManager.relative_append,
        AssocList.lookup_insertOrAssign, h, if_true]
    · refine ⟨r, e, (DeltaLogManager.live_registerOperation_of_ne ?_).mpr hlive, rfl⟩
      rw [DeltaLogManager.relative_append]
      rintro rfl
      cases h.symm.trans (DeltaLogManager.live_iff_lookup.mp hlive).1

/-- Registering a deleted file removes it from the snapshot. -/
theorem liveFiles_registerDelete {log : DeltaLogManager} {entry e : DeltaLogEntry}
    (h : log.Live p e) (hpath : path = log.basePath ++ p) :
    (log.registerOperation .delete path entry false).liveFiles = log.liveFiles.erase path := by
  have hdeleted : p ∉ (log.registerOperation .delete path entry false).getList :=
    (h.registerDelete hpath).not_mem_getList
  subst hpath
  ext q
  rw [Finset.mem_erase, mem_liveFiles, mem_liveFiles]
  constructor
  · rintro ⟨r, e, hlive, rfl⟩
    have hr : r ≠ p := by
      rintro rfl
      exact hdeleted (DeltaLogManager.mem_getList.mpr ⟨e, hlive⟩)
    rw [DeltaLogManager.live_registerOperation_of_ne
      (by rwa [DeltaLogManager.relative_append])] at hlive
    exact ⟨fun h ↦ hr (List.append_cancel_left h), r, e, hlive, rfl⟩
  · rintro ⟨hq, r, e, hlive, rfl⟩
    refine ⟨r, e, (DeltaLogManager.live_registerOperation_of_ne ?_).mpr hlive, rfl⟩
    rw [DeltaLogManager.relative_append]
    exact fun h ↦ hq (h ▸ rfl)

end Registrations

end LakeVilla.Keys

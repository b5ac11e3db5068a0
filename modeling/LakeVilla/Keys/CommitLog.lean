import LakeVilla.Keys.RemovalRun

/-!
# The commit log of a table

`build_commit_log` writes an add for every valid created file and a remove for every valid deleted
file. A later reader replays these actions as the next version.

Of an action only what decides about live files is kept: its path, as it is read back from JSON by
`GetString`, and whether it adds or removes. Whether `createOperationAddEntry` throws for the
statistics of a file is left out.
-/

namespace LakeVilla.Keys

open ByteString

variable {σ ρ : Type}

/-- An add or remove action of a log file, as it is read back. -/
structure FileAction where
  path : ByteString
  operation : DLOperation
  size : ℤ
  deriving DecidableEq, Repr

/-- Its entry, in a version -/
def FileAction.entry (a : FileAction) (version : ℤ) : DeltaLogEntry where
  operation := a.operation
  size := a.size
  version := version

namespace TableStats

/-- The files for which an action is written. -/
def validFiles (files : List (ByteString × FileStats)) : List FileStats :=
  (validPaths files).filterMap fun path ↦ files.lookup path

/-- The path of a file in its action, as it is read back. -/
def loggedPath (tbl : TableStats) (path : ByteString) : ByteString :=
  cString (tbl.deltaLog.relative path)

/-- The action that `createOperationAddEntry` writes. -/
def addAction (tbl : TableStats) (file : FileStats) : FileAction where
  path := tbl.loggedPath file.path
  operation := .add
  size := if file.size < 0 then 0 else file.size

/-- The action that `createOperationDeleteEntry` writes. -/
def removeAction (tbl : TableStats) (file : FileStats) : FileAction where
  path := tbl.loggedPath file.path
  operation := .delete
  size := if file.size < 0 then -1 else file.size

/-- `build_commit_log` -/
def buildCommitLog (tbl : TableStats) : List FileAction :=
  (validFiles tbl.createdFiles).map tbl.addAction ++
    (validFiles tbl.deletedFiles).map tbl.removeAction

end TableStats

namespace DeltaLogManager

/-- The merge of two actions in `register_action`. -/
def mergeAction (current entry : DeltaLogEntry) : DeltaLogEntry :=
  if entry.version < current.version ∨ (entry.version = current.version ∧
      (current.operation = .delete ∨ entry.operation ≠ .delete)) then current
  else if entry.operation = .delete ∧ entry.size < 0 ∧ current.operation = .add then
    { entry with size := current.size, partitionValues := current.partitionValues }
  else entry

/-- `register_action` -/
def registerAction (log : DeltaLogManager) (path : ByteString) (entry : DeltaLogEntry) :
    DeltaLogManager where
  basePath := log.basePath
  files := AssocList.insertOrAssign log.files path <|
    match log.files.lookup path with
    | some current => mergeAction current entry
    | none => entry
  nodup := AssocList.nodup_insertOrAssign log.nodup _ _

/-- The actions of a version are replayed. -/
def replay (log : DeltaLogManager) (version : ℤ) (actions : List FileAction) : DeltaLogManager :=
  actions.foldl (fun log a ↦ log.registerAction a.path (a.entry version)) log

/-! ## Replaying -/

section Replay

variable {log : DeltaLogManager} {path k : ByteString} {entry : DeltaLogEntry} {version : ℤ}
  {actions : List FileAction}

theorem lookup_registerAction_self :
    (log.registerAction path entry).files.lookup path = some (match log.files.lookup path with
      | some current => mergeAction current entry
      | none => entry) := by
  rw [registerAction, AssocList.lookup_insertOrAssign, if_pos rfl]

theorem lookup_registerAction_of_ne (h : k ≠ path) :
    (log.registerAction path entry).files.lookup k = log.files.lookup k := by
  rw [registerAction, AssocList.lookup_insertOrAssign, if_neg h]

/-- What an entry of the snapshot says after some actions of a new version. -/
inductive Replayed (log : DeltaLogManager) (version : ℤ) (actions : List FileAction)
    (k : ByteString) : Option DeltaLogEntry → Prop
  | kept : (∀ a ∈ actions, a.path ≠ k) → Replayed log version actions k (log.files.lookup k)
  | added {e : DeltaLogEntry} : (∃ a ∈ actions, a.path = k ∧ a.operation = .add) →
      (∀ a ∈ actions, a.path = k → a.operation = .add) → e.operation = .add →
      e.version = version → Replayed log version actions k (some e)
  | removed {e : DeltaLogEntry} : (∃ a ∈ actions, a.path = k ∧ a.operation = .delete) →
      e.operation = .delete → e.version = version → Replayed log version actions k (some e)

theorem mergeAction_newer {current : DeltaLogEntry} (entry : DeltaLogEntry)
    (h : current.version < entry.version) :
    (mergeAction current entry).operation = entry.operation ∧
      (mergeAction current entry).version = entry.version := by
  unfold mergeAction
  rw [if_neg (by omega)]
  split_ifs
  · exact ⟨rfl, rfl⟩
  · exact ⟨rfl, rfl⟩

/-- In one version a remove beats an add. -/
theorem mergeAction_same {current : DeltaLogEntry} (entry : DeltaLogEntry)
    (h : entry.version = current.version) (hcurrent : current.operation = .add)
    (hentry : entry.operation = .delete) :
    (mergeAction current entry).operation = .delete ∧
      (mergeAction current entry).version = entry.version := by
  have hnot : ¬(entry.version < current.version ∨ (entry.version = current.version ∧
      (current.operation = .delete ∨ entry.operation ≠ .delete))) := by
    simp [h, hcurrent, hentry]
  unfold mergeAction
  rw [if_neg hnot]
  split_ifs
  · exact ⟨hentry, rfl⟩
  · exact ⟨hentry, rfl⟩

theorem mergeAction_kept {current entry : DeltaLogEntry} (h : entry.version = current.version)
    (hkept : current.operation = .delete ∨ entry.operation ≠ .delete) :
    mergeAction current entry = current := if_pos (.inr ⟨h, hkept⟩)

theorem Replayed.step {a : FileAction} {log' : DeltaLogManager}
    (h : Replayed log version actions k (log'.files.lookup k))
    (hversion : ∀ e, log.files.lookup k = some e → e.version < version)
    (ha : a.operation = .add ∨ a.operation = .delete) :
    Replayed log version (actions ++ [a]) k
      ((log'.registerAction a.path (a.entry version)).files.lookup k) := by
  have hlast : a ∈ actions ++ [a] := List.mem_append_right _ List.mem_cons_self
  have hmono : ∀ op, (∃ b ∈ actions, b.path = k ∧ b.operation = op) →
      ∃ b ∈ actions ++ [a], b.path = k ∧ b.operation = op :=
    fun op ⟨b, hb, h⟩ ↦ ⟨b, List.mem_append_left _ hb, h⟩
  have hforall : ∀ P : FileAction → Prop, (∀ b ∈ actions, P b) → P a →
      ∀ b ∈ actions ++ [a], P b := by
    intro P hP hPa b hb
    rcases List.mem_append.mp hb with hb | hb
    · exact hP b hb
    · rwa [List.mem_singleton.mp hb]
  by_cases hk : a.path = k
  · subst hk
    rw [lookup_registerAction_self]
    generalize hcurrent : log'.files.lookup a.path = current at h
    -- A new entry of the version of the action.
    have hnew : ∀ e : DeltaLogEntry, e.operation = a.operation → e.version = version →
        (∀ b ∈ actions, b.path ≠ a.path) →
          Replayed log version (actions ++ [a]) a.path (some e) := by
      intro e hop hv hnone
      rcases ha with ha | ha
      · refine .added ⟨a, hlast, rfl, ha⟩ (hforall _ ?_ fun _ ↦ ha) (hop.trans ha) hv
        exact fun b hb hpath ↦ absurd hpath (hnone b hb)
      · exact .removed ⟨a, hlast, rfl, ha⟩ (hop.trans ha) hv
    cases h with
    | kept hnone =>
      cases hlookup : log.files.lookup a.path with
      | none => exact hnew _ rfl rfl hnone
      | some e =>
        obtain ⟨hop, hv⟩ := mergeAction_newer (a.entry version) (hversion e hlookup)
        exact hnew _ hop hv hnone
    | @added e hadd hall hop hv =>
      rcases ha with ha | ha
      · have hkept : mergeAction e (a.entry version) = e :=
          mergeAction_kept hv.symm (.inr fun h ↦ nomatch ha.symm.trans h)
        refine .added (hmono _ hadd) (hforall _ hall fun _ ↦ ha) ?_ ?_
        · exact (congrArg DeltaLogEntry.operation hkept).trans hop
        · exact (congrArg DeltaLogEntry.version hkept).trans hv
      · obtain ⟨hop', hv'⟩ := mergeAction_same (a.entry version) hv.symm hop ha
        exact .removed ⟨a, hlast, rfl, ha⟩ hop' hv'
    | @removed e hremove hop hv =>
      have hkept : mergeAction e (a.entry version) = e := mergeAction_kept hv.symm (.inl hop)
      refine .removed (hmono _ hremove) ?_ ?_
      · exact (congrArg DeltaLogEntry.operation hkept).trans hop
      · exact (congrArg DeltaLogEntry.version hkept).trans hv
  · rw [lookup_registerAction_of_ne (Ne.symm hk)]
    generalize log'.files.lookup k = current at h
    cases h with
    | kept hnone => exact .kept (hforall _ hnone hk)
    | added hadd hall hop hv =>
      exact .added (hmono _ hadd) (hforall _ hall fun h ↦ absurd h hk) hop hv
    | removed hremove hop hv => exact .removed (hmono _ hremove) hop hv

theorem replayed_replay (hversion : ∀ e, log.files.lookup k = some e → e.version < version)
    (hactions : ∀ a ∈ actions, a.operation = .add ∨ a.operation = .delete) :
    Replayed log version actions k ((log.replay version actions).files.lookup k) := by
  induction actions using List.reverseRecOn with
  | nil => exact .kept fun _ ha ↦ nomatch ha
  | append_singleton actions a ih =>
    have hstep := (ih fun b hb ↦ hactions b (List.mem_append_left _ hb)).step hversion
      (hactions a (List.mem_append_right _ List.mem_cons_self))
    rwa [replay, List.foldl_append]

theorem mem_getList_iff_lookup : k ∈ log.getList ↔
    ∃ e, log.files.lookup k = some e ∧ e.operation = .add := by
  rw [mem_getList]
  exact exists_congr fun _ ↦ live_iff_lookup

/-- After the replay a file is live if it was live or is added, and is not removed. -/
theorem mem_getList_replay (hversion : ∀ e, log.files.lookup k = some e → e.version < version)
    (hactions : ∀ a ∈ actions, a.operation = .add ∨ a.operation = .delete) :
    k ∈ (log.replay version actions).getList ↔
      (k ∈ log.getList ∨ ∃ a ∈ actions, a.path = k ∧ a.operation = .add) ∧
        ¬∃ a ∈ actions, a.path = k ∧ a.operation = .delete := by
  have h := replayed_replay hversion hactions
  rw [mem_getList_iff_lookup, mem_getList_iff_lookup]
  generalize (log.replay version actions).files.lookup k = result at h
  cases h with
  | kept hnone =>
    have hnot : ∀ op, ¬∃ a ∈ actions, a.path = k ∧ a.operation = op :=
      fun op ⟨a, ha, hpath, _⟩ ↦ hnone a ha hpath
    rw [or_iff_left (hnot _), and_iff_left (hnot _)]
  | @added e hadd hall hop hv =>
    refine iff_of_true ⟨e, rfl, hop⟩ ⟨.inr hadd, ?_⟩
    rintro ⟨a, ha, hpath, hdelete⟩
    cases (hall a ha hpath).symm.trans hdelete
  | @removed e hremove hop hv =>
    refine iff_of_false ?_ fun h ↦ h.2 hremove
    rintro ⟨e', he', hadd⟩
    obtain rfl := Option.some.inj he'
    cases hadd.symm.trans hop

end Replay

end DeltaLogManager

/-! ## The actions of a commit -/

/-- Every file stands under its own path. -/
def Named (files : List (ByteString × FileStats)) : Prop :=
  ∀ path s, files.lookup path = some s → s.path = path

theorem Named.insertOrAssign {files : List (ByteString × FileStats)} (h : Named files)
    (s : FileStats) : Named (AssocList.insertOrAssign files s.path s) := by
  intro path s' hs'
  rw [AssocList.lookup_insertOrAssign] at hs'
  split_ifs at hs' with hpath
  · obtain rfl := Option.some.inj hs'
    exact hpath.symm
  · exact h path s' hs'

theorem Named.invalidate {files : List (ByteString × FileStats)} (h : Named files)
    (path : ByteString) : Named (AssocList.modify files path ({ · with valid := false })) := by
  intro path' s' hs'
  rw [AssocList.lookup_modify] at hs'
  split_ifs at hs' with hpath
  · obtain ⟨s, hs, rfl⟩ := Option.map_eq_some_iff.mp hs'
    exact (h path s hs).trans hpath.symm
  · exact h path' s' hs'

namespace TableStats

variable {tbl : TableStats} {k : ByteString}

theorem mem_validFiles {files : List (ByteString × FileStats)} (h : Named files) {s : FileStats} :
    s ∈ validFiles files ↔ s.path ∈ validPaths files ∧ files.lookup s.path = some s := by
  rw [validFiles, List.mem_filterMap]
  constructor
  · rintro ⟨path, hpath, hs⟩
    obtain rfl := h path s hs
    exact ⟨hpath, hs⟩
  · rintro ⟨hpath, hs⟩
    exact ⟨s.path, hpath, hs⟩

theorem operation_of_mem_buildCommitLog {a : FileAction} (ha : a ∈ tbl.buildCommitLog) :
    a.operation = .add ∨ a.operation = .delete := by
  rcases List.mem_append.mp ha with ha | ha
  · obtain ⟨s, -, rfl⟩ := List.mem_map.mp ha
    exact .inl rfl
  · obtain ⟨s, -, rfl⟩ := List.mem_map.mp ha
    exact .inr rfl

theorem exists_validPath {files : List (ByteString × FileStats)} (h : Named files)
    {f : ByteString → ByteString} :
    (∃ s ∈ validFiles files, f s.path = k) ↔ ∃ path ∈ validPaths files, f path = k := by
  constructor
  · rintro ⟨s, hs, rfl⟩
    exact ⟨s.path, ((mem_validFiles h).mp hs).1, rfl⟩
  · rintro ⟨path, hpath, rfl⟩
    obtain ⟨-, s, hs, -⟩ := mem_validPaths.mp hpath
    obtain rfl := h path s hs
    exact ⟨s, (mem_validFiles h).mpr ⟨hpath, hs⟩, rfl⟩

theorem exists_add (h : Named tbl.createdFiles) :
    (∃ a ∈ tbl.buildCommitLog, a.path = k ∧ a.operation = .add) ↔
      ∃ path ∈ validPaths tbl.createdFiles, tbl.loggedPath path = k := by
  rw [← exists_validPath h]
  constructor
  · rintro ⟨a, ha, hpath, hadd⟩
    rcases List.mem_append.mp ha with ha | ha
    · obtain ⟨s, hs, rfl⟩ := List.mem_map.mp ha
      exact ⟨s, hs, hpath⟩
    · obtain ⟨s, -, rfl⟩ := List.mem_map.mp ha
      cases hadd
  · rintro ⟨s, hs, hpath⟩
    exact ⟨_, List.mem_append_left _ (List.mem_map.mpr ⟨s, hs, rfl⟩), hpath, rfl⟩

theorem exists_remove (h : Named tbl.deletedFiles) :
    (∃ a ∈ tbl.buildCommitLog, a.path = k ∧ a.operation = .delete) ↔
      ∃ path ∈ validPaths tbl.deletedFiles, tbl.loggedPath path = k := by
  rw [← exists_validPath h]
  constructor
  · rintro ⟨a, ha, hpath, hdelete⟩
    rcases List.mem_append.mp ha with ha | ha
    · obtain ⟨s, -, rfl⟩ := List.mem_map.mp ha
      cases hdelete
    · obtain ⟨s, hs, rfl⟩ := List.mem_map.mp ha
      exact ⟨s, hs, hpath⟩
  · rintro ⟨s, hs, hpath⟩
    exact ⟨_, List.mem_append_right _ (List.mem_map.mpr ⟨s, hs, rfl⟩), hpath, rfl⟩

end TableStats

end LakeVilla.Keys

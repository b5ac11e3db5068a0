import LakeVilla.Keys.VersionReading

/-!
# The text of a commit

The lines that `build_commit_log` writes show the actions of the commit. What applying such lines
makes of a snapshot is the replay of these actions, up to the fields of an entry that do not decide
about live files.
-/

namespace LakeVilla.Keys

open ByteString

variable {json : JsonText} {document : Json} {docs : List Json} {a : FileAction}
  {actions : List FileAction} {state : LogState} {version : ℤ}

/-! ## Snapshots with the same files -/

/-- The fields of an entry that decide about live files. -/
def DeltaLogEntry.core (e : DeltaLogEntry) : DeltaLogEntry where
  operation := e.operation
  size := e.size
  version := e.version

theorem DeltaLogEntry.core_eq_iff {e e' : DeltaLogEntry} : e.core = e'.core ↔
    e.operation = e'.operation ∧ e.size = e'.size ∧ e.version = e'.version := by
  simp [core]

theorem core_mergeAction {c c' e e' : DeltaLogEntry} (hc : c.core = c'.core)
    (he : e.core = e'.core) :
    (DeltaLogManager.mergeAction c e).core = (DeltaLogManager.mergeAction c' e').core := by
  obtain ⟨hop, hsize, hversion⟩ := DeltaLogEntry.core_eq_iff.mp hc
  obtain ⟨hop', hsize', hversion'⟩ := DeltaLogEntry.core_eq_iff.mp he
  simp only [DeltaLogManager.mergeAction, hop, hversion, hop', hsize', hversion']
  split_ifs
  · exact hc
  · exact DeltaLogEntry.core_eq_iff.mpr ⟨rfl, hsize, rfl⟩
  · exact he

namespace DeltaLogManager

/-- The same paths, with the same operations, sizes and versions. -/
structure SameFiles (log log' : DeltaLogManager) : Prop where
  basePath : log.basePath = log'.basePath
  lookup : ∀ k, (log.files.lookup k).map (·.core) = (log'.files.lookup k).map (·.core)

theorem SameFiles.refl (log : DeltaLogManager) : log.SameFiles log := ⟨rfl, fun _ ↦ rfl⟩

theorem SameFiles.registerAction {log log' : DeltaLogManager} (h : log.SameFiles log')
    {e e' : DeltaLogEntry} (he : e.core = e'.core) (path : ByteString) :
    (log.registerAction path e).SameFiles (log'.registerAction path e') := by
  refine ⟨h.basePath, fun k ↦ ?_⟩
  by_cases hk : k = path
  · subst hk
    rw [lookup_registerAction_self, lookup_registerAction_self]
    have hlookup := h.lookup k
    cases hfound : log.files.lookup k with
    | none =>
      rw [hfound, Option.map_none] at hlookup
      rw [Option.map_eq_none_iff.mp hlookup.symm]
      exact congrArg some he
    | some c =>
      rw [hfound, Option.map_some] at hlookup
      obtain ⟨c', hfound', hc⟩ := Option.map_eq_some_iff.mp hlookup.symm
      rw [hfound']
      exact congrArg some (core_mergeAction hc.symm he)
  · rw [lookup_registerAction_of_ne hk, lookup_registerAction_of_ne hk]
    exact h.lookup k

/-- Live files depend on operations only. -/
theorem SameFiles.mem_getList {log log' : DeltaLogManager} (h : log.SameFiles log')
    {k : ByteString} : k ∈ log.getList ↔ k ∈ log'.getList := by
  have hop : ∀ {log log' : DeltaLogManager}, log.SameFiles log' →
      (∃ e, log.files.lookup k = some e ∧ e.operation = .add) →
        ∃ e, log'.files.lookup k = some e ∧ e.operation = .add := by
    rintro log log' h ⟨e, he, hadd⟩
    have hlookup := h.lookup k
    rw [he, Option.map_some] at hlookup
    obtain ⟨e', he', hcore⟩ := Option.map_eq_some_iff.mp hlookup.symm
    exact ⟨e', he', (DeltaLogEntry.core_eq_iff.mp hcore).1.trans hadd⟩
  rw [mem_getList_iff_lookup, mem_getList_iff_lookup]
  exact ⟨hop h, hop ⟨h.basePath.symm, fun k ↦ (h.lookup k).symm⟩⟩

end DeltaLogManager

/-! ## Entries of actions -/

theorem DeltaLogEntry.ofStats_core (json : JsonText) (operation : DLOperation)
    (stats : Option ByteString) (size : ℤ) :
    (ofStats json operation stats size).operation = operation ∧
      (ofStats json operation stats size).size = size := by
  unfold ofStats
  cases stats with
  | none => exact ⟨rfl, rfl⟩
  | some stats =>
    dsimp only
    split_ifs
    · exact ⟨rfl, rfl⟩
    · split <;> exact ⟨rfl, rfl⟩

theorem DeltaLogEntry.int64Member_eq (action : Json) (name : ByteString) (default : ℤ) :
    int64Member action name default = (action.int64Member name).getD default := by
  unfold int64Member Json.int64Member
  cases action.member name with
  | none => rfl
  | some v =>
    cases v with
    | int n =>
      dsimp only
      split_ifs <;> rfl
    | null | bool | double | string | array | object => rfl

theorem DeltaLogEntry.core_fromAction (json : JsonText) (operation : DLOperation) (action : Json)
    (version : ℤ) : (fromAction json operation action version).core =
      { operation := operation
        size := (action.int64Member (ascii "size")).getD (-1)
        version := version } := by
  have hcore := ofStats_core json operation
  have hop : (fromAction json operation action version).operation = operation := by
    unfold fromAction
    dsimp only
    split_ifs
    · exact (hcore _ _).1
    · exact (hcore _ _).1
  have hsize : (fromAction json operation action version).size =
      int64Member action (ascii "size") (-1) := by
    unfold fromAction
    dsimp only
    split_ifs
    · exact (hcore _ _).2
    · exact (hcore _ _).2
  rw [core, hop, hsize, int64Member_eq]
  rfl

/-! ## Lines that show actions -/

/-- The document of a line shows an action of a commit. -/
inductive Shows : Json → FileAction → Prop
  | add {members : List (ByteString × Json)} {a : FileAction} :
      a.operation = .add → (Json.object members).stringMember (ascii "path") = some a.path →
      ((Json.object members).int64Member (ascii "size")).getD (-1) = a.size →
      (Json.object members).member (ascii "deletionVector") = none →
      Shows (.object [(ascii "add", .object members)]) a
  | remove {members : List (ByteString × Json)} {a : FileAction} :
      a.operation = .delete → (Json.object members).stringMember (ascii "path") = some a.path →
      ((Json.object members).int64Member (ascii "size")).getD (-1) = a.size →
      Shows (.object [(ascii "remove", .object members)]) a

namespace Shows

theorem member_marker (h : Shows document a) : document.member (ascii "marker") = none := by
  cases h with
  | add => rw [member_single, if_neg (by decide)]
  | remove => rw [member_single, if_neg (by decide)]

theorem lakeVillaLine (h : Shows document a) (lakeVilla : Bool) :
    Keys.lakeVillaLine lakeVilla document = lakeVilla := by
  have hchild : document.child (ascii "commitInfo") = none := by
    apply child_eq_none
    cases h with
    | add => rw [member_single, if_neg (by decide)]
    | remove => rw [member_single, if_neg (by decide)]
  rw [Keys.lakeVillaLine, hchild]

theorem hasAction (h : Shows document a) : document.hasAction = true := by
  cases h with
  | add =>
    rw [Json.hasAction, member_single, if_pos rfl]
    rfl
  | remove =>
    rw [Json.hasAction, member_single, member_single, if_neg (by decide), if_pos rfl]
    rfl

theorem removedPath (h : Shows document a) :
    document.removedPath = if a.operation = .delete then some a.path else none := by
  cases h with
  | add hop =>
    rw [Json.removedPath, child_single, if_neg fun h ↦ absurd h.1 (by decide), hop]
    rfl
  | remove hop hpath =>
    rw [Json.removedPath, child_single, if_pos ⟨rfl, rfl⟩, if_pos hop]
    exact hpath

theorem operation (h : Shows document a) : a.operation = .add ∨ a.operation = .delete := by
  cases h with
  | add hop => exact .inl hop
  | remove hop => exact .inr hop

/-- The line registers its action. -/
theorem applyLogAction (h : Shows document a) (json : JsonText) (state : LogState) (version : ℤ) :
    ∃ e : DeltaLogEntry, e.core = (a.entry version).core ∧
      state.applyLogAction json document version =
        { state with log := state.log.registerAction a.path e } := by
  cases h with
  | @add members a hop hpath hsize hvector =>
    refine ⟨.fromAction json .add (.object members) version, ?_, ?_⟩
    · rw [DeltaLogEntry.core_fromAction, hsize, ← hop]
      rfl
    · have hother : ∀ name, name ≠ ascii "add" →
          (Json.object [(ascii "add", .object members)]).child name = none := fun name hne ↦ by
        rw [child_single, if_neg fun h ↦ hne h.1]
      have hchild : (Json.object [(ascii "add", .object members)]).child (ascii "add") =
          some (.object members) := by
        rw [child_single, if_pos ⟨rfl, rfl⟩]
      simp only [LogState.applyLogAction, hother (ascii "metaData") (by decide),
        hother (ascii "protocol") (by decide), hother (ascii "txn") (by decide),
        hother (ascii "domainMetadata") (by decide), hother (ascii "remove") (by decide), hchild,
        LogState.applyAdd, hvector, LogState.register, hpath]
  | @remove members a hop hpath hsize =>
    refine ⟨.fromAction json .delete (.object members) version, ?_, ?_⟩
    · rw [DeltaLogEntry.core_fromAction, hsize, ← hop]
      rfl
    · have hother : ∀ name, name ≠ ascii "remove" →
          (Json.object [(ascii "remove", .object members)]).child name = none := fun name hne ↦ by
        rw [child_single, if_neg fun h ↦ hne h.1]
      have hchild : (Json.object [(ascii "remove", .object members)]).child (ascii "remove") =
          some (.object members) := by
        rw [child_single, if_pos ⟨rfl, rfl⟩]
      simp only [LogState.applyLogAction, hother (ascii "metaData") (by decide),
        hother (ascii "protocol") (by decide), hother (ascii "txn") (by decide),
        hother (ascii "domainMetadata") (by decide), hother (ascii "add") (by decide), hchild,
        LogState.register, hpath]

end Shows

/-! ## Lists of such lines -/

theorem exists_foldl_applyLogAction (h : List.Forall₂ Shows docs actions) {log : DeltaLogManager}
    (hlog : state.log.SameFiles log) :
    ∃ log' : DeltaLogManager, log'.SameFiles (log.replay version actions) ∧
      docs.foldl (fun state d ↦ state.applyLogAction json d version) state =
        { state with log := log' } := by
  induction h generalizing state log with
  | nil => exact ⟨state.log, hlog, rfl⟩
  | @cons d a docs actions hd _ ih =>
    obtain ⟨e, hcore, heq⟩ := hd.applyLogAction json state version
    rw [List.foldl_cons, heq]
    exact ih (hlog.registerAction hcore a.path)

theorem any_hasAction (h : List.Forall₂ Shows docs actions) :
    docs.any (·.hasAction) = !actions.isEmpty := by
  cases h with
  | nil => rfl
  | cons hd _ =>
    rw [List.any_cons, hd.hasAction]
    rfl

theorem foldl_lakeVillaLine (h : List.Forall₂ Shows docs actions) (lakeVilla : Bool) :
    docs.foldl lakeVillaLine lakeVilla = lakeVilla := by
  induction h with
  | nil => rfl
  | cons hd _ ih => rw [List.foldl_cons, hd.lakeVillaLine, ih]

theorem exists_removedPath_iff (h : List.Forall₂ Shows docs actions) {path : ByteString} :
    (∃ d ∈ docs, d.removedPath = some path) ↔
      ∃ a ∈ actions, a.operation = .delete ∧ a.path = path := by
  induction h with
  | nil => simp
  | @cons d a docs actions hd _ ih =>
    rw [List.exists_mem_cons_iff, List.exists_mem_cons_iff, ih, hd.removedPath]
    refine or_congr_left ?_
    split_ifs with hop
    · simp [hop]
    · simp [hop]

theorem member_marker_of_shows (h : List.Forall₂ Shows docs actions) :
    ∀ d ∈ docs, d.member (ascii "marker") = none := by
  induction h with
  | nil => simp
  | cons hd _ ih => exact List.forall_mem_cons.mpr ⟨hd.member_marker, ih⟩

/-! ## The line with `commitInfo` -/

namespace CommitInfo

variable (info : CommitInfo) (nowMs : ℤ)

theorem child_document (name : ByteString) (hname : name ≠ ascii "commitInfo") :
    (info.document nowMs).child name = none := by
  rw [document, child_single, if_neg fun h ↦ hname h.1]

theorem member_marker : (info.document nowMs).member (ascii "marker") = none := by
  rw [document, member_single, if_neg (by decide)]

theorem hasAction : (info.document nowMs).hasAction = false :=
  hasAction_single (by decide) (by decide)

theorem removedPath : (info.document nowMs).removedPath = none := by
  rw [Json.removedPath, info.child_document nowMs _ (by decide)]
  rfl

theorem applyLogAction : state.applyLogAction json (info.document nowMs) version = state := by
  simp only [LogState.applyLogAction, info.child_document nowMs (ascii "metaData") (by decide),
    info.child_document nowMs (ascii "protocol") (by decide),
    info.child_document nowMs (ascii "txn") (by decide),
    info.child_document nowMs (ascii "domainMetadata") (by decide),
    info.child_document nowMs (ascii "add") (by decide),
    info.child_document nowMs (ascii "remove") (by decide)]

/-- LakeVilla is the engine. -/
theorem lakeVillaLine (lakeVilla : Bool) :
    Keys.lakeVillaLine lakeVilla (info.document nowMs) = true := by
  rw [Keys.lakeVillaLine, document, child_single, if_pos ⟨rfl, rfl⟩]
  rfl

end CommitInfo

/-! ## Reading a commit -/

/-- A reader that waits or parses gets the replay of the actions; the classification says whether
there are any. -/
theorem read_commit (version : ℤ) (h : List.Forall₂ Shows docs actions) {info : CommitInfo}
    {nowMs : ℤ} {text : ByteString} (htext : documents json text = info.document nowMs :: docs)
    (tbl : WaitedTable) :
    classifyText json text = (if actions = [] then .empty else .lakeVillaCommit) ∧
      ∃ log' entries, log'.SameFiles (tbl.state.log.replay version actions) ∧
        parseVersionText json version tbl.state text =
          { state := { tbl.state with log := log' } } ∧
        waitText json text = .finished entries ∧
        entries.foldl (WaitedTable.apply json version) tbl =
          { state := { tbl.state with log := log' }
            concurrentChange := tbl.concurrentChange || !actions.isEmpty
            concurrentRemoves := tbl.concurrentRemoves ∪
              ((actions.filter (·.operation = .delete)).map (·.path)).toFinset } := by
  have hmember : ∀ d ∈ info.document nowMs :: docs, d.member (ascii "marker") = none :=
    List.forall_mem_cons.mpr ⟨info.member_marker nowMs, member_marker_of_shows h⟩
  have hmarker : ∀ d ∈ info.document nowMs :: docs, ¬d.Marker := fun d hd ↦
    not_marker (hmember d hd)
  obtain ⟨log', hsame, hfold⟩ : ∃ log' : DeltaLogManager,
      log'.SameFiles (tbl.state.log.replay version actions) ∧
        docs.foldl (fun state d ↦ state.applyLogAction json d version) tbl.state =
          { tbl.state with log := log' } :=
    exists_foldl_applyLogAction h (.refl tbl.state.log)
  have hstate : (info.document nowMs :: docs).foldl
      (fun state d ↦ state.applyLogAction json d version) tbl.state =
        { tbl.state with log := log' } := by
    rw [List.foldl_cons, info.applyLogAction, hfold]
  refine ⟨?_, log', info.document nowMs :: docs, hsame, ?_, ?_, ?_⟩
  · rw [classifyText, htext, classifyDocuments_of_not_marker hmember, List.any_cons,
      info.hasAction, any_hasAction h, List.foldl_cons, info.lakeVillaLine, foldl_lakeVillaLine h]
    cases actions with
    | nil => rfl
    | cons => rfl
  · rw [parseVersionText, htext, parseDocuments_of_not_marker hmarker, hstate]
  · rw [waitText, htext, waitDocuments_of_not_marker hmarker]
  · have hremoves : ((info.document nowMs :: docs).foldl (WaitedTable.apply json version)
        tbl).concurrentRemoves = tbl.concurrentRemoves ∪
          ((actions.filter (·.operation = .delete)).map (·.path)).toFinset := by
      ext path
      rw [mem_foldl_apply_concurrentRemoves, List.exists_mem_cons_iff, info.removedPath,
        exists_removedPath_iff h]
      simp [and_assoc]
    have hchange : ((info.document nowMs :: docs).foldl (WaitedTable.apply json version)
        tbl).concurrentChange = (tbl.concurrentChange || !actions.isEmpty) := by
      rw [foldl_apply_concurrentChange, List.any_cons, info.hasAction, any_hasAction h,
        Bool.false_or]
    rw [← hremoves, ← hchange, ← hstate, ← foldl_apply_state]

/-! ## What `build_commit_log` writes -/

/-- The document of an add action's line. -/
def addLine (conv : CharConv) (json : JsonText) (file : WrittenFile) (base : ByteString)
    (nowMs : ℤ) : Except StdError Json := do
  let add ← addAction conv json file base nowMs
  pure (.object [(ascii "add", add)])

/-- The documents of the lines of a commit. -/
def TableStats.commitDocuments (conv : CharConv) (json : JsonText) (tbl : TableStats)
    (transactionId : ℕ) (stats : CommitCounters) (clock : ℕ → ℤ) : Except StdError (List Json) := do
  let base := tbl.deltaLog.basePath
  let created := validFiles tbl.createdFiles
  let deleted := validFiles tbl.deletedFiles
  let adds ← (created.zipIdx 1).mapM fun file ↦
    addLine conv json file.1.written base (clock file.2)
  let removes := (deleted.zipIdx (created.length + 1)).map fun file ↦
    removeLine file.1 base (clock file.2)
  pure ((headerCommit transactionId stats).document (clock 0) :: (adds ++ removes))

theorem createOperationAddEntry_eq (conv : CharConv) (json : JsonText) (file : WrittenFile)
    (base : ByteString) (nowMs : ℤ) : createOperationAddEntry conv json file base nowMs =
      (addLine conv json file base nowMs).map json.text := by
  rw [createOperationAddEntry, addLine]
  cases addAction conv json file base nowMs with
  | error e => rfl
  | ok add => rfl

theorem mapM_map {ε α β γ : Type} (f : α → Except ε β) (g : β → γ) (l : List α) :
    l.mapM (fun x ↦ (f x).map g) = (l.mapM f).map (List.map g) := by
  induction l with
  | nil => rfl
  | cons x l ih =>
    rw [List.mapM_cons, List.mapM_cons, ih]
    cases f x with
    | error e => rfl
    | ok y =>
      cases l.mapM f with
      | error e => rfl
      | ok ys => rfl

/-- **The text of a commit** consists of its documents. -/
theorem commitText_eq (conv : CharConv) (json : JsonText) (tbl : TableStats) (transactionId : ℕ)
    (stats : CommitCounters) (clock : ℕ → ℤ) :
    tbl.commitText conv json transactionId stats clock =
      (tbl.commitDocuments conv json transactionId stats clock).map fun docs ↦
        TextLines.joinLines newline (docs.map json.text) := by
  rw [TableStats.commitText, TableStats.commitDocuments]
  simp only [createOperationAddEntry_eq, mapM_map]
  cases ((TableStats.validFiles tbl.createdFiles).zipIdx 1).mapM fun file ↦
      addLine conv json file.1.written tbl.deltaLog.basePath (clock file.2) with
  | error e => rfl
  | ok adds =>
    refine congrArg Except.ok ?_
    dsimp only
    rw [List.map_cons, TextLines.joinLines, List.map_append, List.map_map]
    rfl

/-- The members of an add action: statistics only if they are known. -/
theorem addAction_ok {conv : CharConv} {file : WrittenFile} {base : ByteString} {nowMs : ℤ}
    {add : Json} (h : addAction conv json file base nowMs = .ok add) :
    ∃ stats : Option ByteString, add = .object
      ([(ascii "path", .string (relativePath file.path base)),
        (ascii "partitionValues", .object []),
        (ascii "size", .int (if file.size < 0 then 0 else file.size)),
        (ascii "modificationTime", .int nowMs),
        (ascii "dataChange", .bool true)] ++
        stats.toList.map fun text ↦ (ascii "stats", .string text)) := by
  rw [addAction] at h
  by_cases hstats : 0 ≤ file.stats.numRecords ∨ file.stats.columns ≠ []
  · rw [if_pos hstats] at h
    cases hdocument : statsDocument conv file.stats with
    | error e =>
      rw [hdocument] at h
      cases h
    | ok value =>
      rw [hdocument] at h
      exact ⟨some (json.write value), (Except.ok.inj h).symm⟩
  · rw [if_neg hstats] at h
    exact ⟨none, (Except.ok.inj h).symm⟩

theorem addLine_ok {conv : CharConv} {file : WrittenFile} {base : ByteString} {nowMs : ℤ}
    (h : addLine conv json file base nowMs = .ok document) :
    ∃ add, addAction conv json file base nowMs = .ok add ∧
      document = .object [(ascii "add", add)] := by
  rw [addLine] at h
  cases hadd : addAction conv json file base nowMs with
  | error e =>
    rw [hadd] at h
    cases h
  | ok add =>
    rw [hadd] at h
    exact ⟨add, rfl, (Except.ok.inj h).symm⟩

theorem int64Member_of_member {action : Json} {name : ByteString} {n : ℤ}
    (h : action.member name = some (.int n)) (hn : InInt64 n) :
    action.int64Member name = some n := by
  rw [Json.int64Member, h]
  exact if_pos hn

/-- **Add actions are read back.** -/
theorem shows_addLine {conv : CharConv} {tbl : TableStats} {s : FileStats} {nowMs : ℤ}
    (hsize : InInt64 s.size)
    (h : addLine conv json s.written tbl.deltaLog.basePath nowMs = .ok document) :
    Shows document (tbl.addAction s) := by
  obtain ⟨add, hadd, rfl⟩ := addLine_ok h
  obtain ⟨stats, rfl⟩ := addAction_ok hadd
  have hsize' : InInt64 (tbl.addAction s).size := by
    simp only [TableStats.addAction]
    split_ifs
    · decide
    · exact hsize
  refine .add rfl rfl ?_ ?_
  · rw [int64Member_of_member rfl hsize']
    rfl
  · cases stats with
    | none => rfl
    | some text => rfl

/-- **Remove actions are read back.** -/
theorem shows_removeLine {tbl : TableStats} {s : FileStats} {nowMs : ℤ} (hsize : InInt64 s.size) :
    Shows (removeLine s tbl.deltaLog.basePath nowMs) (tbl.removeAction s) := by
  refine .remove rfl rfl ?_
  by_cases hknown : 0 ≤ s.size
  · rw [if_pos hknown, int64Member_of_member (n := s.size) rfl hsize, TableStats.removeAction,
      if_neg (not_lt.mpr hknown)]
    rfl
  · rw [if_neg hknown, TableStats.removeAction, if_pos (not_le.mp hknown)]
    rfl

/-! ### Documents that are read back -/

theorem CommitInfo.exact_document {info : CommitInfo} (htxnId : info.txnId.Exact)
    (hbytes : info.numOutputBytes.Exact) (hrows : info.numOutputRows.Exact)
    (hfiles : info.numFiles.Exact) (nowMs : ℤ) : (info.document nowMs).Exact := by
  have hmetrics : (Json.object [(ascii "numOutputBytes", info.numOutputBytes),
      (ascii "numOutputRows", info.numOutputRows), (ascii "numFiles", info.numFiles)]).Exact :=
    exact_object (by simp [hbytes, hrows, hfiles])
  have hparameters : (Json.object [(ascii "mode", .string info.mode),
      (ascii "partitionBy", .string (ascii "[]"))]).Exact :=
    exact_object (by simp [exact_string])
  refine exact_object (List.forall_mem_singleton.mpr (exact_object ?_))
  simp [htxnId, hmetrics, hparameters, exact_string, exact_int, exact_bool]

theorem exact_headerCommit (transactionId : ℕ) (stats : CommitCounters) (nowMs : ℤ) :
    ((headerCommit transactionId stats).document nowMs).Exact :=
  CommitInfo.exact_document (exact_int _) (exact_int _) (exact_int _) (exact_int _) nowMs

theorem exact_addLine {conv : CharConv} {file : WrittenFile} {base : ByteString} {nowMs : ℤ}
    (h : addLine conv json file base nowMs = .ok document) : document.Exact := by
  obtain ⟨add, hadd, rfl⟩ := addLine_ok h
  obtain ⟨stats, rfl⟩ := addAction_ok hadd
  have hempty : (Json.object []).Exact := exact_object (by simp)
  refine exact_object (List.forall_mem_singleton.mpr (exact_object ?_))
  cases stats <;> simp [hempty, exact_string, exact_int, exact_bool]

theorem exact_removeLine (file : FileStats) (base : ByteString) (nowMs : ℤ) :
    (removeLine file base nowMs).Exact := by
  have hempty : (Json.object []).Exact := exact_object (by simp)
  refine exact_object (List.forall_mem_singleton.mpr (exact_object ?_))
  by_cases hknown : 0 ≤ file.size
  · simp [hknown, hempty, exact_string, exact_int, exact_bool]
  · simp [hknown, hempty, exact_string, exact_int, exact_bool]

theorem map_fst_zipIdx {α β : Type} (g : α → β) (i : ℕ) (l : List α) :
    (l.zipIdx i).map (fun x ↦ g x.1) = l.map g := by
  calc (l.zipIdx i).map (fun x ↦ g x.1) = ((l.zipIdx i).map Prod.fst).map g := by
        rw [List.map_map]
        rfl
    _ = l.map g := by rw [List.zipIdx_map_fst]

theorem forall_mem_of_mapM_ok {ε α β : Type} {f : α → Except ε β} {P : β → Prop} {l : List α}
    {ys : List β} (h : l.mapM f = .ok ys) (hP : ∀ x y, f x = .ok y → P y) : ∀ y ∈ ys, P y := by
  replace h := mapM_ok h
  induction h with
  | nil => simp
  | cons hxy _ ih => exact List.forall_mem_cons.mpr ⟨hP _ _ hxy, ih⟩

/-- The sizes of the files that a commit names are those of a C++ `int64_t`. -/
def TableStats.SizesInRange (tbl : TableStats) : Prop :=
  ∀ s ∈ validFiles tbl.createdFiles ++ validFiles tbl.deletedFiles, InInt64 s.size

/-- **The lines of a commit** are the header and the actions. -/
theorem commitDocuments_ok {conv : CharConv} {tbl : TableStats} {transactionId : ℕ}
    {stats : CommitCounters} {clock : ℕ → ℤ} (hsizes : tbl.SizesInRange)
    (h : tbl.commitDocuments conv json transactionId stats clock = .ok docs) :
    ∃ rest, docs = (headerCommit transactionId stats).document (clock 0) :: rest ∧
      List.Forall₂ Shows rest tbl.buildCommitLog ∧
        ∀ d ∈ docs, d.Exact ∧ d.isObject = true := by
  rw [TableStats.commitDocuments] at h
  dsimp only at h
  cases hadds : ((TableStats.validFiles tbl.createdFiles).zipIdx 1).mapM fun file ↦
      addLine conv json file.1.written tbl.deltaLog.basePath (clock file.2) with
  | error e =>
    rw [hadds] at h
    cases h
  | ok adds =>
    rw [hadds] at h
    obtain rfl := (Except.ok.inj h).symm
    have hlines := (List.forall₂_and_left _ _).mpr
      ⟨fun file (hfile : file ∈ _) ↦ List.fst_mem_of_mem_zipIdx hfile, mapM_ok hadds⟩
    refine ⟨_, rfl, List.rel_append ?_ ?_, List.forall_mem_cons.mpr
      ⟨⟨exact_headerCommit .., rfl⟩, List.forall_mem_append.mpr ⟨?_, ?_⟩⟩⟩
    · rw [← map_fst_zipIdx tbl.addAction 1, List.forall₂_map_right_iff]
      refine (hlines.imp fun file line hfile ↦ ?_).flip
      exact shows_addLine (hsizes _ (List.mem_append_left _ hfile.1)) hfile.2
    · rw [← map_fst_zipIdx tbl.removeAction, List.forall₂_map_left_iff,
        List.forall₂_map_right_iff, List.forall₂_same]
      intro file hfile
      exact shows_removeLine
        (hsizes _ (List.mem_append_right _ (List.fst_mem_of_mem_zipIdx hfile)))
    · exact forall_mem_of_mapM_ok hadds fun file line hline ↦ by
        obtain ⟨add, -, rfl⟩ := addLine_ok hline
        exact ⟨exact_addLine hline, rfl⟩
    · rintro _ hd
      obtain ⟨file, -, rfl⟩ := List.mem_map.mp hd
      exact ⟨exact_removeLine .., rfl⟩

end LakeVilla.Keys

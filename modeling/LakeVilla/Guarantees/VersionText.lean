import LakeVilla.Guarantees.NumericStatistics
import LakeVilla.Keys.CommitText

/-!
# What the text of a version says to its readers

A transaction learns about others only from the texts of log versions, and three functions read
them. A version must not be a running marker for one of them and a commit for another, and a
version that LakeVilla wrote must be read as what was written.
-/

namespace LakeVilla.Keys

open ByteString

variable {json : JsonText}

/-! ## Any text -/

/-- **The readers agree**, whatever engine wrote the text. A marker that `parse_logentries2` finds
is one for `wait_for_marker`, and one for `classify_version`. If `wait_for_marker` does not go on
waiting, it and `parse_logentries2` get the same snapshot; the classification then is a marker (of
another form), or says whether there are changes. -/
theorem readers_agree (json : JsonText) (text : ByteString) (version : ℤ) (tbl : WaitedTable) :
    (∀ txnid, (parseVersionText json version tbl.state text).dependency = some txnid →
        ∃ deadline, waitText json text = .running deadline) ∧
      (∀ deadline, waitText json text = .running deadline → classifyText json text = .marker) ∧
      ∀ entries, waitText json text = .finished entries →
        parseVersionText json version tbl.state text =
            { state := (entries.foldl (WaitedTable.apply json version) tbl).state } ∧
          (entries.foldl (WaitedTable.apply json version) tbl).concurrentChange =
            (tbl.concurrentChange || entries.any (·.hasAction)) ∧
          (classifyText json text ≠ .marker →
            (classifyText json text = .empty ↔ entries.any (·.hasAction) = false)) := by
  refine ⟨fun txnid h ↦ ?_, fun deadline h ↦ ?_, fun entries h ↦ ?_⟩
  · exact exists_running_iff.mpr (exists_marker_of_dependency h)
  · obtain ⟨d, hd, hmarker⟩ := exists_running_iff.mp ⟨deadline, h⟩
    refine classifyDocuments_of_marker ⟨d, hd, ?_⟩
    by_contra hmember
    exact not_marker (Option.not_isSome_iff_eq_none.mp hmember) hmarker
  · obtain ⟨hmarker, rfl⟩ := finished_iff.mp h
    refine ⟨?_, foldl_apply_concurrentChange tbl, fun hclass ↦ ?_⟩
    · rw [parseVersionText, parseDocuments_of_not_marker hmarker, foldl_apply_state]
    · have hmember : ∀ d ∈ documents json text, d.member (ascii "marker") = none := by
        intro d hd
        by_contra hsome
        exact hclass (classifyDocuments_of_marker ⟨d, hd, Option.isSome_iff_ne_none.mpr hsome⟩)
      rw [classifyText, classifyDocuments_of_not_marker hmember, Bool.false_or]
      split_ifs with hany hlakeVilla
      · simp [hany]
      · simp [hany]
      · simpa using hany

/-! ## Reserved and released versions -/

theorem exact_headerMarker (transactionId : ℕ) (nowMs : ℤ) :
    ((headerMarker transactionId).document nowMs).Exact :=
  CommitInfo.exact_document (exact_int _) (exact_string _) (exact_string _) (exact_string _) nowMs

theorem exact_markerEntry (workingDir : ByteString) (dependencies : List ℕ) (transactionId : ℕ)
    (deadlineMs : ℤ) : (markerEntry workingDir dependencies transactionId deadlineMs).Exact := by
  have harray : (Json.array (dependencies.map fun d : ℕ ↦ .int (d : ℤ))).Exact := by
    refine exact_array fun value hvalue ↦ ?_
    obtain ⟨d, -, rfl⟩ := List.mem_map.mp hvalue
    exact exact_int _
  refine exact_object (List.forall_mem_singleton.mpr (exact_object ?_))
  simp [harray, exact_string, exact_int, exact_bool]

theorem exact_emptyCommitInfo (mode : ByteString) (nowMs : ℤ) :
    ((emptyCommitInfo mode).document nowMs).Exact :=
  CommitInfo.exact_document (exact_string _) (exact_int _) (exact_int _) (exact_int _) nowMs

theorem documents_markerText {workingDir : ByteString} {dependencies : List ℕ} {transactionId : ℕ}
    {deadlineMs nowMs : ℤ} (hheader : json.Line ((headerMarker transactionId).document nowMs))
    (hentry : json.Line (markerEntry workingDir dependencies transactionId deadlineMs)) :
    documents json (markerText json workingDir dependencies transactionId deadlineMs nowMs) =
      [(headerMarker transactionId).document nowMs,
        markerEntry workingDir dependencies transactionId deadlineMs] := by
  have hdocs : ∀ d ∈ [(headerMarker transactionId).document nowMs,
      markerEntry workingDir dependencies transactionId deadlineMs], d.Readable json :=
    List.forall_mem_cons.mpr ⟨⟨hheader, exact_headerMarker .., rfl⟩,
      List.forall_mem_singleton.mpr ⟨hentry, exact_markerEntry .., rfl⟩⟩
  simpa only [markerText, TextLines.joinLines, List.map_cons, List.map_nil, List.flatMap_cons,
    List.flatMap_nil, List.append_nil] using documents_joinLines hdocs

theorem documents_emptyCommitText {mode : ByteString} {nowMs : ℤ}
    (h : json.Line ((emptyCommitInfo mode).document nowMs)) :
    documents json (emptyCommitText json mode nowMs) = [(emptyCommitInfo mode).document nowMs] := by
  have hdocs : ∀ d ∈ [(emptyCommitInfo mode).document nowMs], d.Readable json :=
    List.forall_mem_singleton.mpr ⟨h, exact_emptyCommitInfo .., rfl⟩
  simpa only [emptyCommitText, TextLines.joinLines, List.map_cons, List.map_nil,
    List.flatMap_nil, List.append_nil] using documents_joinLines hdocs

theorem applyLogAction_markerEntry (json : JsonText) (workingDir : ByteString)
    (dependencies : List ℕ) (transactionId : ℕ) (deadlineMs version : ℤ) (state : LogState) :
    state.applyLogAction json (markerEntry workingDir dependencies transactionId deadlineMs)
      version = state := by
  have hother : ∀ name, name ≠ ascii "marker" →
      (markerEntry workingDir dependencies transactionId deadlineMs).child name = none :=
    fun name hne ↦ by rw [markerEntry, child_single, if_neg fun h ↦ hne h.1]
  simp only [LogState.applyLogAction, hother (ascii "metaData") (by decide),
    hother (ascii "protocol") (by decide), hother (ascii "txn") (by decide),
    hother (ascii "domainMetadata") (by decide), hother (ascii "add") (by decide),
    hother (ascii "remove") (by decide)]

/-- **A reserved version is a running marker to every reader**: the deadline is that of the lease,
the transaction is found, and nothing is applied. -/
theorem marker_text_read_back (json : JsonText) (workingDir : ByteString) (dependencies : List ℕ)
    (transactionId : ℕ) (deadlineMs nowMs version : ℤ) (state : LogState)
    (hid : transactionId < 2 ^ 32 - 1) (hdeadline : InInt64 deadlineMs)
    (hheader : json.Line ((headerMarker transactionId).document nowMs))
    (hentry : json.Line (markerEntry workingDir dependencies transactionId deadlineMs)) :
    let text := markerText json workingDir dependencies transactionId deadlineMs nowMs
    classifyText json text = .marker ∧
      waitText json text = .running (some deadlineMs) ∧
        parseVersionText json version state text = ⟨state, true, some transactionId⟩ := by
  have hdocs := documents_markerText hheader hentry
  have hplain := not_marker ((headerMarker transactionId).member_marker nowMs)
  have hmember : (markerEntry workingDir dependencies transactionId deadlineMs).member
      (ascii "marker") = some (markerFields workingDir dependencies transactionId deadlineMs) := by
    rw [markerEntry, member_single, if_pos rfl]
  have hchild : (markerEntry workingDir dependencies transactionId deadlineMs).child
      (ascii "marker") = some (markerFields workingDir dependencies transactionId deadlineMs) := by
    rw [markerEntry, child_single, if_pos ⟨rfl, rfl⟩]
  refine ⟨?_, ?_, ?_⟩
  · rw [classifyText, hdocs]
    exact classifyDocuments_of_marker
      ⟨_, List.mem_cons_of_mem _ List.mem_cons_self, Option.isSome_iff_exists.mpr ⟨_, hmember⟩⟩
  · rw [waitText, hdocs, waitDocuments, child_of_not_marker hplain]
    have hwait := waitDocuments_of_marker (List.forall_mem_nil _) hchild []
    rw [List.nil_append, int64Member_of_member rfl hdeadline] at hwait
    rw [hwait]
  · have hparse : parseMarker (markerEntry workingDir dependencies transactionId deadlineMs) =
        (true, some transactionId) := by
      have hint : (0 : ℤ) ≤ transactionId ∧ (transactionId : ℤ) < 2 ^ 32 - 1 := by omega
      have hrunning : (markerFields workingDir dependencies transactionId deadlineMs).member
          (ascii "running") = some (.bool true) := rfl
      have htxnid : (markerFields workingDir dependencies transactionId deadlineMs).member
          (ascii "txnid") = some (.int transactionId) := rfl
      simp only [parseMarker, hchild, hrunning, htxnid, Option.isSome_some, if_true, if_pos hint,
        Int.toNat_natCast]
    rw [parseVersionText, hdocs, parseDocuments, parseMarker_of_not_marker hplain,
      CommitInfo.applyLogAction, parseDocuments, hparse, applyLogAction_markerEntry]
    rfl

/-- **A released version changes nothing for any reader**, and is empty. -/
theorem empty_commit_text_read_back (json : JsonText) (mode : ByteString) (nowMs version : ℤ)
    (tbl : WaitedTable) (h : json.Line ((emptyCommitInfo mode).document nowMs)) :
    let text := emptyCommitText json mode nowMs
    classifyText json text = .empty ∧
      parseVersionText json version tbl.state text = { state := tbl.state } ∧
        ∃ entries, waitText json text = .finished entries ∧
          entries.foldl (WaitedTable.apply json version) tbl = tbl := by
  have hdocs := documents_emptyCommitText h
  have hplain := not_marker ((emptyCommitInfo mode).member_marker nowMs)
  refine ⟨(read_commit version .nil hdocs tbl).1, ?_, [(emptyCommitInfo mode).document nowMs], ?_,
    ?_⟩
  · rw [parseVersionText, hdocs, parseDocuments, parseMarker_of_not_marker hplain,
      CommitInfo.applyLogAction]
    rfl
  · rw [waitText, hdocs]
    exact waitDocuments_of_not_marker (List.forall_mem_singleton.mpr hplain)
  · rw [List.foldl_cons, List.foldl_nil, WaitedTable.apply, CommitInfo.applyLogAction,
      CommitInfo.hasAction, CommitInfo.removedPath, Bool.or_false]

/-! ## Commits -/

/-- **A commit is read as its actions**: `build_commit_log` replayed as the next version, the change
and the removed paths for the conflict detection, and no marker. -/
theorem commit_text_read_back (conv : CharConv) (json : JsonText) (tbl : TableStats)
    (transactionId : ℕ) (stats : CommitCounters) (clock : ℕ → ℤ) (text : ByteString) (version : ℤ)
    (before : WaitedTable) (hsizes : tbl.SizesInRange)
    (htext : tbl.commitText conv json transactionId stats clock = .ok text)
    (hjson : ∀ docs, tbl.commitDocuments conv json transactionId stats clock = .ok docs →
      ∀ d ∈ docs, json.Line d) :
    classifyText json text =
        (if tbl.buildCommitLog = [] then .empty else .lakeVillaCommit) ∧
      ∃ log' entries, log'.SameFiles (before.state.log.replay version tbl.buildCommitLog) ∧
        parseVersionText json version before.state text =
          { state := { before.state with log := log' } } ∧
        waitText json text = .finished entries ∧
        entries.foldl (WaitedTable.apply json version) before =
          { state := { before.state with log := log' }
            concurrentChange := before.concurrentChange || !tbl.buildCommitLog.isEmpty
            concurrentRemoves := before.concurrentRemoves ∪
              ((tbl.buildCommitLog.filter (·.operation = .delete)).map (·.path)).toFinset } := by
  rw [commitText_eq] at htext
  cases hdocs : tbl.commitDocuments conv json transactionId stats clock with
  | error e =>
    rw [hdocs] at htext
    cases htext
  | ok docs =>
    rw [hdocs] at htext
    obtain rfl := Except.ok.inj htext
    obtain ⟨rest, hcons, hshows, hexact⟩ := commitDocuments_ok hsizes hdocs
    have hread : documents json (TextLines.joinLines newline (docs.map json.text)) =
        (headerCommit transactionId stats).document (clock 0) :: rest := by
      rw [documents_joinLines fun d hd ↦
        ⟨hjson docs hdocs d hd, (hexact d hd).1, (hexact d hd).2⟩, hcons]
    exact read_commit version hshows hread before

/-! ## The contents that transactions exchange -/

/-- What `classify_version` says about a content. -/
def contentClass : Content → Tx.LogVersion
  | .marker _ _ => .marker
  | .commit c =>
    if c.actions.isEmpty then .empty else if c.lakeVilla then .lakeVillaCommit else .foreignCommit
  | _ => .empty

theorem classifyVersion_eq (path : Key) : Tx.classifyVersion path =
    Tx.read path >>= fun o ↦ pure (o.elim .missing fun o ↦ contentClass o.content) := by
  rw [Tx.classifyVersion]
  congr 1
  funext o
  cases o with
  | none => rfl
  | some o =>
    dsimp only [Option.elim]
    cases o.content with
    | marker => rfl
    | commit c =>
      simp only [contentClass]
      split_ifs <;> rfl
    | globalLog => rfl
    | lock => rfl

/-- An action as a line of a commit shows it, where `name` names the files. -/
def fileAction (name : DataFile → ByteString) : LakeVilla.Action → FileAction
  | .add file size => ⟨name file, .add, size⟩
  | .remove file size => ⟨name file, .delete, size⟩

/-- What the snapshot of the protocol keeps of an entry. -/
def DeltaLogEntry.toProtocol (e : DeltaLogEntry) : LakeVilla.DeltaLogEntry :=
  ⟨e.operation, e.size, e.version⟩

/-- The snapshot of the protocol has the entries of the snapshot by paths, for some files. -/
def Tracks (name : DataFile → ByteString) (files : Set DataFile) (m : LakeVilla.DeltaLogManager)
    (log : DeltaLogManager) : Prop :=
  ∀ file ∈ files, m.find file = (log.files.lookup (name file)).map (·.toProtocol)

/-- The text stands for the content. -/
inductive Represents (conv : CharConv) (json : JsonText) (name : DataFile → ByteString) :
    Content → ByteString → Prop
  | marker {workingDir : ByteString} {dependencies : List ℕ} {txnid : ℕ} {deadline nowMs : ℤ} :
      txnid < 2 ^ 32 - 1 → InInt64 deadline → json.Line ((headerMarker txnid).document nowMs) →
      json.Line (markerEntry workingDir dependencies txnid deadline) →
      Represents conv json name (.marker txnid (some deadline))
        (markerText json workingDir dependencies txnid deadline nowMs)
  | released {mode : ByteString} {nowMs : ℤ} : json.Line ((emptyCommitInfo mode).document nowMs) →
      Represents conv json name emptyCommit (emptyCommitText json mode nowMs)
  | commit {tbl : TableStats} {txnid : ℕ} {stats : CommitCounters} {clock : ℕ → ℤ}
      {text : ByteString} {actions : List LakeVilla.Action} :
      tbl.SizesInRange → tbl.commitText conv json txnid stats clock = .ok text →
      (∀ docs, tbl.commitDocuments conv json txnid stats clock = .ok docs →
        ∀ d ∈ docs, json.Line d) →
      tbl.buildCommitLog = actions.map (fileAction name) →
      Represents conv json name (.commit ⟨some txnid, true, actions⟩) text

section Tracks

variable {name : DataFile → ByteString} {files : Set DataFile} {m : LakeVilla.DeltaLogManager}
  {log log' : DeltaLogManager}

theorem Tracks.of_sameFiles (h : Tracks name files m log) (hsame : log'.SameFiles log) :
    Tracks name files m log' := by
  intro file hfile
  have hlookup := congrArg (Option.map DeltaLogEntry.toProtocol) (hsame.lookup (name file))
  rw [Option.map_map, Option.map_map] at hlookup
  rw [h file hfile]
  exact hlookup.symm

theorem toProtocol_mergeAction (current entry : DeltaLogEntry) :
    (DeltaLogManager.mergeAction current entry).toProtocol =
      LakeVilla.DeltaLogManager.mergeAction current.toProtocol entry.toProtocol := by
  unfold DeltaLogManager.mergeAction
  split_ifs with hkept hknown
  · exact (if_pos hkept).symm
  · exact ((if_neg hkept).trans (if_pos hknown)).symm
  · exact ((if_neg hkept).trans (if_neg hknown)).symm

theorem toProtocol_entry (name : DataFile → ByteString) (a : LakeVilla.Action) (v : ℕ) :
    ((fileAction name a).entry v).toProtocol = .fromAction v a := by
  cases a with
  | add file size => rfl
  | remove file size => rfl

theorem path_fileAction (name : DataFile → ByteString) (a : LakeVilla.Action) :
    (fileAction name a).path = name a.file := by
  cases a with
  | add file size => rfl
  | remove file size => rfl

theorem Tracks.registerAction (h : Tracks name files m log) (hname : Set.InjOn name files)
    {a : LakeVilla.Action} (ha : a.file ∈ files) (v : ℕ) :
    Tracks name files (m.registerAction a.file (.fromAction v a))
      (log.registerAction (fileAction name a).path ((fileAction name a).entry v)) := by
  intro file hfile
  rw [path_fileAction, LakeVilla.DeltaLogManager.find, LakeVilla.DeltaLogManager.registerAction,
    AssocList.lookup_insertOrAssign]
  by_cases heq : file = a.file
  · rw [if_pos heq, heq, DeltaLogManager.lookup_registerAction_self, h a.file ha]
    cases log.files.lookup (name a.file) with
    | none => exact congrArg some (toProtocol_entry name a v).symm
    | some current =>
      refine congrArg some ?_
      exact ((toProtocol_mergeAction current _).trans
        (congrArg (LakeVilla.DeltaLogManager.mergeAction current.toProtocol)
          (toProtocol_entry name a v))).symm
  · rw [if_neg heq,
      DeltaLogManager.lookup_registerAction_of_ne fun hpath ↦ heq (hname hfile ha hpath)]
    exact h file hfile

/-- The actions of a version keep the snapshots together. -/
theorem Tracks.applyActions (h : Tracks name files m log) (hname : Set.InjOn name files) (v : ℕ)
    {actions : List LakeVilla.Action} (hactions : ∀ a ∈ actions, a.file ∈ files) :
    Tracks name files (m.applyActions v actions) (log.replay v (actions.map (fileAction name))) := by
  have hfold : Tracks name files
      (actions.foldl (fun m a ↦ m.registerAction a.file (.fromAction v a)) m) (log.replay v (actions.map (fileAction name))) := by
    induction actions generalizing m log with
    | nil => exact h
    | cons a actions ih =>
      obtain ⟨ha, hactions⟩ := List.forall_mem_cons.mp hactions
      exact ih (h.registerAction hname ha v) hactions
  exact hfold

/-- The removed files of a commit, as paths. -/
theorem mem_removed_iff (name : DataFile → ByteString) (actions : List LakeVilla.Action)
    {path : ByteString} : path ∈ (((actions.map (fileAction name)).filter (·.operation = .delete)).map
      (·.path)).toFinset ↔ ∃ file ∈ LakeVilla.Action.removed actions, name file = path := by
  simp only [List.mem_toFinset, List.mem_map, List.mem_filter, LakeVilla.Action.removed,
    decide_eq_true_eq]
  constructor
  · rintro ⟨_, ⟨⟨a, ha, rfl⟩, hop⟩, rfl⟩
    cases a with
    | add file size => cases hop
    | remove file size => exact ⟨file, ⟨_, ⟨ha, rfl⟩, rfl⟩, rfl⟩
  · rintro ⟨_, ⟨a, ⟨ha, hremove⟩, rfl⟩, rfl⟩
    cases a with
    | add file size => cases hremove
    | remove file size => exact ⟨_, ⟨⟨_, ha, rfl⟩, rfl⟩, rfl⟩

end Tracks

/-- **The readers of a text do what the protocol does with its content**: the same class, the same
marker, and for a commit the same snapshot, change and removed files. -/
theorem represents_read_back {conv : CharConv} {name : DataFile → ByteString} {c : Content}
    {text : ByteString} {files : Set DataFile} (h : Represents conv json name c text)
    (hname : Set.InjOn name files) (hfiles : ∀ commit, c = .commit commit →
      ∀ a ∈ commit.actions, a.file ∈ files)
    (before : WaitedTable) (m : LakeVilla.DeltaLogManager) (v : ℕ)
    (htracks : Tracks name files m before.state.log) :
    classifyText json text = contentClass c ∧
      (∀ txnid deadline, c = .marker txnid deadline →
        waitText json text = .running deadline ∧
          parseVersionText json v before.state text = ⟨before.state, true, some txnid⟩) ∧
      ∀ commit, c = .commit commit → ∃ after entries,
        waitText json text = .finished entries ∧
          entries.foldl (WaitedTable.apply json v) before = after ∧
          parseVersionText json v before.state text = { state := after.state } ∧
          Tracks name files (m.applyActions v commit.actions) after.state.log ∧
          after.concurrentChange = (before.concurrentChange || !commit.actions.isEmpty) ∧
          ∀ path, path ∈ after.concurrentRemoves ↔
            path ∈ before.concurrentRemoves ∨ ∃ file ∈ commit.removes, name file = path := by
  cases h with
  | marker hid hdeadline hheader hentry =>
    obtain ⟨hclass, hwait, hparse⟩ :=
      marker_text_read_back json _ _ _ _ _ v before.state hid hdeadline hheader hentry
    refine ⟨hclass, fun txnid deadline heq ↦ ?_, fun commit heq ↦ ?_⟩
    · obtain ⟨rfl, rfl⟩ := Content.marker.inj heq
      exact ⟨hwait, hparse⟩
    · cases heq
  | released hline =>
    obtain ⟨hclass, hparse, entries, hwait, happly⟩ :=
      empty_commit_text_read_back json _ _ v before hline
    refine ⟨hclass, fun txnid deadline heq ↦ ?_, fun commit heq ↦ ?_⟩
    · cases heq
    · obtain rfl := Content.commit.inj heq
      refine ⟨before, entries, hwait, happly, hparse, htracks, (Bool.or_false _).symm, fun path ↦ ?_⟩
      simp [Commit.removes, LakeVilla.Action.removed]
  | @commit tbl _ stats clock _ actions hsizes htext hjson hlog =>
    obtain ⟨hclass, log', entries, hsame, hparse, hwait, happly⟩ :=
      commit_text_read_back conv json tbl _ stats clock _ v before hsizes htext hjson
    rw [hlog] at hclass hsame happly
    refine ⟨?_, fun txnid deadline heq ↦ ?_, fun commit heq ↦ ?_⟩
    · rw [hclass]
      cases actions with
      | nil => rfl
      | cons => rfl
    · cases heq
    · obtain rfl := Content.commit.inj heq
      refine ⟨_, entries, hwait, happly, hparse, ?_, ?_, fun path ↦ ?_⟩
      · exact (htracks.applyActions hname v (hfiles _ rfl)).of_sameFiles hsame
      · rw [List.isEmpty_map]
      · rw [Finset.mem_union, mem_removed_iff]
        rfl

/-! ## A marker, its release and a commit -/

section Sample

mutual

/-- `rapidjson::Writer`, for documents without control characters and floating-point numbers. -/
def printJson : Json → ByteString
  | .null => ascii "null"
  | .bool b => if b then ascii "true" else ascii "false"
  | .int n => toText n
  | .double _ => []
  | .string s => printString s
  | .array items => 91 :: printItems items
  | .object members => 123 :: printMembers members

def printString (s : ByteString) : ByteString :=
  34 :: (s.flatMap fun c ↦ if c = 34 ∨ c = 92 then [92, c] else [c]) ++ [34]

def printItems : List Json → ByteString
  | [] => [93]
  | [value] => printJson value ++ [93]
  | value :: items => printJson value ++ 44 :: printItems items

def printMembers : List (ByteString × Json) → ByteString
  | [] => [125]
  | [(name, value)] => printString name ++ 58 :: printJson value ++ [125]
  | (name, value) :: members =>
    printString name ++ 58 :: printJson value ++ 44 :: printMembers members

end

/-- rapidjson, for some documents. -/
def sampleReader (docs : List Json) : JsonText where
  write := printJson
  parse text := docs.find? fun d ↦ printJson d = text

theorem printMembers_ne_nil : (members : List (ByteString × Json)) → printMembers members ≠ []
  | [] => List.cons_ne_nil _ _
  | [(name, value)] => by simp [printMembers]
  | (name, value) :: _ :: _ => by simp [printMembers]

theorem sampleReader_line {docs : List Json} {members : List (ByteString × Json)}
    (hfind : docs.find? (fun d ↦ printJson d = printJson (.object members)) =
      some (.object members))
    (hplain : (printJson (.object members)).all (newline < ·) = true) :
    (sampleReader docs).Line (.object members) where
  parse_write := ⟨_, hfind, .refl _⟩
  nul_not_mem := fun h ↦ by simpa using List.all_eq_true.mp hplain 0 h
  write_ne_nil := List.cons_ne_nil _ _
  newline_not_mem := fun h ↦ by simpa using List.all_eq_true.mp hplain newline h
  one_lt_length := Nat.succ_lt_succ (List.length_pos_iff.mpr (printMembers_ne_nil members))

def sampleMarker : Json := markerEntry (ascii "w") [3] 7 100

def markerReader : JsonText := sampleReader [(headerMarker 7).document 50, sampleMarker]

theorem markerReader_header : markerReader.Line ((headerMarker 7).document 50) :=
  sampleReader_line (List.find?_cons_of_pos (decide_eq_true rfl)) (by decide +kernel)

theorem markerReader_marker : markerReader.Line sampleMarker :=
  sampleReader_line ((List.find?_cons_of_neg (by decide +kernel)).trans
    (List.find?_cons_of_pos (decide_eq_true rfl))) (by decide +kernel)

def sampleLog : DeltaLogManager where
  basePath := ascii "t/"
  files := []
  nodup := List.nodup_nil

theorem marker_text_read_back_sample :
    classifyText markerReader (markerText markerReader (ascii "w") [3] 7 100 50) = .marker :=
  (marker_text_read_back markerReader (ascii "w") [3] 7 100 50 4 { log := sampleLog } (by decide)
    (by decide) markerReader_header markerReader_marker).1

def releaseReader : JsonText := sampleReader [(emptyCommitInfo (ascii "MultiQuery")).document 60]

theorem releaseReader_line :
    releaseReader.Line ((emptyCommitInfo (ascii "MultiQuery")).document 60) :=
  sampleReader_line (List.find?_cons_of_pos (decide_eq_true rfl)) (by decide +kernel)

theorem empty_commit_text_read_back_sample :
    classifyText releaseReader (emptyCommitText releaseReader (ascii "MultiQuery") 60) = .empty :=
  (empty_commit_text_read_back releaseReader (ascii "MultiQuery") 60 4
    ⟨{ log := sampleLog }, false, ∅⟩ releaseReader_line).1

def committedTable : TableStats where
  deltaLog := sampleLog
  schema := .ok none
  createdFiles := [(ascii "t/a", { path := ascii "t/a", size := 10 })]
  deletedFiles := [(ascii "t/b", { path := ascii "t/b", size := 20 })]

def sampleAddDocument : Json :=
  .object [(ascii "add", .object
    [(ascii "path", .string (ascii "a")), (ascii "partitionValues", .object []),
      (ascii "size", .int 10), (ascii "modificationTime", .int 71),
      (ascii "dataChange", .bool true)])]

def sampleRemoveDocument : Json :=
  removeLine { path := ascii "t/b", size := 20 } (ascii "t/") 72

def commitReader : JsonText :=
  sampleReader [(headerCommit 7 {}).document 70, sampleAddDocument, sampleRemoveDocument]

theorem commitDocuments_committedTable :
    committedTable.commitDocuments conv15 commitReader 7 {} (fun i ↦ 70 + i) =
      .ok [(headerCommit 7 {}).document 70, sampleAddDocument, sampleRemoveDocument] := rfl

theorem commitReader_line :
    ∀ d ∈ [(headerCommit 7 {}).document 70, sampleAddDocument, sampleRemoveDocument],
      commitReader.Line d := by
  refine List.forall_mem_cons.mpr ⟨?_, List.forall_mem_cons.mpr ⟨?_,
    List.forall_mem_singleton.mpr ?_⟩⟩
  · exact sampleReader_line (List.find?_cons_of_pos (decide_eq_true rfl)) (by decide +kernel)
  · exact sampleReader_line ((List.find?_cons_of_neg (by decide +kernel)).trans
      (List.find?_cons_of_pos (decide_eq_true rfl))) (by decide +kernel)
  · exact sampleReader_line ((List.find?_cons_of_neg (by decide +kernel)).trans
      ((List.find?_cons_of_neg (by decide +kernel)).trans
        (List.find?_cons_of_pos (decide_eq_true rfl)))) (by decide +kernel)

def sampleText : ByteString := TextLines.joinLines newline
  ([(headerCommit 7 {}).document 70, sampleAddDocument, sampleRemoveDocument].map commitReader.text)

theorem commitText_committedTable :
    committedTable.commitText conv15 commitReader 7 {} (fun i ↦ 70 + i) = .ok sampleText := by
  rw [commitText_eq, commitDocuments_committedTable]
  rfl

theorem committedTable_sizesInRange : committedTable.SizesInRange := by
  change ∀ s ∈ TableStats.validFiles committedTable.createdFiles ++
    TableStats.validFiles committedTable.deletedFiles, InInt64 s.size
  decide

theorem line_of_committedTable (docs : List Json)
    (h : committedTable.commitDocuments conv15 commitReader 7 {} (fun i ↦ 70 + i) = .ok docs) :
    ∀ d ∈ docs, commitReader.Line d := by
  obtain rfl := Except.ok.inj (commitDocuments_committedTable.symm.trans h)
  exact commitReader_line

theorem commit_text_read_back_sample : classifyText commitReader sampleText = .lakeVillaCommit :=
  (commit_text_read_back conv15 commitReader committedTable 7 {} (fun i ↦ 70 + i) sampleText 4
    ⟨{ log := sampleLog }, false, ∅⟩ committedTable_sizesInRange commitText_committedTable
    line_of_committedTable).1.trans (if_neg (by decide))

def fileA : DataFile := ⟨some 7, 0, [], none⟩

def fileB : DataFile := ⟨none, 0, [], none⟩

def sampleName (file : DataFile) : ByteString := if file.owner = none then ascii "b" else ascii "a"

theorem represents_committedTable : Represents conv15 commitReader sampleName
    (.commit ⟨some 7, true, [.add fileA 10, .remove fileB 20]⟩) sampleText :=
  .commit committedTable_sizesInRange commitText_committedTable line_of_committedTable (by decide)

theorem injOn_sampleName : Set.InjOn sampleName {fileA, fileB} := by
  rintro f (rfl | rfl) f' (rfl | rfl) h
  · rfl
  · exact absurd h (by decide)
  · exact absurd h (by decide)
  · rfl

theorem represents_read_back_sample : classifyText commitReader sampleText = .lakeVillaCommit := by
  refine (represents_read_back represents_committedTable injOn_sampleName ?_
    ⟨{ log := sampleLog }, false, ∅⟩ {} 4 fun _ _ ↦ rfl).1
  intro commit heq
  obtain rfl := Content.commit.inj heq
  exact List.forall_mem_cons.mpr ⟨Set.mem_insert _ _,
    List.forall_mem_singleton.mpr (Set.mem_insert_of_mem _ rfl)⟩

end Sample

end LakeVilla.Keys

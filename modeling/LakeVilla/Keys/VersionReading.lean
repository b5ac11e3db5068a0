import LakeVilla.Keys.VersionText

/-!
# Reading a log version

What the three readers make of a list of documents: where each of them stops, and what it does to
the snapshot before.
-/

namespace LakeVilla.Keys

open ByteString

variable {json : JsonText} {document value : Json} {docs : List Json} {name : ByteString}
  {state : LogState} {version : ℤ}

/-! ## Lines -/

/-- What is documented of a document in a line: besides `Faithful`, its text is longer than one
character, and line ends are escaped. -/
structure JsonText.Line (json : JsonText) (document : Json) : Prop
    extends json.Faithful document where
  newline_not_mem : newline ∉ json.write document
  one_lt_length : 1 < (json.write document).length

theorem JsonText.Line.text_eq (h : json.Line document) : json.text document = json.write document :=
  cString_eq_self h.nul_not_mem

theorem JsonText.Line.parse_text (h : json.Line document) (hexact : document.Exact) :
    json.parse (cString (json.text document)) = some document := by
  obtain ⟨value, hparse, hreads⟩ := h.parse_write
  rw [h.text_eq, cString_eq_self h.nul_not_mem, hparse, hexact hreads]

/-- A document that is read back from its line. -/
structure Json.Readable (json : JsonText) (document : Json) : Prop where
  line : json.Line document
  exact : document.Exact
  isObject : document.isObject = true

/-- **The documents of a text are read back.** -/
theorem documents_joinLines (h : ∀ d ∈ docs, d.Readable json) :
    documents json (TextLines.joinLines newline (docs.map json.text)) = docs := by
  have hlines : ∀ line ∈ docs.map json.text,
      newline ∉ line ∧ line ≠ [] ∧ decide (1 < line.length) = true := by
    intro line hline
    obtain ⟨d, hd, rfl⟩ := List.mem_map.mp hline
    have hd := (h d hd).line
    rw [hd.text_eq]
    exact ⟨hd.newline_not_mem, hd.write_ne_nil, decide_eq_true hd.one_lt_length⟩
  rw [documents, TextLines.getLines_joinLines fun line hline ↦
      ⟨(hlines line hline).1, (hlines line hline).2.1⟩,
    List.filter_eq_self.mpr fun line hline ↦ (hlines line hline).2.2, List.filterMap_map]
  refine (List.filterMap_congr fun d hd ↦ ?_).trans List.filterMap_some
  rw [Function.comp_apply, (h d hd).line.parse_text (h d hd).exact,
    Option.filter_some, if_pos (h d hd).isObject]

/-! ## Documents with one member -/

theorem member_single : (Json.object [(name, value)]).member n =
    if n = name then some value else none := by
  rw [Json.member, AssocList.lookup_cons_eq]
  rfl

theorem child_single : (Json.object [(name, value)]).child n =
    if n = name ∧ value.isObject then some value else none := by
  rw [Json.child, member_single]
  split_ifs <;> simp_all

theorem child_eq_none (h : document.member name = none) : document.child name = none := by
  rw [Json.child, h, Option.filter_none]

theorem hasAction_single (hadd : ascii "add" ≠ name) (hremove : ascii "remove" ≠ name) :
    (Json.object [(name, value)]).hasAction = false := by
  rw [Json.hasAction, member_single, member_single, if_neg hadd, if_neg hremove]
  rfl

/-! ## The three loops -/

/-- A running marker for `wait_for_marker`. -/
def Json.Marker (document : Json) : Prop := (document.child (ascii "marker")).isSome = true

theorem not_marker (h : document.member (ascii "marker") = none) : ¬document.Marker := by
  rw [Json.Marker, child_eq_none h]
  exact Bool.false_ne_true

theorem child_of_not_marker (h : ¬document.Marker) : document.child (ascii "marker") = none :=
  Option.not_isSome_iff_eq_none.mp h

theorem parseMarker_of_not_marker (h : ¬document.Marker) : parseMarker document = (false, none) := by
  rw [parseMarker, child_of_not_marker h]

/-- Lines without a running marker are applied one after the other. -/
theorem parseDocuments_of_not_marker (h : ∀ d ∈ docs, ¬d.Marker) :
    parseDocuments json version state docs =
      { state := docs.foldl (fun state d ↦ state.applyLogAction json d version) state } := by
  induction docs generalizing state with
  | nil => rfl
  | cons d docs ih =>
    rw [parseDocuments, parseMarker_of_not_marker (h d List.mem_cons_self)]
    simp only [ih fun d hd ↦ h d (List.mem_cons_of_mem _ hd), Bool.false_or, List.foldl_cons]

theorem waitDocuments_of_not_marker (h : ∀ d ∈ docs, ¬d.Marker) :
    waitDocuments docs = .finished docs := by
  induction docs with
  | nil => rfl
  | cons d docs ih =>
    rw [waitDocuments, child_of_not_marker (h d List.mem_cons_self),
      ih fun d hd ↦ h d (List.mem_cons_of_mem _ hd)]

theorem waitDocuments_of_marker (hdocs : ∀ d ∈ docs, ¬d.Marker)
    (h : document.child (ascii "marker") = some value) (rest : List Json) :
    waitDocuments (docs ++ document :: rest) =
      .running (value.int64Member (ascii "deadline")) := by
  induction docs with
  | nil => rw [List.nil_append, waitDocuments, h]
  | cons d docs ih =>
    rw [List.cons_append, waitDocuments, child_of_not_marker (hdocs d List.mem_cons_self),
      ih fun d hd ↦ hdocs d (List.mem_cons_of_mem _ hd)]

/-- The wait goes on exactly if some line is a running marker. -/
theorem exists_running_iff :
    (∃ deadline, waitDocuments docs = .running deadline) ↔ ∃ d ∈ docs, d.Marker := by
  induction docs with
  | nil => simp [waitDocuments]
  | cons d docs ih =>
    by_cases hd : d.Marker
    · obtain ⟨marker, hmarker⟩ := Option.isSome_iff_exists.mp hd
      have hnone : ∀ e ∈ ([] : List Json), ¬e.Marker := List.forall_mem_nil _
      refine iff_of_true ⟨_, waitDocuments_of_marker hnone hmarker docs⟩ ?_
      exact ⟨d, List.mem_cons_self, hd⟩
    · rw [List.exists_mem_cons_iff, or_iff_right hd, ← ih, waitDocuments, child_of_not_marker hd]
      cases hwait : waitDocuments docs with
      | running deadline => simp
      | finished entries => simp

theorem finished_iff {entries : List Json} :
    waitDocuments docs = .finished entries ↔ (∀ d ∈ docs, ¬d.Marker) ∧ entries = docs := by
  constructor
  · intro h
    have hdocs : ∀ d ∈ docs, ¬d.Marker := by
      intro d hd hmarker
      obtain ⟨deadline, hrunning⟩ := exists_running_iff.mpr ⟨d, hd, hmarker⟩
      cases hrunning.symm.trans h
    rw [waitDocuments_of_not_marker hdocs] at h
    exact ⟨hdocs, (Waiting.finished.inj h).symm⟩
  · rintro ⟨hdocs, rfl⟩
    exact waitDocuments_of_not_marker hdocs

theorem foldl_apply_state (tbl : WaitedTable) :
    (docs.foldl (WaitedTable.apply json version) tbl).state =
      docs.foldl (fun state d ↦ state.applyLogAction json d version) tbl.state := by
  induction docs generalizing tbl with
  | nil => rfl
  | cons d docs ih => exact ih _

theorem foldl_apply_concurrentChange (tbl : WaitedTable) :
    (docs.foldl (WaitedTable.apply json version) tbl).concurrentChange =
      (tbl.concurrentChange || docs.any (·.hasAction)) := by
  induction docs generalizing tbl with
  | nil => exact (Bool.or_false _).symm
  | cons d docs ih =>
    rw [List.foldl_cons, ih, List.any_cons, ← Bool.or_assoc]
    rfl

theorem mem_foldl_apply_concurrentRemoves (tbl : WaitedTable) {path : ByteString} :
    path ∈ (docs.foldl (WaitedTable.apply json version) tbl).concurrentRemoves ↔
      path ∈ tbl.concurrentRemoves ∨ ∃ d ∈ docs, d.removedPath = some path := by
  induction docs generalizing tbl with
  | nil => simp
  | cons d docs ih =>
    rw [List.foldl_cons, ih, List.exists_mem_cons_iff, ← or_assoc]
    refine or_congr_left ?_
    unfold WaitedTable.apply
    cases hpath : d.removedPath with
    | none => simp
    | some path' => simp [or_comm, eq_comm]

/-- The parser stops at a transaction only where there is a running marker. -/
theorem exists_marker_of_dependency {txnid : ℕ}
    (h : (parseDocuments json version state docs).dependency = some txnid) :
    ∃ d ∈ docs, d.Marker := by
  by_contra hnone
  simp only [not_exists, not_and] at hnone
  rw [parseDocuments_of_not_marker hnone] at h
  cases h

theorem classifyDocuments_of_marker {changes lakeVilla : Bool}
    (h : ∃ d ∈ docs, (d.member (ascii "marker")).isSome = true) :
    classifyDocuments docs changes lakeVilla = .marker := by
  induction docs generalizing changes lakeVilla with
  | nil => simp at h
  | cons d docs ih =>
    rw [classifyDocuments]
    split_ifs with hd
    · rfl
    · exact ih ((List.exists_mem_cons_iff ..).mp h |>.resolve_left hd)

theorem classifyDocuments_of_not_marker {changes lakeVilla : Bool}
    (h : ∀ d ∈ docs, d.member (ascii "marker") = none) :
    classifyDocuments docs changes lakeVilla =
      if changes || docs.any (·.hasAction) then
        if docs.foldl lakeVillaLine lakeVilla then .lakeVillaCommit else .foreignCommit
      else .empty := by
  induction docs generalizing changes lakeVilla with
  | nil => rw [classifyDocuments, List.any_nil, Bool.or_false, List.foldl_nil]
  | cons d docs ih =>
    rw [classifyDocuments, h d List.mem_cons_self, ih fun d hd ↦ h d (List.mem_cons_of_mem _ hd),
      List.any_cons, List.foldl_cons, Bool.or_assoc]
    rfl

end LakeVilla.Keys

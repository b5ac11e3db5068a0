import LakeVilla.GlobalLog.Entries
import LakeVilla.Transaction.GlobalLog

/-!
# Changing one entry of the global log

Whatever the log contains, the entries of the other tables stay as they are and where they are, and
the log that is written is read back as it was meant.
-/

namespace LakeVilla.GlobalLog

open ByteString TextLines
open Sublog (newline space stoul)

/-! ## Entries -/

/-- All entries of a table, replaced by one at the place of the first (at the end if there is
none), or removed. -/
def replaceEntries {K V : Type} [DecidableEq K] (entries : List (K × V)) (path : K) :
    Option V → List (K × V)
  | none => entries.filter (·.1 ≠ path)
  | some v => entries.takeWhile (·.1 ≠ path) ++
      (path, v) :: (entries.dropWhile (·.1 ≠ path)).filter (·.1 ≠ path)

/-- The last value of a table. -/
def lastValue {K V : Type} [DecidableEq K] (entries : List (K × V)) (path : K) : Option V :=
  entries.reverse.lookup path

variable {entries : List Entry} {path text : ByteString} {version : UInt32}
  {next : Option UInt32}

/-- The model of the protocol changes the entries in the same way. -/
theorem replaceEntry_eq (entries : List (Table × ℕ)) (path : Table) (next : Option ℕ) :
    Tx.replaceEntry entries path next = replaceEntries entries path next := by
  cases next with
  | none => rfl
  | some v =>
    unfold Tx.replaceEntry replaceEntries
    by_cases hany : entries.any (·.1 = path) = true
    · exact if_pos hany
    · refine (if_neg hany).trans ?_
      have hall : ∀ e ∈ entries, decide (e.1 ≠ path) = true := fun e he ↦
        decide_eq_true fun hpath ↦ hany (List.any_eq_true.mpr ⟨e, he, decide_eq_true hpath⟩)
      have htake : entries.takeWhile (·.1 ≠ path) = entries := List.takeWhile_eq_self_iff.mpr hall
      have hdrop : entries.dropWhile (·.1 ≠ path) = [] := List.dropWhile_eq_nil_iff.mpr hall
      have hfilter : entries.filter (·.1 ≠ path) = entries := List.filter_eq_self.mpr hall
      simp only [htake, hdrop, hfilter, List.filter_nil]

theorem currentVersion_eq (entries : List Entry) (path : ByteString) :
    currentVersion entries path = lastValue entries path := by
  induction entries using List.reverseRecOn with
  | nil => rfl
  | append_singleton entries e ih =>
    obtain ⟨p, v⟩ := e
    unfold currentVersion lastValue at ih ⊢
    rw [List.foldl_append, ih, List.reverse_append, List.reverse_singleton,
      List.singleton_append, AssocList.lookup_cons_eq]
    simp only [List.foldl_cons, List.foldl_nil, eq_comm]

/-! ## Lines -/

/-- **A line is read back.** -/
theorem parseGlobalLine_globalLine (hpath : path ≠ []) (version : UInt32) :
    parseGlobalLine (globalLine path version) = some (path, version) := by
  have hspace : space ∉ decimal version.toNat :=
    fun h ↦ Sublog.ne_of_mem_decimal h rfl rfl
  obtain ⟨c, p, rfl⟩ := List.exists_cons_of_ne_nil hpath
  have h64 : version.toNat < 2 ^ 64 := version.toNat_lt.trans (by decide)
  unfold parseGlobalLine globalLine
  rw [splitAtLast_append hspace]
  simp only [Sublog.stoul_decimal h64, Option.map_some, UInt32.ofNat_toNat]

/-- An entry that stands on a line of its own. -/
def Writable (e : Entry) : Prop := e.1 ≠ [] ∧ newline ∉ e.1

theorem writable_of_mem_decode {e : Entry} (h : e ∈ decode text) : Writable e := by
  obtain ⟨line, hline, hparse⟩ := List.mem_filterMap.mp h
  have hnewline := newline_not_mem_of_mem_getLines hline
  unfold parseGlobalLine at hparse
  split at hparse
  · cases hparse
  · cases hparse
  · next c p number hsplit =>
    obtain ⟨n, -, rfl⟩ := Option.map_eq_some_iff.mp hparse
    refine ⟨List.cons_ne_nil _ _, fun hmem ↦ hnewline ?_⟩
    rw [splitAtLast_sound hsplit]
    exact List.mem_append_left _ hmem

def lineOf (e : Entry) : ByteString := globalLine e.1 e.2

theorem newline_not_mem_lineOf {e : Entry} (h : Writable e) : newline ∉ lineOf e := by
  intro hmem
  rcases List.mem_append.mp hmem with hmem | hmem
  · exact h.2 hmem
  · rcases List.mem_cons.mp hmem with hmem | hmem
    · cases hmem
    · exact Sublog.ne_of_mem_decimal hmem rfl rfl

/-- **A log is read back.** -/
theorem decode_unlines (h : ∀ e ∈ entries, Writable e) :
    decode (unlines newline (entries.map lineOf)) = entries := by
  have hlines : ∀ line ∈ entries.map lineOf, newline ∉ line := by
    intro line hline
    obtain ⟨e, he, rfl⟩ := List.mem_map.mp hline
    exact newline_not_mem_lineOf (h e he)
  rw [decode, getLines_unlines hlines, List.filterMap_map]
  calc entries.filterMap (parseGlobalLine ∘ lineOf)
      = entries.filterMap some := List.filterMap_congr fun e he ↦
        parseGlobalLine_globalLine (h e he).1 e.2
    _ = entries := List.filterMap_some

/-! ## The content -/

/-- The entries of the table are passed over. -/
theorem writeContent_others {found : Bool} (h : next = none ∨ found = true) :
    writeContent path next found entries =
      unlines newline ((entries.filter (·.1 ≠ path)).map lineOf) := by
  induction entries with
  | nil =>
    unfold writeContent
    split
    · simp at h
    · rfl
  | cons e entries ih =>
    unfold writeContent
    by_cases he : e.1 ≠ path
    · rw [if_pos he, ih, List.filter_cons_of_pos (by simpa using he)]
      simp [unlines, lineOf]
    · rw [if_neg he, List.filter_cons_of_neg (by simpa using he)]
      split
      · simp at h
      · exact ih

theorem writeContent_eq : writeContent path next false entries =
    unlines newline ((replaceEntries entries path next).map lineOf) := by
  cases next with
  | none => exact writeContent_others (.inl rfl)
  | some v =>
    induction entries with
    | nil => simp [writeContent, replaceEntries, unlines, lineOf]
    | cons e entries ih =>
      unfold writeContent
      by_cases he : e.1 ≠ path
      · rw [if_pos he, ih]
        simp [replaceEntries, unlines, lineOf, he]
      · have hpath : e.1 = path := not_not.mp he
        have hothers : writeContent path (some v) true entries =
            unlines newline ((entries.filter (·.1 ≠ path)).map lineOf) :=
          writeContent_others (.inr rfl)
        rw [if_neg he]
        simp [hothers, replaceEntries, unlines, lineOf, hpath]

theorem writable_replaceEntries (h : ∀ e ∈ entries, Writable e) (hpath : path ≠ [])
    (hnewline : newline ∉ path) : ∀ e ∈ replaceEntries entries path next, Writable e := by
  intro e he
  cases next with
  | none => exact h e (List.mem_filter.mp he).1
  | some v =>
    rcases List.mem_append.mp he with he | he
    · exact h e (List.takeWhile_sublist _ |>.subset he)
    · rcases List.mem_cons.mp he with rfl | he
      · exact ⟨hpath, hnewline⟩
      · exact h e ((List.dropWhile_sublist _).subset (List.mem_filter.mp he).1)

theorem mem_writeAttempts {answers : Answers} {content content' : ByteString} {attempt n : ℕ}
    (h : content' ∈ (writeAttempts answers content attempt n).2) : content' = content := by
  induction n generalizing attempt with
  | zero => cases h
  | succ n ih =>
    unfold writeAttempts at h
    split at h
    · exact List.mem_singleton.mp h
    · rcases List.mem_cons.mp h with h | h
      · exact h
      · exact ih h

/-- **Only the entry of the table changes.** -/
theorem global_entry_update (answers : Answers) (storageRetries : ℕ) (path : ByteString)
    (hpath : path ≠ []) (hnewline : newline ∉ path) (update : Option UInt32 → Option UInt32) :
    (∀ content ∈ (updateGlobalEntry answers storageRetries path update).2, ∃ text,
      answers.text = some text ∧
      decode content = replaceEntries (decode text) path (update (lastValue (decode text) path))) ∧
    (∀ text, answers.text = some text →
      update (lastValue (decode text) path) = lastValue (decode text) path →
      updateGlobalEntry answers storageRetries path update = (true, [])) ∧
    ∀ version : UInt32, parseGlobalLine (globalLine path version) = some (path, version) := by
  refine ⟨fun content hcontent ↦ ?_, fun text htext hsame ↦ ?_,
    parseGlobalLine_globalLine hpath⟩
  · unfold updateGlobalEntry at hcontent
    cases htext : answers.text with
    | none =>
      rw [htext] at hcontent
      cases hcontent
    | some text =>
      refine ⟨text, rfl, ?_⟩
      simp only [htext] at hcontent
      split at hcontent
      · cases hcontent
      · obtain rfl := mem_writeAttempts hcontent
        rw [writeContent_eq, currentVersion_eq, decode_unlines]
        exact writable_replaceEntries (fun _ he ↦ writable_of_mem_decode he) hpath hnewline
  · unfold updateGlobalEntry
    simp only [htext, currentVersion_eq]
    exact if_pos hsame

/-- A log with an invalid line and two entries of one table, whose path has spaces and digits. -/
theorem global_entry_update_sample :
    decode (ascii "a/b 1 3\nx\nc 5\na/b 1 4\n") =
        [(ascii "a/b 1", 3), (ascii "c", 5), (ascii "a/b 1", 4)] ∧
      ∀ content ∈ (updateGlobalEntry ⟨true, some (ascii "a/b 1 3\nx\nc 5\na/b 1 4\n"), fun _ ↦ true⟩
          3 (ascii "a/b 1") fun v ↦ v.map (· + 1)).2,
        decode content = [(ascii "a/b 1", 5), (ascii "c", 5)] := by
  have hdecode : decode (ascii "a/b 1 3\nx\nc 5\na/b 1 4\n") =
      [(ascii "a/b 1", 3), (ascii "c", 5), (ascii "a/b 1", 4)] := by decide +kernel
  refine ⟨hdecode, fun content hcontent ↦ ?_⟩
  obtain ⟨text, htext, h⟩ :=
    (global_entry_update _ _ _ (by decide) (by decide) _).1 content hcontent
  obtain rfl := Option.some.inj htext
  rw [h, hdecode]
  decide +kernel

end LakeVilla.GlobalLog

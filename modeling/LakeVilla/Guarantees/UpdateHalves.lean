import LakeVilla.Guarantees.KeyRemoval
import LakeVilla.Keys.UpdateProtocol

/-!
# The halves of an update do not disturb each other

Whatever the order of the steps, the remover leaves what `removeFile` leaves alone, and the adder
adds its file. The live rows and the rows of the commit are therefore the rows of the other keys and
the new rows, unless the removal loses rows.
-/

namespace LakeVilla.Keys

open ByteString Concurrency

variable {σ ρ : Type} {out : Outside σ ρ} {own : ByteString} {prev : ℕ} {st : State σ ρ}
  {c : KeyColumn} {key : ByteString} {rows : DataTable σ ρ}

/-! ## Both halves -/

/-- What holds when a half has returned. -/
def Returned (out : Outside σ ρ) (own : ByteString) (prev : ℕ) (st : State σ ρ) (key : ByteString)
    (rows : DataTable σ ρ) (i : Half) (ok : Bool) (s : Shared σ ρ) : Prop :=
  match i with
  | .remover => (removeFile out true st key (some prev)).ok = ok ∧
      (removeFile out true st key (some prev)).state = s.state.without own
  | .adder => ok = true → ∃ data stats, out.conform rows = some data ∧ stats.valid = true ∧
      s.state.ownFile own = { st.ownFile own with
        entry := some (TableStats.createdEntry stats), created := some stats, stored := some data }

theorem halves_safe (hcol : st.table.firstColumn = some c) (hnew : st.NewFile own)
    (hnames : ∀ n, st.asked ≤ n → out.newName n ≠ own) :
    Safe (sem out own) (protocol own prev) (fun i a ↦ Returned out own prev st key rows i a.1)
      (halves out c key prev rows st) where
  shared h := absurd hnew.notLogged h
  client i := by
    have hinv : (protocol own prev).inv { state := st, mutex := none } := fun h ↦
      absurd hnew.notLogged h
    cases i with
    | remover =>
      refine wp.mono (Removes.removeHalf hcol hnames _ hinv ⟨hnew.without_eq_self, False.elim⟩) ?_
      rintro ⟨removed, ⟨⟩⟩ s - ⟨v, ⟨hok, hstate⟩, hview, -⟩
      exact ⟨hok, hstate.trans hview.symm⟩
    | adder => exact Adds.addHalf hnew.notLogged hnew.notDeleted _ hinv rfl

/-- The rows of the key are the new rows, and the others are as before. -/
structure Updated (arrow : Arrow σ) (c : KeyColumn) (key : ByteString) (new : List (Row σ ρ))
    (before after : Multiset (Row σ ρ)) : Prop where
  keyRows : after.filter (·.HasKey arrow c key) = ↑new
  others : (after.filter fun r ↦ ¬r.HasKey arrow c key) =
    before.filter fun r ↦ ¬r.HasKey arrow c key

section Rows

variable {arrow : Arrow σ} {new : List (Row σ ρ)} {before kept after lost : Multiset (Row σ ρ)}

theorem filter_eq_zero_of_le (h : kept ≤ before.filter fun r ↦ ¬r.HasKey arrow c key) :
    kept.filter (·.HasKey arrow c key) = 0 := by
  refine Multiset.filter_eq_nil.mpr fun r hr ↦ ?_
  exact (Multiset.mem_filter.mp (Multiset.mem_of_le h hr)).2

/-- The rows are updated if nothing is lost. -/
theorem updated_iff (hnew : ∀ r ∈ new, r.HasKey arrow c key) (hafter : kept + ↑new = after)
    (hkept : kept + lost = before.filter fun r ↦ ¬r.HasKey arrow c key) :
    Updated arrow c key new before after ↔ lost = 0 := by
  have hle : kept ≤ before.filter fun r ↦ ¬r.HasKey arrow c key := hkept ▸ Multiset.le_add_right _ _
  have hkeptKey : kept.filter (·.HasKey arrow c key) = 0 := filter_eq_zero_of_le hle
  have hkeptOthers : (kept.filter fun r ↦ ¬r.HasKey arrow c key) = kept :=
    Multiset.filter_eq_self.mpr fun r hr ↦ (Multiset.mem_filter.mp (Multiset.mem_of_le hle hr)).2
  have hnewKey : (↑new : Multiset (Row σ ρ)).filter (·.HasKey arrow c key) = ↑new :=
    Multiset.filter_eq_self.mpr hnew
  have hnewOthers : ((↑new : Multiset (Row σ ρ)).filter fun r ↦ ¬r.HasKey arrow c key) = 0 :=
    Multiset.filter_eq_nil.mpr fun r hr ↦ not_not.mpr (hnew r hr)
  have hkey : after.filter (·.HasKey arrow c key) = ↑new := by
    rw [← hafter, Multiset.filter_add, hkeptKey, hnewKey, zero_add]
  have hothers : (after.filter fun r ↦ ¬r.HasKey arrow c key) = kept := by
    rw [← hafter, Multiset.filter_add, hkeptOthers, hnewOthers, add_zero]
  rw [← left_eq_add (a := kept), hkept]
  constructor
  · rintro ⟨-, h⟩
    exact hothers.symm.trans h
  · intro h
    exact ⟨hkey, hothers.trans h⟩

end Rows

/-- **Concurrent halves of an update.** In every run in which both halves succeed, the snapshot and
the commit then hold the new rows and those of the other keys, unless a live file shows its only
row, a null, as the key. -/
theorem update_halves_iff {version : Finset ByteString}
    {w : World Half Unit (Action.Response (σ := σ) (ρ := ρ)) (Shared σ ρ) (Bool × Unit)}
    (hcol : st.table.firstColumn = some c) (hvalid : st.table.Valid out.arrow c st.content)
    (hfresh : st.FreshNames out) (hkeeps : out.KeepsRows) (hnew : st.NewFile own)
    (hnames : ∀ n, st.asked ≤ n → out.newName n ≠ own) (hbase : st.table.deltaLog.basePath ≠ [])
    (hagrees : st.table.Agrees version)
    (hprev : ∀ path, skipped st.table.createdFiles (some prev) path = false)
    (hrows : ∀ r ∈ rows.rows, r.HasKey out.arrow c key)
    (hrun : Reachable (sem out own) (halves out c key prev rows st) w)
    (hremover : w.client .remover = .ret (true, ())) (hadder : w.client .adder = .ret (true, ())) :
    Updated out.arrow c key rows.rows st.liveRows w.shared.state.liveRows ∧
        Updated out.arrow c key rows.rows st.liveRows
          (rowsIn w.shared.state.content (w.shared.state.table.committedFiles version)) ↔
      ∀ path e, st.table.deltaLog.Live path e →
        ¬NullShownAsKey out.arrow c key (st.content (st.table.deltaLog.basePath ++ path)) e := by
  have hsafe := (halves_safe hcol hnew hnames).reachable hrun
  obtain ⟨hok, hothers⟩ := hsafe.ret hremover
  obtain ⟨data, stats, hconform, hstats, hown⟩ := hsafe.ret hadder rfl
  have hpath : w.shared.state.table.fullPath own = st.table.fullPath own :=
    congrArg OwnFile.path hown
  have hentry : w.shared.state.table.deltaLog.files.lookup own =
      some (TableStats.createdEntry stats) := congrArg OwnFile.entry hown
  have hcontent : w.shared.state.content (w.shared.state.table.fullPath own) = data :=
    congrArg (·.getD ⟨[]⟩) (congrArg OwnFile.stored hown)
  have hafter : (w.shared.state.without own).liveRows + ↑rows.rows = w.shared.state.liveRows := by
    rw [← State.liveRows_without w.shared.state hentry rfl, hcontent, hkeeps rows data hconform]
  have hkept : (w.shared.state.without own).liveRows +
      ↑(st.table.lostRows out.arrow c key (some prev) st.content) =
        st.liveRows.filter fun r ↦ ¬r.HasKey out.arrow c key := by
    rw [← hothers, removeFile_rows hcol hvalid hfresh hkeeps hok, survivors_eq_filter hprev]
    rfl
  have hcommit : w.shared.state.table.Agrees version := by
    have hrest := removeFile_agrees hcol hfresh hkeeps hbase hagrees hok
    rw [hothers] at hrest
    refine agrees_of_without hrest (DeltaLogManager.live_iff_lookup.mpr ⟨hentry, rfl⟩)
      (congrArg OwnFile.created hown) hstats
      ((congrArg OwnFile.deleted hown).trans hnew.notDeleted) ?_
    rw [hpath]
    exact List.append_ne_nil_of_left_ne_nil hbase own
  have hrowsIn : rowsIn w.shared.state.content (w.shared.state.table.committedFiles version) =
      w.shared.state.liveRows := by
    rw [hcommit]
    exact rowsIn_liveFiles _ _
  rw [hrowsIn, and_self, updated_iff hrows hafter hkept, Multiset.coe_eq_zero,
    lostRows_eq_nil_iff hvalid]
  constructor
  · intro h path e hlive
    exact h path e hlive (hprev _)
  · intro h path e hlive _
    exact h path e hlive

/-! ## Sample runs -/

/-- Both halves have returned true. -/
def bothSucceeded
    (w : World Half Unit (Action.Response (σ := σ) (ρ := ρ)) (Shared σ ρ) (Bool × Unit)) : Bool :=
  match w.client .remover, w.client .adder with
  | .ret (true, ()), .ret (true, ()) => true
  | _, _ => false

theorem bothSucceeded_iff
    {w : World Half Unit (Action.Response (σ := σ) (ρ := ρ)) (Shared σ ρ) (Bool × Unit)} :
    bothSucceeded w = true ↔
      w.client .remover = .ret (true, ()) ∧ w.client .adder = .ret (true, ()) := by
  unfold bothSucceeded
  split
  · next hremover hadder => exact iff_of_true rfl ⟨hremover, hadder⟩
  · next h =>
    refine iff_of_false (fun h ↦ nomatch h) ?_
    rintro ⟨hremover, hadder⟩
    exact h hremover hadder

/-- An update of the key `a` to one row. The adder comes first; then the remover takes the given
number of steps. -/
def sampleRun (st : State Unit Unit) (steps : ℕ) :
    Option (World Half Unit (Action.Response (σ := Unit) (ρ := Unit)) (Shared Unit Unit)
      (Bool × Unit)) :=
  (halves (sampleOutside true) sampleColumn (ascii "a") 7 (keyTable [some (ascii "a")]) st).run
    (perform (sampleOutside true) (ascii "x")) (fun _ _ _ _ _ ↦ true)
    (List.replicate 4 (.adder, ()) ++ List.replicate steps (.remover, ()))

theorem newName_ne (n : ℕ) : (sampleOutside true).newName n ≠ ascii "x" := by
  intro h
  cases congrArg List.head? h

theorem hasKey_keyTable : ∀ r ∈ (keyTable [some (ascii "a")]).rows,
    r.HasKey sampleArrow sampleColumn (ascii "a") := by
  decide +kernel

theorem twoFiles_newFile (keys : List (Option ByteString)) :
    (twoFiles keys).NewFile (ascii "x") :=
  ⟨rfl, rfl, rfl, rfl⟩

theorem twoFiles_agrees (keys : List (Option ByteString)) :
    (twoFiles keys).table.Agrees {ascii "b/f", ascii "b/g"} := by
  change (twoFiles []).table.Agrees _
  unfold TableStats.Agrees
  decide +kernel

/-- The remover finds the adder's file, and skips it. -/
theorem update_halves_sample :
    ∃ w, sampleRun (twoFiles [some (ascii "a"), some (ascii "b")]) 16 = some w ∧
      bothSucceeded w = true ∧
      Updated sampleArrow sampleColumn (ascii "a") (keyTable [some (ascii "a")]).rows
        (twoFiles [some (ascii "a"), some (ascii "b")]).liveRows w.shared.state.liveRows ∧
      Updated sampleArrow sampleColumn (ascii "a") (keyTable [some (ascii "a")]).rows
        (twoFiles [some (ascii "a"), some (ascii "b")]).liveRows
        (rowsIn w.shared.state.content
          (w.shared.state.table.committedFiles {ascii "b/f", ascii "b/g"})) := by
  have hrun : ((sampleRun (twoFiles [some (ascii "a"), some (ascii "b")]) 16).any
      bothSucceeded) = true := by
    decide +kernel
  obtain ⟨w, hw, hboth⟩ := (Option.any_eq_true _ _).mp hrun
  obtain ⟨hremover, hadder⟩ := bothSucceeded_iff.mp hboth
  refine ⟨w, hw, hboth, (update_halves_iff rfl (twoFiles_valid _) (twoFiles_freshNames true _)
    (sampleOutside_keepsRows true) (twoFiles_newFile _) (fun n _ ↦ newName_ne n) (by decide)
    (twoFiles_agrees _) (fun _ ↦ rfl) hasKey_keyTable (World.run_sound hw) hremover hadder).mpr ?_⟩
  rintro path e ⟨hmem, -⟩ ⟨-, hnum, -⟩
  rw [twoFiles_entry hmem] at hnum
  cases hnum

/-- A table with one file, whose only row is null and whose statistics show the key. -/
def nullFile : State Unit Unit where
  table := oneFileTable 1
  stored path := if path = ascii "b/f" then some (keyTable [none]) else none

theorem nullFile_valid : nullFile.table.Valid sampleArrow sampleColumn nullFile.content := by
  have hvalid : (oneFileTable 1).Valid sampleArrow sampleColumn fun _ ↦ keyTable [none] :=
    oneFileTable_valid rfl (by simp)
  rintro path e ⟨hmem, hadd⟩
  obtain ⟨rfl, rfl⟩ := Prod.mk.inj (List.mem_singleton.mp hmem)
  exact hvalid _ _ ⟨hmem, hadd⟩

/-- The null is lost, in the snapshot and in the commit. -/
theorem update_loses_null_row :
    nullFile.table.Valid sampleArrow sampleColumn nullFile.content ∧
      ∃ w, sampleRun nullFile 6 = some w ∧ bothSucceeded w = true ∧
        ¬Updated sampleArrow sampleColumn (ascii "a") (keyTable [some (ascii "a")]).rows
          nullFile.liveRows w.shared.state.liveRows ∧
        ¬Updated sampleArrow sampleColumn (ascii "a") (keyTable [some (ascii "a")]).rows
          nullFile.liveRows
          (rowsIn w.shared.state.content
            (w.shared.state.table.committedFiles {ascii "b/f"})) := by
  refine ⟨nullFile_valid, ?_⟩
  have hrun : ((sampleRun nullFile 6).any fun w ↦ bothSucceeded w &&
      decide ((w.shared.state.liveRows.filter fun r ↦ ¬r.HasKey sampleArrow sampleColumn (ascii "a")) =
        0) &&
      decide (((rowsIn w.shared.state.content
        (w.shared.state.table.committedFiles {ascii "b/f"})).filter fun r ↦
          ¬r.HasKey sampleArrow sampleColumn (ascii "a")) = 0)) = true := by
    decide +kernel
  obtain ⟨w, hw, hboth⟩ := (Option.any_eq_true _ _).mp hrun
  simp only [Bool.and_eq_true, decide_eq_true_eq] at hboth
  obtain ⟨⟨hboth, hsnapshot⟩, hcommit⟩ := hboth
  have hbefore : (nullFile.liveRows.filter fun r ↦
      ¬r.HasKey sampleArrow sampleColumn (ascii "a")) ≠ 0 := by
    decide +kernel
  refine ⟨w, hw, hboth, fun h ↦ hbefore ?_, fun h ↦ hbefore ?_⟩
  · exact h.others.symm.trans hsnapshot
  · exact h.others.symm.trans hcommit

end LakeVilla.Keys

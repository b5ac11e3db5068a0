import LakeVilla.Guarantees.KeyLookup
import LakeVilla.Keys.Removal

/-!
# Failed removals by key

A removal that fails in its search leaves the table as it was. The files that were found are
rewritten and registered one after the other, and nothing takes the first registrations back when a
later file fails.
-/

namespace LakeVilla.Keys

open ByteString

variable {σ ρ : Type} {out : Outside σ ρ} {st st' : State σ ρ}

/-- `created_files`, `deleted_files` and the live files are the same. -/
structure SameFiles (tbl tbl' : TableStats) : Prop where
  created : tbl'.createdFiles = tbl.createdFiles
  deleted : tbl'.deletedFiles = tbl.deletedFiles
  live : tbl'.deltaLog.getList = tbl.deltaLog.getList

theorem SameFiles.refl (tbl : TableStats) : SameFiles tbl tbl := ⟨rfl, rfl, rfl⟩

/-! ## The loop -/

/-- A file that cannot be rewritten leaves the table as it was. -/
theorem removeKeyRows_false {f : KeyFile σ ρ} (h : removeKeyRows out st f = (false, st')) :
    st'.table = st.table := by
  rcases removeKeyRows_cases out st f with ⟨-, hf⟩ | ⟨-, rest, -, -, hf⟩ | ⟨-, asked, hf⟩
  · cases hf.symm.trans h
  · cases hf.symm.trans h
  · obtain ⟨-, rfl⟩ := Prod.mk.inj (hf.symm.trans h)
    rfl

/-- The loop fails when a file cannot be rewritten. -/
theorem removeLoop_fst {files : List (KeyFile σ ρ)} :
    (removeLoop out files st).1 = false ↔ ∃ i f, files[i]? = some f ∧
      CannotRewrite out st (st.asked + rewrites (files.take i)) f := by
  induction files generalizing st with
  | nil => simp [removeLoop]
  | cons f files ih =>
    cases hf : removeKeyRows out st f with
    | mk ok st' =>
    cases ok with
    | false =>
      have hc : CannotRewrite out st st.asked f := removeKeyRows_fst.mp (by rw [hf])
      simp only [removeLoop, hf, true_iff]
      exact ⟨0, f, rfl, hc⟩
    | true =>
      obtain ⟨hasked, hbase⟩ := removeKeyRows_true hf
      have hok : ¬CannotRewrite out st st.asked f := fun hc ↦ by
        have h := removeKeyRows_fst.mpr hc
        rw [hf] at h
        cases h
      have hrewrites : ∀ i, rewrites ((f :: files).take (i + 1)) =
          rewrites [f] + rewrites (files.take i) := by
        intro i
        rw [List.take_succ_cons, rewrites, ← List.singleton_append, List.filter_append,
          List.length_append]
        rfl
      have hsame : ∀ n g, CannotRewrite out st' n g ↔ CannotRewrite out st n g := by
        intro n g
        simp only [CannotRewrite, State.newDataFilePath, TableStats.fullPath, hbase]
      simp only [removeLoop, hf]
      rw [ih]
      constructor
      · rintro ⟨i, g, hg, hc⟩
        refine ⟨i + 1, g, hg, ?_⟩
        rwa [hrewrites, ← add_assoc, ← hasked, ← hsame]
      · rintro ⟨i, g, hg, hc⟩
        cases i with
        | zero =>
          obtain rfl := Option.some.inj hg
          exact absurd hc hok
        | succ i =>
          refine ⟨i, g, hg, ?_⟩
          rwa [hsame, hasked, add_assoc, ← hrewrites]

/-! ## The first file -/

theorem removeKeyRows_deleted {f : KeyFile σ ρ} {p : ByteString}
    (hp : st.table.deltaLog.Deleted p) : (removeKeyRows out st f).2.table.deltaLog.Deleted p := by
  rcases removeKeyRows_cases out st f with ⟨-, h⟩ | ⟨-, rest, -, -, h⟩ | ⟨-, asked, h⟩
  · rw [h]
    exact hp.registerOperation
  · rw [h]
    exact hp.registerOperation.registerOperation
  · rw [h]
    exact hp

/-- A removed file stays removed. -/
theorem removeLoop_deleted {files : List (KeyFile σ ρ)} {p : ByteString}
    (hp : st.table.deltaLog.Deleted p) : (removeLoop out files st).2.table.deltaLog.Deleted p := by
  induction files generalizing st with
  | nil => exact hp
  | cons f files ih =>
    have hstep : (removeKeyRows out st f).2.table.deltaLog.Deleted p := removeKeyRows_deleted hp
    rw [removeLoop]
    cases hf : removeKeyRows out st f with
    | mk ok st' =>
    rw [hf] at hstep
    cases ok with
    | true => exact ih hstep
    | false => exact hstep

/-- A live file that is processed is removed. -/
theorem removeKeyRows_removes {f : KeyFile σ ρ} {p : ByteString} {e : DeltaLogEntry}
    (hlive : st.table.deltaLog.Live p e) (hpath : f.path = st.table.deltaLog.basePath ++ p)
    (h : removeKeyRows out st f = (true, st')) : st'.table.deltaLog.Deleted p := by
  rcases removeKeyRows_cases out st f with ⟨-, hf⟩ | ⟨-, rest, -, -, hf⟩ | ⟨-, asked, hf⟩
  · obtain ⟨-, rfl⟩ := Prod.mk.inj (hf.symm.trans h)
    exact hlive.registerDelete hpath
  · obtain ⟨-, rfl⟩ := Prod.mk.inj (hf.symm.trans h)
    exact hlive.registerAdd.registerDelete hpath
  · cases hf.symm.trans h

/-! ## The removal -/

/-- **Failed removals.** Nothing changes unless a file after the first one cannot be rewritten,
with explicit logging: then the files before it stay removed. -/
theorem failed_removal_unchanged_iff (out : Outside σ ρ) (explicitLog : Bool) (st : State σ ρ)
    (key : ByteString) (prev : Option ℕ) :
    ((removeFile out explicitLog st key prev).ok = false →
        SameFiles st.table (removeFile out explicitLog st key prev).state.table) ↔
      (explicitLog = true → ∀ f files,
        findKeyFiles out.arrow (st.readDataFile out) st.table key false prev = some (f :: files) →
        ∀ i g, files[i]? = some g →
          CannotRewrite out st (st.asked + rewrites (f :: files.take i)) g →
          CannotRewrite out st st.asked f) := by
  unfold removeFile
  cases hfind : findKeyFiles out.arrow (st.readDataFile out) st.table key false prev with
  | none => exact iff_of_true (fun _ ↦ .refl _) fun _ _ _ h ↦ nomatch h
  | some found =>
  cases found with
  | nil => exact iff_of_true (fun _ ↦ .refl _) fun _ _ _ h ↦ nomatch h
  | cons f files =>
  cases explicitLog with
  | false => exact iff_of_true (fun h ↦ nomatch h) fun h ↦ nomatch h
  | true =>
    simp only [if_true, forall_const]
    cases hf : removeKeyRows out st f with
    | mk ok st' =>
    cases ok with
    | false =>
      -- the first file: nothing was registered before it
      have hc : CannotRewrite out st st.asked f := removeKeyRows_fst.mp (by rw [hf])
      refine iff_of_true (fun _ ↦ ?_) fun f' files' h i g hg hgc ↦ ?_
      · rw [removeLoop, hf]
        dsimp only
        rw [removeKeyRows_false hf]
        exact .refl _
      · obtain ⟨rfl, rfl⟩ := List.cons.inj (Option.some.inj h)
        exact hc
    | true =>
      have hok : ¬CannotRewrite out st st.asked f := fun hc ↦ by
        have h := removeKeyRows_fst.mpr hc
        rw [hf] at h
        cases h
      obtain ⟨p, e, hlive, hpath⟩ := findKeyFiles_live hfind List.mem_cons_self
      constructor
      · intro hsame f' files' h i g hg hgc
        obtain ⟨rfl, rfl⟩ := List.cons.inj (Option.some.inj h)
        have hfail : (removeLoop out (f :: files) st).1 = false :=
          removeLoop_fst.mpr ⟨i + 1, g, hg, hgc⟩
        have hdeleted : (removeLoop out (f :: files) st).2.table.deltaLog.Deleted p := by
          rw [removeLoop, hf]
          exact removeLoop_deleted (removeKeyRows_removes hlive hpath hf)
        refine absurd (DeltaLogManager.mem_getList.mpr ⟨e, hlive⟩) ?_
        rw [← (hsame hfail).live]
        exact hdeleted.not_mem_getList
      · intro hlater hfail
        obtain ⟨i, g, hg, hgc⟩ := removeLoop_fst.mp hfail
        cases i with
        | zero =>
          obtain rfl := Option.some.inj hg
          exact absurd hgc hok
        | succ i => exact absurd (hlater f files rfl i g hg hgc) hok

/-- Outside of the transaction: the files that can be written are given. -/
def sampleOutside (canWrite : Bool) : Outside Unit Unit where
  arrow := sampleArrow
  conform := some
  statistics _ := {}
  encodedSize _ := 4
  newName n := ascii "n" ++ decimal n
  canRead _ := true
  canWrite _ := canWrite

/-- The table `b/` with files `f` and `g` without statistics: `f` holds a row of the key `a`, `g`
the rows given. -/
def twoFiles (keys : List (Option ByteString)) : State Unit Unit where
  table :=
    { deltaLog :=
        { basePath := ascii "b/"
          files := [(ascii "f", { operation := .add }), (ascii "g", { operation := .add })]
          nodup := by decide }
      schema := .ok (some { fields := [{ name := ascii "k", type := .string }] }) }
  stored path :=
    if path = ascii "b/f" then some (keyTable [some (ascii "a")])
    else if path = ascii "b/g" then some (keyTable keys)
    else none

/-- The first file is dropped, then the rest of the second one cannot be written: the removal fails,
but the first file stays removed. -/
theorem failed_removal_keeps_first_part :
    (removeFile (sampleOutside false) true (twoFiles [some (ascii "a"), some (ascii "b")])
        (ascii "a") none).ok = false ∧
      ¬SameFiles (twoFiles [some (ascii "a"), some (ascii "b")]).table
        (removeFile (sampleOutside false) true (twoFiles [some (ascii "a"), some (ascii "b")])
          (ascii "a") none).state.table := by
  refine ⟨by decide +kernel, fun h ↦ ?_⟩
  have hlive := h.live
  revert hlive
  decide +kernel

end LakeVilla.Keys

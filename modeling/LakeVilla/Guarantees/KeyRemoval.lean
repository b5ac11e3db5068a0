import LakeVilla.Guarantees.FailedRemoval
import LakeVilla.Keys.RemovalRun

/-!
# Removing a key removes exactly its rows

Dropped and rewritten files taken together, a removal that succeeds changes the live rows by what
the found files lose; the statistics of the snapshot decide which files these are.
-/

namespace LakeVilla.Keys

open ByteString

variable {σ ρ : Type} {out : Outside σ ρ} {st : State σ ρ}

/-- **Removal by key.** A removal with explicit logging that succeeds leaves exactly the rows of the
other keys, and of the files that the same update wrote, unless a live file shows its only row, a
null, as the key. -/
theorem removal_leaves_survivors_iff {c : KeyColumn} {key : ByteString} {prev : Option ℕ}
    (hcol : st.table.firstColumn = some c) (hvalid : st.table.Valid out.arrow c st.content)
    (hfresh : st.FreshNames out) (hkeeps : out.KeepsRows)
    (hok : (removeFile out true st key prev).ok = true) :
    (removeFile out true st key prev).state.liveRows =
        ↑(st.table.survivors out.arrow c key prev st.content) ↔
      ∀ path e, st.table.deltaLog.Live path e →
        skipped st.table.createdFiles prev (st.table.deltaLog.basePath ++ path) = false →
        ¬NullShownAsKey out.arrow c key (st.content (st.table.deltaLog.basePath ++ path)) e := by
  rw [← removeFile_rows hcol hvalid hfresh hkeeps hok, left_eq_add, Multiset.coe_eq_zero,
    lostRows_eq_nil_iff hvalid]

/-! ## Tables of one and two files -/

theorem sampleOutside_keepsRows (canWrite : Bool) : (sampleOutside canWrite).KeepsRows :=
  fun _ _ h ↦ Option.some.inj h ▸ rfl

theorem twoFiles_freshNames (canWrite : Bool) (keys : List (Option ByteString)) :
    (twoFiles keys).FreshNames (sampleOutside canWrite) := by
  refine ⟨fun n _ ↦ ?_, fun m n _ _ h ↦ ?_⟩
  · rfl
  · have hdigits := List.append_cancel_left h
    rw [← ofDecimal_decimal m, hdigits, ofDecimal_decimal]

theorem twoFiles_entry {keys : List (Option ByteString)} {path : ByteString} {e : DeltaLogEntry}
    (h : (path, e) ∈ (twoFiles keys).table.deltaLog.files) : e = { operation := .add } := by
  rcases List.mem_cons.mp h with h | h
  · exact (Prod.mk.inj h).2
  · exact (Prod.mk.inj (List.mem_singleton.mp h)).2

theorem twoFiles_valid (keys : List (Option ByteString)) :
    (twoFiles keys).table.Valid sampleArrow sampleColumn (twoFiles keys).content := by
  rintro path e ⟨hmem, -⟩
  obtain rfl := twoFiles_entry hmem
  refine ⟨fun v hv ↦ ?_, fun h ↦ absurd rfl h, fun _ _ h ↦ (nomatch h), fun _ _ h ↦ nomatch h⟩
  unfold State.content twoFiles at hv
  dsimp only at hv
  split_ifs at hv
  · obtain ⟨k, -, rfl⟩ := of_mem_values hv
    trivial
  · obtain ⟨k, -, rfl⟩ := of_mem_values hv
    trivial
  · cases hv

/-- A file of the key and a file with a row of it: the other row stays. -/
theorem removal_leaves_survivors_sample :
    (removeFile (sampleOutside true) true (twoFiles [some (ascii "a"), some (ascii "b")])
        (ascii "a") none).state.liveRows =
      ↑((twoFiles [some (ascii "a"), some (ascii "b")]).table.survivors sampleArrow sampleColumn
        (ascii "a") none (twoFiles [some (ascii "a"), some (ascii "b")]).content) := by
  refine (removal_leaves_survivors_iff (c := sampleColumn) rfl (twoFiles_valid _)
    (twoFiles_freshNames true _) (sampleOutside_keepsRows true) (by decide +kernel)).mpr ?_
  rintro path e ⟨hmem, -⟩ - ⟨-, hnum, -⟩
  rw [twoFiles_entry hmem] at hnum
  cases hnum

/-- The only row of a file is null, and its statistics show the key: the removal drops the row. -/
theorem removal_drops_null_row :
    (removeFile (sampleOutside true) true
        { table := oneFileTable 1, stored := fun _ ↦ some (keyTable [none]) } (ascii "a")
        none).ok = true ∧
      (oneFileTable 1).Valid sampleArrow sampleColumn (fun _ ↦ keyTable [none]) ∧
      (removeFile (sampleOutside true) true
        { table := oneFileTable 1, stored := fun _ ↦ some (keyTable [none]) } (ascii "a")
        none).state.liveRows ≠
      ↑((oneFileTable 1).survivors sampleArrow sampleColumn (ascii "a") none
        fun _ ↦ keyTable [none]) := by
  refine ⟨by decide +kernel, oneFileTable_valid rfl (by simp), ?_⟩
  decide +kernel

end LakeVilla.Keys

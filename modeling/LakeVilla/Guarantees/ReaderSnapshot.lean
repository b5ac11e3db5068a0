import LakeVilla.Guarantees.Once
import LakeVilla.Protocol.LiveFiles

/-!
# What a reader sees

Loading a table skips the versions that hold a running marker and remembers them, and yet it
applies the commits above them. Until the transaction changes the table itself, its snapshot is the
replay of the versions below its reserved one without the remembered versions. A commit waits for
these; a read-only transaction does not, and may have seen a later commit without an earlier one.
-/

namespace LakeVilla

open Concurrency

/-! ## Operations and changed tables -/

/-- A table that the transaction has not changed is as it was. -/
structure TableStats.Touched (a b : TableStats) : Prop where
  basePath : b.basePath = a.basePath
  deltaLog : b.changed = false → a.changed = false ∧ b.deltaLog = a.deltaLog

namespace TableStats.Touched

variable {a b c : TableStats}

theorem refl (a : TableStats) : a.Touched a := ⟨rfl, fun h ↦ ⟨h, rfl⟩⟩

theorem trans (h : a.Touched b) (h' : b.Touched c) : a.Touched c where
  basePath := h'.basePath.trans h.basePath
  deltaLog hc :=
    have ⟨hb, hd'⟩ := h'.deltaLog hc
    have ⟨ha, hd⟩ := h.deltaLog hb
    ⟨ha, hd'.trans hd⟩

theorem registerCreatedFile (a : TableStats) (file : DataFile) (stats : FileStats)
    (overwrite : Bool) : a.Touched (a.registerCreatedFile file stats overwrite) where
  basePath := rfl
  deltaLog h := by
    have hne := AssocList.insertOrAssign_ne_nil a.createdFiles file stats
    simp [changed, TableStats.registerCreatedFile, hne] at h

theorem registerDeletedFile (a : TableStats) (file : DataFile) :
    a.Touched (a.registerDeletedFile file) where
  basePath := rfl
  deltaLog h := by
    have hne := AssocList.insertOrAssign_ne_nil a.deletedFiles file
      { size := a.deltaLog.getSize file }
    simp [changed, TableStats.registerDeletedFile, hne] at h

end TableStats.Touched

/-- The tables up to the changes of the transaction. -/
def Txn.Touched (t t' : Txn) : Prop := List.Forall₂ TableStats.Touched t.tables t'.tables

namespace Txn.Touched

variable {t t' t'' : Txn}

theorem of_tables (h : t'.tables = t.tables) : t.Touched t' := by
  rw [Txn.Touched, h]
  exact List.forall₂_same.mpr fun a _ ↦ .refl a

theorem trans (h : t.Touched t') (h' : t'.Touched t'') : t.Touched t'' :=
  h.comp (fun h₁ h₂ ↦ h₁.trans h₂) h'

theorem modifyTable (h : t.Touched t') (i : ℕ) {f : TableStats → TableStats}
    (hf : ∀ a : TableStats, a.Touched (f a)) : t.Touched (t'.modifyTable i f) :=
  h.trans (List.forall₂_modify TableStats.Touched.refl fun a _ ↦ hf a)

theorem addSubstep (h : t.Touched t') (type : Txn.SubOpType) (i : ℕ) (file : DataFile)
    (key : Option Text) : t.Touched (t'.addSubstep type i file key) := by
  refine h.trans (of_tables ?_)
  unfold Txn.addSubstep addSubstepExplicit addSubstepImplicit logStep
  split
  · split
    · cases type <;> rfl
    · cases type <;> cases key <;> rfl
  · rfl

theorem getTableForRead (t : Txn) (i : ℕ) : t.Touched (t.getTableForRead i) :=
  (of_tables rfl).modifyTable i fun _ ↦ ⟨rfl, fun h ↦ ⟨h, rfl⟩⟩

theorem removeKeyRows (h : t.Touched t') (i : ℕ) (file : DataFile) (key : Text)
    (prev : Option ℕ) : t.Touched (t'.removeKeyRows i file key prev true) := by
  unfold Txn.removeKeyRows
  split
  · exact h
  · next tbl _ =>
    refine modifyTable ?_ i fun a ↦ .registerDeletedFile a file
    refine addSubstep ?_ .delete i file _
    split
    · exact h
    · have hnew : t.Touched (t'.newDataFile tbl (file.otherRows key)).2 := h.trans (of_tables rfl)
      exact (hnew.addSubstep .add i _ _).modifyTable i fun a ↦ .registerCreatedFile a _ _ _

end Txn.Touched

/-- The tables that the transaction has not changed hold replays of their logs, until deferred
operations are executed. -/
def Loaded (executed : Bool) (t : Txn) (s : Store) : Prop :=
  executed = false → ∀ tbl ∈ t.tables, tbl.changed = false → Replays s tbl.basePath tbl.deltaLog

/-- The snapshot of a table is the replay of the final versions `vs` below the reserved one; every
other version below it is remembered or has no actions. -/
structure Shows (t : Txn) (tbl : TableStats) (vs : List ℕ) (s : Store) : Prop where
  below : ∀ u ∈ vs, u < tbl.markerVersion ∧ (s.log tbl.basePath u).isSome
  rest : ∀ u < tbl.markerVersion, u ∉ vs →
    (tbl.basePath, u) ∈ t.prevMarkers ∨ s.log tbl.basePath u = some []
  live : ∀ file, tbl.deltaLog.Live file ↔ (s.replay tbl.basePath vs).Live file

section Runs

variable {fuel : ℕ} {party : TxnId → Party} {s : Store} {w : System} {i : TxnId} {c : Config}
variable {t : Txn} {p : Table}

/-- What is known when the user is asked. -/
theorem Loading.shows {sem : Semantics TxnId Txn Response Store}
    {P : Protocol TxnId Txn Response Store} (hg : Good sem P i c Loaded false t s)
    (hreg : Regular sem i c) (htr : Truthful sem i) (hn : t.cfg.storageRetries ≠ 0)
    (hm : t.markers = true) (hd : t.Distinct) {tbl : TableStats} (htbl : tbl ∈ t.tables)
    (hc : tbl.changed = false) : Shows t tbl tbl.deltaLog.versions s := by
  have hn' : c.storageRetries ≠ 0 := hg.cfg ▸ hn
  have hu : t.Usable := ⟨hd, hg.opened htr hn'⟩
  obtain ⟨j, hj⟩ := List.mem_iff_getElem?.mp htbl
  have htracks := hg.tracks hreg hu j tbl hj (by simp)
  have hloaded := hg.locally hreg htr hn' hu rfl tbl htbl hc
  refine ⟨fun u hmem ↦ ⟨?_, ?_⟩, fun u hlt hmem ↦ ?_, fun file ↦ ?_⟩
  · exact (htracks.below u hmem).resolve_right (by simp [hm])
  · obtain ⟨as, has⟩ := htracks.logged u hmem
    rw [has]
    rfl
  · rcases htracks.covered u hlt with (h | h | h) | h
    · exact absurd h hmem
    · exact .inl h
    · exact absurd hm (by simp [h.1])
    · exact .inr h
  · rw [← hloaded.eq]

/-- The files that the writers of `readerRun` add. -/
def written : List DataFile :=
  [⟨some 1, 0, [], none⟩, ⟨some 2, 0, [], none⟩]

end Runs

end LakeVilla

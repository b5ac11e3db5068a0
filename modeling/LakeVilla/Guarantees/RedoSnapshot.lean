import LakeVilla.Guarantees.Overtaking

/-!
# The snapshot of a redo

The operations of a redo-capable transaction are executed once, on the snapshot that it has when it
finds no running marker below its versions (`base`). If it moves to a later version afterwards, the
commits in between are merged into the snapshot, and only a conflict makes the commit execute the
operations again. So the versions below a written one were in the snapshot of the redo, or do not
conflict with what the redo did.
-/

namespace LakeVilla

open Concurrency

/-- The actions `as` for version `v` of table `p` were made on the versions below `v`, up to those
that do not conflict with them. -/
def MadeBelow (t : Txn) (p : Table) (v : ℕ) (as : List Action) (s : Store) : Prop :=
  ∃ tbl ∈ t.tables, tbl.basePath = p ∧ tbl.markerVersion = v ∧ tbl.actions = as ∧
    ∀ u < v, ∃ as', s.log p u = some as' ∧
      (as' = [] ∨ u ∈ tbl.base ∨ u ∈ tbl.deltaLog.versions ∧ Compatible t tbl as')

/-- Redo-capable transactions write what they made on the versions below. -/
def redone : Protocol TxnId Txn Response Store where
  inv := Store.WF
  guar i t k s _ s' := Fenced i s s' ∧ (t.canRedo = true → k.isCommit = true →
    ∀ p v as, s'.Holds i p v as → ¬ s.Holds i p v as → MadeBelow t p v as s)

section Runs

variable {fuel : ℕ} {party : TxnId → Party} {s : Store} {w : System} {i : TxnId} {c : Config}
variable {t : Txn} {p : Table}

end Runs

end LakeVilla

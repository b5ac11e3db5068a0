import LakeVilla.Guarantees.Service

/-!
# Commits are written once

A transaction recognises its own commit by reading the version again after an uncertain write, and
by the flag `committed` of the table. The re-read may fail, and `rebuild_state` clears the flag;
then the table is written a second time, to a later version. While neither happens, a table's log
has at most one version with actions of the transaction.
-/

namespace LakeVilla

open Concurrency

/-- At most one version of each log holds actions of client `i`. -/
def Store.Once (s : Store) (i : TxnId) : Prop :=
  ∀ p v v' as as', as ≠ [] → as' ≠ [] → s.Holds i p v as → s.Holds i p v' as' → v = v'

theorem Store.Once.back {s s' : Store} {i : TxnId} (h : s.Once i)
    (hb : ∀ p v as, as ≠ [] → s'.Holds i p v as → s.Holds i p v as) : s'.Once i :=
  fun p v v' as as' ha ha' hv hv' ↦ h p v v' as as' ha ha' (hb p v as ha hv) (hb p v' as' ha' hv')

theorem Store.Unused.once {s : Store} {i : TxnId} (h : s.Unused i) : s.Once i :=
  fun p v _ as _ ha _ hv _ ↦ absurd hv (h p v as ha)

/-- Quiet steps, and steps of other clients, write no actions of client `j`. -/
theorem Fenced.keeps {i j : TxnId} {s s' : Store} (hf : Fenced i s s')
    (h : i ≠ j ∨ Quiet s s') {p : Table} {v : ℕ} {as : List Action} (ha : as ≠ [])
    (hv : s'.Holds j p v as) : s.Holds j p v as := by
  refine (hf.holds_back ha hv).resolve_right fun ⟨hij, hn⟩ ↦ ?_
  rcases h with h | h
  · exact h hij
  · rcases h.log hv.log with hl | hl
    · rw [hn] at hl
      cases hl
    · exact ha hl

/-- A client that logs its operations. -/
def Party.l0 : Party → Bool
  | .lakeVilla c _ => c.levels.l0
  | .foreign _ => false

/-- The transactions write each log once. -/
def once (party : TxnId → Party) : Protocol TxnId Txn Response Store where
  inv s := s.WF ∧ ∀ i c p, party i = .lakeVilla c p → s.Once i
  guar i _ _ s _ s' := Fenced i s s'

section Runs

variable {fuel : ℕ} {party : TxnId → Party} {s : Store} {w : System} {i : TxnId} {c : Config}
variable {p : Table}

end Runs

/-- At most one table is changed or written. -/
def Txn.OneWritten (t : Txn) : Prop :=
  ∀ (j k : ℕ) (a b : TableStats), t.tables[j]? = some a → t.tables[k]? = some b →
    a.changed = true ∨ a.committed = true → b.changed = true ∨ b.committed = true → j = k

theorem Txn.OneWritten.torn {t : Txn} (h : t.OneWritten) : t.torn = false := by
  by_contra ht
  obtain ⟨ha, hb⟩ := Bool.and_eq_true_iff.mp (by simpa using ht : t.torn = true)
  obtain ⟨a, ha, hc⟩ := List.any_eq_true.mp ha
  obtain ⟨b, hb, hp⟩ := List.any_eq_true.mp hb
  obtain ⟨j, hj⟩ := List.getElem?_of_mem ha
  obtain ⟨k, hk⟩ := List.getElem?_of_mem hb
  obtain rfl := h j k a b hj hk (.inr hc) (.inl (Bool.and_eq_true_iff.mp hp).2)
  obtain rfl := Option.some.inj (hj.symm.trans hk)
  simp [TableStats.pending, hc] at hp

end LakeVilla

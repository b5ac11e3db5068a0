import LakeVilla.Spec.ReadOptimized

/-!
# LV[I] is safe for any number of tables and transactions

The inductive invariant has a part about the version logs (`Logs`) and a part about every
transaction (`Sound`). A running transaction that writes a table has claimed the version after the
global one, so nobody else can claim a version of that table, and the table's global version moves
only when this transaction commits.
-/

namespace LakeVilla.ReadOptimized

open Concurrency Function

variable {TABLES TRANSACTIONS : Type}

namespace State

variable (s : State TABLES TRANSACTIONS)

/-- The version is the initial one or committed. -/
def Readable (table : TABLES) (v : ℕ) : Prop := v = 0 ∨ s.tableLogs table v = .committed

/-- The transaction has started and is not finished. -/
def Running (txn : TRANSACTIONS) : Prop := s.txnState txn = .active ∨ s.txnState txn = .validating

/-- The version logs of the tables. -/
structure Logs : Prop where
  latest : ∀ table, s.Readable table (s.globalVersionLog table)
  below : ∀ table v, s.tableLogs table v = .committed → v ≤ s.globalVersionLog table
  single : ∀ table v, (s.tableData table v).card ≤ 1

/-- The write version of a running transaction: the next version, pending for this transaction. -/
structure Claims (txn : TRANSACTIONS) (table : TABLES) : Prop where
  next : s.txnWriteVersions txn table = s.globalVersionLog table + 1
  pending : s.tableLogs table (s.txnWriteVersions txn table) = .pending
  owner : s.tableData table (s.txnWriteVersions txn table) = {txn}

/-- What holds of one transaction. -/
structure Sound (txn : TRANSACTIONS) : Prop where
  lock : s.txnState txn = .validating → s.validationLock = some txn
  blind : s.txnBlindAppend txn = false
  idle : s.txnState txn = .idle → s.txnReadSet txn = ∅ ∧ s.txnWriteSet txn = ∅
  hidden : ∀ table, s.txnHiddenVersions txn table ≤ s.globalVersionLog table
  read : ∀ table, s.Readable table (s.txnReadVersions txn table)
  claims : s.Running txn → ∀ table ∈ s.txnWriteSet txn, s.Claims txn table
  validating : s.txnState txn = .validating →
    s.txnLogVersions txn = s.globalVersionLog ∧ s.txnHiddenVersions txn = s.globalVersionLog
  committed : s.txnState txn = .committed → ∀ table ∈ s.txnWriteSet txn,
    s.tableLogs table (s.txnWriteVersions txn table) = .committed ∧
      s.txnLogVersions txn table + 1 = s.txnWriteVersions txn table

/-- The inductive invariant. -/
structure Inv : Prop where
  logs : s.Logs
  sound : ∀ txn, s.Sound txn

/-- The private variables of a transaction. -/
def view (txn : TRANSACTIONS) :
    (TxnState × Finset TABLES × Finset TABLES × Bool) ×
      (TABLES → ℕ) × (TABLES → ℕ) × (TABLES → ℕ) × (TABLES → ℕ) :=
  ((s.txnState txn, s.txnReadSet txn, s.txnWriteSet txn, s.txnBlindAppend txn),
    s.txnReadVersions txn, s.txnHiddenVersions txn, s.txnWriteVersions txn, s.txnLogVersions txn)

variable {s} {s' : State TABLES TRANSACTIONS} {txn txn' : TRANSACTIONS}

theorem Logs.readable_le (h : s.Logs) {table : TABLES} {v : ℕ} (hv : s.Readable table v) :
    v ≤ s.globalVersionLog table := by
  rcases hv with rfl | hv
  · exact Nat.zero_le _
  · exact h.below table v hv

/-- The claimed version is the next one: hidden versions are never ahead of the global log. -/
theorem Sound.proposed (h : s.Sound txn) {table : TABLES}
    (hlt : s.globalVersionLog table < proposedWriteVersion s txn table) :
    proposedWriteVersion s txn table = s.globalVersionLog table + 1 := by
  have := h.hidden table
  rw [proposedWriteVersion] at hlt ⊢
  omega

/-- Two running transactions do not write the same table. -/
theorem Inv.claim_unique (h : s.Inv) (hr : s.Running txn) (hr' : s.Running txn') {table : TABLES}
    (ht : table ∈ s.txnWriteSet txn) (ht' : table ∈ s.txnWriteSet txn') : txn = txn' := by
  have hc := (h.sound txn).claims hr table ht
  have hc' := (h.sound txn').claims hr' table ht'
  have howner := hc.owner
  rw [hc.next, ← hc'.next, hc'.owner] at howner
  exact (Finset.singleton_inj.mp howner).symm

/-- The lock holder is the only transaction that validates. -/
theorem Inv.not_validating (h : s.Inv) (hlock : s.validationLock = some txn)
    (hne : txn' ≠ txn) : s.txnState txn' ≠ .validating := fun hv ↦
  hne (Option.some.inj ((h.sound txn').lock hv ▸ hlock))

/-- The step of another transaction. -/
theorem Sound.frame (h : s.Sound txn) (hv : s'.view txn = s.view txn)
    (hlogs : ∀ table v, s.tableLogs table v = .committed → s'.tableLogs table v = .committed)
    (hglobal : ∀ table, s.globalVersionLog table ≤ s'.globalVersionLog table)
    (hclaims : s.Running txn → ∀ table ∈ s.txnWriteSet txn, s.Claims txn table →
      s'.globalVersionLog table = s.globalVersionLog table ∧
        s'.tableLogs table (s.txnWriteVersions txn table) = .pending ∧
        s'.tableData table (s.txnWriteVersions txn table) = {txn})
    (hlock : s.txnState txn = .validating →
      s'.validationLock = some txn ∧ s'.globalVersionLog = s.globalVersionLog) : s'.Sound txn := by
  simp only [view, Prod.mk.injEq] at hv
  obtain ⟨⟨hstate, hreads, hwrites, hblind⟩, hread, hhidden, hwrite, hlog⟩ := hv
  have hreadable : ∀ {table v}, s.Readable table v → s'.Readable table v :=
    fun hr ↦ hr.imp_right (hlogs _ _)
  refine ⟨?_, ?_, ?_, ?_, ?_, ?_, ?_, ?_⟩
  · exact fun hs ↦ (hlock (hstate ▸ hs)).1
  · rw [hblind]
    exact h.blind
  · rw [hstate, hreads, hwrites]
    exact h.idle
  · intro table
    rw [hhidden]
    exact le_trans (h.hidden table) (hglobal table)
  · intro table
    rw [hread]
    exact hreadable (h.read table)
  · intro hr table ht
    rw [Running, hstate] at hr
    rw [hwrites] at ht
    have hc := h.claims hr table ht
    obtain ⟨hg, hp, ho⟩ := hclaims hr table ht hc
    exact ⟨by rw [hwrite, hg, hc.next], by rw [hwrite, hp], by rw [hwrite, ho]⟩
  · intro hs
    rw [hstate] at hs
    rw [hlog, hhidden, (hlock hs).2]
    exact h.validating hs
  · intro hs table ht
    rw [hstate] at hs
    rw [hwrites] at ht
    have hc := h.committed hs table ht
    rw [hwrite, hlog]
    exact ⟨hlogs _ _ hc.1, hc.2⟩

/-- A step that changes no log. -/
theorem Sound.frame_local (h : s.Sound txn) (hv : s'.view txn = s.view txn)
    (hlogs : s'.tableLogs = s.tableLogs) (hdata : s'.tableData = s.tableData)
    (hglobal : s'.globalVersionLog = s.globalVersionLog)
    (hlock : s.txnState txn = .validating → s'.validationLock = some txn) : s'.Sound txn := by
  refine h.frame hv (fun _ _ hc ↦ ?_) (fun _ ↦ ?_) (fun _ table _ hc ↦ ⟨?_, ?_, ?_⟩) fun hs ↦
    ⟨hlock hs, hglobal⟩
  · rw [hlogs, hc]
  · rw [hglobal]
  · rw [hglobal]
  · rw [hlogs, hc.pending]
  · rw [hdata, hc.owner]

theorem Logs.congr (h : s.Logs) (hlogs : s'.tableLogs = s.tableLogs)
    (hdata : s'.tableData = s.tableData) (hglobal : s'.globalVersionLog = s.globalVersionLog) :
    s'.Logs := by
  refine ⟨fun table ↦ ?_, fun table v hv ↦ ?_, fun table v ↦ ?_⟩
  · rw [Readable, hlogs, hglobal]
    exact h.latest table
  · rw [hglobal]
    exact h.below table v (hlogs ▸ hv)
  · rw [hdata]
    exact h.single table v

end State

/-! ## The actions keep the invariant -/

section Actions

variable [DecidableEq TRANSACTIONS] {s s' : State TABLES TRANSACTIONS} {MAX_VERSION : ℕ}
variable {txn : TRANSACTIONS} {table : TABLES}

namespace State

/-- An action of `txn` that changes no log keeps the invariant if `txn` stays sound. -/
theorem Inv.local (h : s.Inv) (txn : TRANSACTIONS) (hlogs : s'.tableLogs = s.tableLogs)
    (hdata : s'.tableData = s.tableData) (hglobal : s'.globalVersionLog = s.globalVersionLog)
    (hview : ∀ txn' ≠ txn, s'.view txn' = s.view txn')
    (hlock : ∀ txn' ≠ txn, s.validationLock = some txn' → s'.validationLock = some txn')
    (hsound : s'.Sound txn) : s'.Inv where
  logs := h.logs.congr hlogs hdata hglobal
  sound txn' := by
    by_cases htxn : txn' = txn
    · exact htxn ▸ hsound
    · have hs := h.sound txn'
      exact hs.frame_local (hview txn' htxn) hlogs hdata hglobal fun hv ↦
        hlock txn' htxn (hs.lock hv)

theorem Inv.startTransaction (h : s.Inv) (hg : (startTransaction txn).guard s) :
    ((startTransaction txn).effect s).Inv := by
  have hs := h.sound txn
  obtain ⟨hreads, hwrites⟩ := hs.idle hg
  refine h.local txn rfl rfl rfl (fun txn' hne ↦ ?_) (fun _ _ hl ↦ hl) ?_
  · simp [view, ReadOptimized.startTransaction, hne]
  · constructor <;> simp [ReadOptimized.startTransaction, Running, hs.blind, hreads, hwrites]
    exact h.logs.latest

theorem Inv.resetTransaction (h : s.Inv) :
    ((resetTransaction txn).effect s).Inv := by
  refine h.local txn rfl rfl rfl (fun txn' hne ↦ ?_) (fun _ _ hl ↦ hl) ?_
  · simp [view, ReadOptimized.resetTransaction, hne]
  · constructor <;> simp [ReadOptimized.resetTransaction, Running, Readable]

variable [DecidableEq TABLES]

theorem Inv.readTable (h : s.Inv) (hg : (readTable txn table).guard s) :
    ((readTable txn table).effect s).Inv := by
  have hs := h.sound txn
  obtain ⟨hactive, -, -⟩ := hg
  refine h.local txn rfl rfl rfl (fun txn' hne ↦ ?_) (fun _ _ hl ↦ hl) ?_
  · simp [view, ReadOptimized.readTable, hne]
  · constructor <;> simp [ReadOptimized.readTable, hactive, hs.blind]
    · intro t
      rw [update_apply]
      split
      · next ht => rw [ht]
      · exact hs.hidden t
    · exact hs.read
    · intro _ t ht
      have hc := hs.claims (.inl hactive) t ht
      exact ⟨hc.next, hc.pending, hc.owner⟩

theorem Inv.enterValidation (h : s.Inv) (hg : (enterValidation txn).guard s) :
    ((enterValidation txn).effect s).Inv := by
  have hs := h.sound txn
  obtain ⟨hactive, hfree, -⟩ := hg
  refine h.local txn rfl rfl rfl (fun txn' hne ↦ ?_) (fun _ _ hl ↦ ?_) ?_
  · simp [view, ReadOptimized.enterValidation, hne]
  · rw [hfree] at hl
    cases hl
  · constructor <;> simp [ReadOptimized.enterValidation, hs.blind]
    · exact hs.read
    · intro _ t ht
      have hc := hs.claims (.inl hactive) t ht
      exact ⟨hc.next, hc.pending, hc.owner⟩

theorem Inv.commitIdleTransaction (h : s.Inv) (hg : (commitIdleTransaction txn).guard s) :
    ((commitIdleTransaction txn).effect s).Inv := by
  have hs := h.sound txn
  obtain ⟨-, -, hwrites⟩ := hg
  refine h.local txn rfl rfl rfl (fun txn' hne ↦ ?_) (fun _ _ hl ↦ hl) ?_
  · simp [view, ReadOptimized.commitIdleTransaction, hne]
  · constructor <;> simp [ReadOptimized.commitIdleTransaction, Running, hs.blind, hwrites]
    · exact hs.hidden
    · exact hs.read

theorem Inv.commitReadOnlyTransaction (h : s.Inv) (hg : (commitReadOnlyTransaction txn).guard s) :
    ((commitReadOnlyTransaction txn).effect s).Inv := by
  have hs := h.sound txn
  obtain ⟨-, hlock, hwrites, -⟩ := hg
  refine h.local txn rfl rfl rfl (fun txn' hne ↦ ?_) (fun txn' hne hl ↦ ?_) ?_
  · simp [view, ReadOptimized.commitReadOnlyTransaction, hne]
  · rw [hlock] at hl
    exact absurd (Option.some.inj hl).symm hne
  · constructor <;> simp [ReadOptimized.commitReadOnlyTransaction, Running, hs.blind, hwrites]
    · exact hs.hidden
    · exact hs.read

theorem Inv.commitEmptyActiveTransaction (h : s.Inv)
    (hg : (commitEmptyActiveTransaction txn).guard s) :
    ((commitEmptyActiveTransaction txn).effect s).Inv := by
  have hs := h.sound txn
  obtain ⟨-, -, hwrites⟩ := hg
  refine h.local txn rfl rfl rfl (fun txn' hne ↦ ?_) (fun _ _ hl ↦ hl) ?_
  · simp [view, ReadOptimized.commitEmptyActiveTransaction, hne]
  · constructor <;> simp [ReadOptimized.commitEmptyActiveTransaction, Running, hs.blind, hwrites]
    · exact hs.hidden
    · exact hs.read

theorem Inv.writeTable (h : s.Inv) (hg : (writeTable MAX_VERSION txn table).guard s) :
    ((writeTable MAX_VERSION txn table).effect s).Inv := by
  have hs := h.sound txn
  obtain ⟨hactive, hnew, -, hlt, hempty⟩ := hg
  have hnext := hs.proposed hlt
  rw [hnext] at hempty
  -- the claimed version was empty, so every other entry of the logs is kept
  have hkeep : ∀ {t v l}, l ≠ .empty → s.tableLogs t v = l →
      ¬ (t = table ∧ v = s.globalVersionLog table + 1) := by
    rintro t v l hl hv ⟨rfl, rfl⟩
    exact hl (hv ▸ hempty)
  have hlogs : ∀ {t v l}, l ≠ .empty → s.tableLogs t v = l →
      ((ReadOptimized.writeTable MAX_VERSION txn table).effect s).tableLogs t v = l := by
    intro t v l hl hv
    have := hkeep hl hv
    simp only [ReadOptimized.writeTable, hnext, update_apply]
    split
    · next ht =>
      subst ht
      rw [update_of_ne (fun hv' ↦ this ⟨rfl, hv'⟩), hv]
    · exact hv
  have hdata : ∀ {t v}, ¬ (t = table ∧ v = s.globalVersionLog table + 1) →
      ((ReadOptimized.writeTable MAX_VERSION txn table).effect s).tableData t v =
        s.tableData t v := by
    intro t v hv
    simp only [ReadOptimized.writeTable, hnext, update_apply]
    split
    · next ht =>
      subst ht
      rw [update_of_ne fun hv' ↦ hv ⟨rfl, hv'⟩]
    · rfl
  have hclaims : ∀ txn' t, s.Claims txn' t →
      ((ReadOptimized.writeTable MAX_VERSION txn table).effect s).tableLogs t
          (s.txnWriteVersions txn' t) = .pending ∧
        ((ReadOptimized.writeTable MAX_VERSION txn table).effect s).tableData t
          (s.txnWriteVersions txn' t) = {txn'} := by
    intro txn' t hc
    exact ⟨hlogs (by simp) hc.pending, (hdata (hkeep (by simp) hc.pending)).trans hc.owner⟩
  refine ⟨⟨fun t ↦ ?_, fun t v hv ↦ ?_, fun t v ↦ ?_⟩, fun txn' ↦ ?_⟩
  · exact (h.logs.latest t).imp_right (hlogs (by simp))
  · refine h.logs.below t v ?_
    simp only [ReadOptimized.writeTable, update_apply] at hv
    split at hv
    · next ht =>
      subst ht
      rw [update_apply] at hv
      split at hv
      · cases hv
      · exact hv
    · exact hv
  · by_cases hv : t = table ∧ v = s.globalVersionLog table + 1
    · obtain ⟨rfl, rfl⟩ := hv
      simp [ReadOptimized.writeTable, hnext]
    · rw [hdata hv]
      exact h.logs.single t v
  · by_cases hne : txn' = txn
    · subst hne
      have hw : ∀ t ∈ s.txnWriteSet txn', t ≠ table := fun t ht htt ↦ hnew (htt ▸ ht)
      refine ⟨?_, hs.blind, ?_, hs.hidden,
        fun t ↦ (hs.read t).imp_right (hlogs (by simp)), ?_, ?_, ?_⟩
      · simp [ReadOptimized.writeTable, hactive]
      · simp [ReadOptimized.writeTable, hactive]
      · intro _ t ht
        simp only [ReadOptimized.writeTable, update_self, Finset.mem_insert] at ht
        rcases ht with rfl | ht
        · constructor <;> simp [ReadOptimized.writeTable, hnext]
        · have hc := hs.claims (.inl hactive) t ht
          have hc' := hclaims txn' t hc
          have hwv : ((ReadOptimized.writeTable MAX_VERSION txn' table).effect s).txnWriteVersions
              txn' t = s.txnWriteVersions txn' t := by
            simp [ReadOptimized.writeTable, hw t ht]
          exact ⟨hwv.trans hc.next, hwv ▸ hc'.1, hwv ▸ hc'.2⟩
      · simp [ReadOptimized.writeTable, hactive]
      · simp [ReadOptimized.writeTable, hactive]
    · have hs' := h.sound txn'
      refine hs'.frame ?_ (fun t v ↦ hlogs (by simp)) (fun _ ↦ le_rfl)
        (fun _ t _ hc ↦ ⟨rfl, hclaims txn' t hc⟩) fun hv ↦ ⟨hs'.lock hv, rfl⟩
      simp [view, ReadOptimized.writeTable, hne]

theorem Inv.commitTransaction (h : s.Inv)
    (hg : (commitTransaction MAX_VERSION txn).guard s) :
    ((commitTransaction MAX_VERSION txn).effect s).Inv := by
  have hs := h.sound txn
  obtain ⟨hvalidating, hlock, -⟩ := hg
  have hclaim : ∀ t ∈ s.txnWriteSet txn, s.Claims txn t := hs.claims (.inr hvalidating)
  have hlogs : ∀ t v, s.tableLogs t v = .committed → s.mark txn .committed t v = .committed := by
    intro t v hv
    by_cases ht : t ∈ s.txnWriteSet txn ∧ v = s.txnWriteVersions txn t
    · rw [ht.2, mark_of_mem ht.1]
    · by_cases ht' : t ∈ s.txnWriteSet txn
      · rw [mark_of_ne fun hv' ↦ ht ⟨ht', hv'⟩, hv]
      · rw [mark_of_notMem ht', hv]
  have hglobal : ∀ t, s.globalVersionLog t ≤
      if t ∈ s.txnWriteSet txn then s.txnWriteVersions txn t else s.globalVersionLog t := by
    intro t
    split
    · next ht => exact (hclaim t ht).next ▸ Nat.le_succ _
    · exact le_rfl
  refine ⟨⟨fun t ↦ ?_, fun t v hv ↦ ?_, h.logs.single⟩, fun txn' ↦ ?_⟩
  · simp only [ReadOptimized.commitTransaction, Readable]
    split
    · next ht => exact .inr (mark_of_mem ht)
    · next ht => exact (h.logs.latest t).imp_right (hlogs t _)
  · simp only [ReadOptimized.commitTransaction] at hv ⊢
    by_cases hold : s.tableLogs t v = .committed
    · exact le_trans (h.logs.below t v hold) (hglobal t)
    · have ht : t ∈ s.txnWriteSet txn := by
        by_contra ht
        exact hold (mark_of_notMem ht ▸ hv)
      have hwv : v = s.txnWriteVersions txn t := by
        by_contra hne
        exact hold (mark_of_ne hne ▸ hv)
      rw [if_pos ht, hwv]
  · by_cases hne : txn' = txn
    · subst hne
      obtain ⟨hlog, hhidden⟩ := hs.validating hvalidating
      constructor <;> simp [ReadOptimized.commitTransaction, Running, hs.blind]
      · exact fun t ↦ le_trans (hs.hidden t) (hglobal t)
      · exact fun t ↦ (hs.read t).imp_right (hlogs t _)
      · intro t ht
        exact ⟨mark_of_mem ht, by rw [hlog, (hclaim t ht).next]⟩
    · have hs' := h.sound txn'
      refine hs'.frame ?_ hlogs hglobal (fun hr t ht hc ↦ ?_) fun hv ↦
        absurd hv (h.not_validating hlock hne)
      · simp [view, ReadOptimized.commitTransaction, hne]
      · have ht' : t ∉ s.txnWriteSet txn := fun ht' ↦
          hne (h.claim_unique hr (.inr hvalidating) ht ht')
        simp only [ReadOptimized.commitTransaction, if_neg ht', mark_of_notMem ht']
        exact ⟨trivial, hc.pending, hc.owner⟩

theorem Inv.abortTransaction (h : s.Inv) (hg : (abortTransaction MAX_VERSION txn).guard s) :
    ((abortTransaction MAX_VERSION txn).effect s).Inv := by
  have hs := h.sound txn
  obtain ⟨hvalidating, hlock, -⟩ := hg
  have hclaim : ∀ t ∈ s.txnWriteSet txn, s.Claims txn t := hs.claims (.inr hvalidating)
  -- only pending entries are cleared
  have hlogs : ∀ t v, s.tableLogs t v = .committed → s.mark txn .empty t v = .committed := by
    intro t v hv
    by_cases ht : t ∈ s.txnWriteSet txn
    · rw [mark_of_ne, hv]
      rintro rfl
      rw [(hclaim t ht).pending] at hv
      cases hv
    · rw [mark_of_notMem ht, hv]
  refine ⟨⟨fun t ↦ ?_, fun t v hv ↦ ?_, fun t v ↦ ?_⟩, fun txn' ↦ ?_⟩
  · exact (h.logs.latest t).imp_right (hlogs t _)
  · refine h.logs.below t v ?_
    simp only [ReadOptimized.abortTransaction, mark] at hv
    split at hv
    · rw [update_apply] at hv
      split at hv
      · cases hv
      · exact hv
    · exact hv
  · simp only [ReadOptimized.abortTransaction]
    split
    · rw [update_apply]
      split
      · simp
      · exact h.logs.single t v
    · exact h.logs.single t v
  · by_cases hne : txn' = txn
    · subst hne
      constructor <;> simp [ReadOptimized.abortTransaction, Running, hs.blind]
      · exact hs.hidden
      · exact fun t ↦ (hs.read t).imp_right (hlogs t _)
    · have hs' := h.sound txn'
      refine hs'.frame ?_ hlogs (fun _ ↦ le_rfl) (fun hr t ht hc ↦ ?_) fun hv ↦
        absurd hv (h.not_validating hlock hne)
      · simp [view, ReadOptimized.abortTransaction, hne]
      · have ht' : t ∉ s.txnWriteSet txn := fun ht' ↦
          hne (h.claim_unique hr (.inr hvalidating) ht ht')
        simp only [ReadOptimized.abortTransaction, if_neg ht', mark_of_notMem ht']
        exact ⟨trivial, hc.pending, hc.owner⟩

/-- **One step.** -/
theorem Inv.step {l : Label TABLES TRANSACTIONS} (h : s.Inv)
    (hg : ((spec MAX_VERSION).action l).guard s) :
    (((spec MAX_VERSION).action l).effect s).Inv := by
  cases l with
  | startTransaction txn => exact h.startTransaction hg
  | readTable txn table => exact h.readTable hg
  | writeTable txn table => exact h.writeTable hg
  | enterValidation txn => exact h.enterValidation hg
  | commitTransaction txn => exact h.commitTransaction hg
  | abortTransaction txn => exact h.abortTransaction hg
  | blindAppendCommit txn =>
    -- the flag is never set
    exact absurd hg.2.2.1 (by simp [(h.sound txn).blind])
  | resetTransaction txn => exact h.resetTransaction
  | commitIdleTransaction txn => exact h.commitIdleTransaction hg
  | commitReadOnlyTransaction txn => exact h.commitReadOnlyTransaction hg
  | commitEmptyActiveTransaction txn => exact h.commitEmptyActiveTransaction hg

end State

variable [DecidableEq TABLES]

theorem inv_of_reachable (h : (spec MAX_VERSION).Reachable s) : s.Inv := by
  refine h.invariant (fun s hs ↦ ?_) fun l s hi _ hg ↦ hi.step hg
  obtain rfl : s = initial := hs
  refine ⟨⟨fun _ ↦ .inl rfl, fun _ _ hv ↦ ?_, fun _ _ ↦ ?_⟩, fun txn ↦ ?_⟩
  · cases hv
  · simp [initial]
  · constructor <;> simp [initial, State.Running, State.Readable]

/-- The serial execution of one transaction: it reads the current versions of its read set and
writes the next version of every table in its write set. -/
structure Serial (s : State TABLES TRANSACTIONS) (txn : TRANSACTIONS) (log log' : TABLES → ℕ) :
    Prop where
  reads : ∀ table ∈ s.txnReadSet txn, s.txnReadVersions txn table = log table
  writes : ∀ table, log' table = if table ∈ s.txnWriteSet txn then log table + 1 else log table

theorem State.Inv.serial (h : s.Inv)
    (hs : (spec MAX_VERSION).Step (.commitTransaction txn) s s') (hslack : s.txnSlack txn = 0) :
    Serial s txn s.globalVersionLog s'.globalVersionLog := by
  obtain ⟨⟨hvalidating, -, hfresh, -⟩, rfl⟩ := hs
  have hsound := h.sound txn
  refine ⟨fun table ht ↦ le_antisymm (h.logs.readable_le (hsound.read table)) ?_, fun table ↦ ?_⟩
  · have := hfresh table ht
    rw [(hsound.validating hvalidating).2, hslack] at this
    omega
  · by_cases ht : table ∈ s.txnWriteSet txn
    · have hc := hsound.claims (.inr hvalidating) table ht
      exact (if_pos ht).trans (hc.next.trans (if_pos ht).symm)
    · exact (if_neg ht).trans (if_neg ht).symm

/-- Only a commit changes the global version log. -/
theorem State.Inv.globalVersionLog_eq (h : s.Inv) {l : Label TABLES TRANSACTIONS}
    (hs : (spec MAX_VERSION).Step l s s') (hl : ∀ txn, l ≠ .commitTransaction txn) :
    s'.globalVersionLog = s.globalVersionLog := by
  obtain ⟨hg, rfl⟩ := hs
  cases l with
  | commitTransaction txn => exact absurd rfl (hl txn)
  | blindAppendCommit txn => exact absurd hg.2.2.1 (by simp [(h.sound txn).blind])
  | startTransaction | readTable | writeTable | enterValidation | abortTransaction
  | resetTransaction | commitIdleTransaction | commitReadOnlyTransaction
  | commitEmptyActiveTransaction => rfl

theorem State.Inv.globalVersionLog_mono (h : s.Inv) {l : Label TABLES TRANSACTIONS}
    (hs : (spec MAX_VERSION).Step l s s') (table : TABLES) :
    s.globalVersionLog table ≤ s'.globalVersionLog table := by
  by_cases hl : ∃ txn, l = .commitTransaction txn
  · obtain ⟨txn, rfl⟩ := hl
    obtain ⟨⟨hvalidating, -⟩, rfl⟩ := hs
    by_cases ht : table ∈ s.txnWriteSet txn
    · exact le_trans (((h.sound txn).claims (.inr hvalidating) table ht).next ▸ Nat.le_succ _)
        (if_pos ht).ge
    · exact (if_neg ht).ge
  · exact (congrFun (h.globalVersionLog_eq hs fun txn htxn ↦ hl ⟨txn, htxn⟩) table).ge

/-- **LV[I] is safe**, for any tables, transactions and versions. -/
theorem readOptimized_safe (h : (spec MAX_VERSION).Reachable s) :
    R2UniqueVersions MAX_VERSION s ∧ R3NoLostUpdates MAX_VERSION s ∧
      MonotonicVersionLog MAX_VERSION s ∧ NoDirtyReads s ∧ AtomicCommit s ∧
      (∀ l s', (spec MAX_VERSION).Step l s s' →
        ∀ table, s.globalVersionLog table ≤ s'.globalVersionLog table) ∧
      (∀ txn s', (spec MAX_VERSION).Step (.commitTransaction txn) s s' → s.txnSlack txn = 0 →
        Serial s txn s.globalVersionLog s'.globalVersionLog) ∧
      ∀ l s', (spec MAX_VERSION).Step l s s' → (∀ txn, l ≠ .commitTransaction txn) →
        s'.globalVersionLog = s.globalVersionLog := by
  have hi := inv_of_reachable h
  refine ⟨fun table v _ ↦ hi.logs.single table v, fun txn htxn table ht ↦ ?_,
    fun table v _ ↦ hi.logs.below table v, fun txn _ table _ ↦ (hi.sound txn).read table,
    fun txn htxn table ht ↦ ((hi.sound txn).committed htxn table ht).1,
    fun l s' hs ↦ hi.globalVersionLog_mono hs, fun txn s' ↦ hi.serial,
    fun l s' hs ↦ hi.globalVersionLog_eq hs⟩
  -- no version lies between the log version and the write version
  have hnext := ((hi.sound txn).committed htxn table ht).2
  have hnone : ∀ v, ¬ (s.tableLogs table v = .committed ∧ s.txnLogVersions txn table < v ∧
      v < s.txnWriteVersions txn table) := by
    rintro v ⟨-, hlt, hlt'⟩
    omega
  simp only [hnone, Finset.filter_false, Finset.card_empty]
  exact hnext

end Actions

/-- Transaction 0 reads and writes table 0, then transaction 1 does. -/
theorem readOptimized_safe_run : ∃ s : State (Fin 2) (Fin 2),
    (spec 2).Reachable s ∧ s.globalVersionLog 0 = 2 ∧ R3NoLostUpdates 2 s ∧ AtomicCommit s := by
  let turn (txn : Fin 2) : List (Label (Fin 2) (Fin 2)) :=
    [.startTransaction txn, .readTable txn 0, .writeTable txn 0, .enterValidation txn,
      .commitTransaction txn]
  have hrun : ((spec 2).run (turn 0 ++ turn 1) initial).map (·.globalVersionLog 0) = some 2 := by
    decide
  obtain ⟨s, hs, hlog⟩ := Option.map_eq_some_iff.mp hrun
  have h : (spec 2).Reachable s := Machine.Reachable.run (Machine.Reaches.init rfl) hs
  have hsafe := readOptimized_safe h
  exact ⟨s, h, hlog, hsafe.2.1, hsafe.2.2.2.2.1⟩

end LakeVilla.ReadOptimized

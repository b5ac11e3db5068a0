import LakeVilla.Concurrency.Fairness
import LakeVilla.Spec.ReadOptimizedSafety

/-!
# LV[I] makes progress for any number of tables and transactions

`Spec` of `LakeVillaReadOptimized_spec.tla` with its fairness conditions, and the temporal
properties `EventualTermination` and `ValidationProgress`.

The lock holder validates, and a validating transaction can always commit or abort, so the lock is
free again and again. An active transaction either has accessed no table, and may commit at once,
or may enter validation whenever the lock is free; strong fairness is enough for both.
-/

namespace LakeVilla.ReadOptimized

open Concurrency Function Filter

variable {TABLES TRANSACTIONS : Type} [DecidableEq TABLES] [DecidableEq TRANSACTIONS]
variable {MAX_VERSION : ℕ} {txn : TRANSACTIONS} {s s' : State TABLES TRANSACTIONS}
variable {l : Label TABLES TRANSACTIONS} {σ : ℕ → State TABLES TRANSACTIONS}

/-- The second strong fairness condition of `Spec`. -/
def decisions (txn : TRANSACTIONS) : Set (Label TABLES TRANSACTIONS) :=
  {.commitTransaction txn, .abortTransaction txn, .commitReadOnlyTransaction txn,
    .commitEmptyActiveTransaction txn}

/-- `Spec` -/
structure Fair (MAX_VERSION : ℕ) (σ : ℕ → State TABLES TRANSACTIONS) : Prop
    extends (spec MAX_VERSION).Behaviour σ where
  next : (spec MAX_VERSION).WeaklyFair Set.univ σ
  enter : ∀ txn, (spec MAX_VERSION).StronglyFair {.enterValidation txn} σ
  decide : ∀ txn, (spec MAX_VERSION).StronglyFair (decisions txn) σ
  commitIdle : ∀ txn, (spec MAX_VERSION).WeaklyFair {.commitIdleTransaction txn} σ
  reset : ∀ txn, (spec MAX_VERSION).WeaklyFair {.resetTransaction txn} σ

namespace State

/-- The transaction is committed or aborted. -/
def Finished (s : State TABLES TRANSACTIONS) (txn : TRANSACTIONS) : Prop :=
  s.txnState txn = .committed ∨ s.txnState txn = .aborted

/-- The transaction is active and has accessed a table. -/
def Working (s : State TABLES TRANSACTIONS) (txn : TRANSACTIONS) : Prop :=
  s.txnState txn = .active ∧ s.txnReadSet txn ∪ s.txnWriteSet txn ≠ ∅

/-- The transaction is active and has accessed no table. -/
def Fresh (s : State TABLES TRANSACTIONS) (txn : TRANSACTIONS) : Prop :=
  s.txnState txn = .active ∧ s.txnReadSet txn = ∅ ∧ s.txnWriteSet txn = ∅

/-- The validation lock is free. -/
def Unlocked (s : State TABLES TRANSACTIONS) : Prop := s.validationLock = none

omit [DecidableEq TRANSACTIONS] in
theorem fresh_or_working (h : s.txnState txn = .active) : s.Fresh txn ∨ s.Working txn := by
  by_cases hempty : s.txnReadSet txn ∪ s.txnWriteSet txn = ∅
  · exact .inl ⟨h, Finset.union_eq_empty.mp hempty⟩
  · exact .inr ⟨h, hempty⟩

/-! ## What a step does to a transaction -/

/-- How a step moves one transaction. -/
inductive Moves (s s' : State TABLES TRANSACTIONS) (txn : TRANSACTIONS) : Prop
  | stays : s'.txnState txn = s.txnState txn → s.txnReadSet txn ⊆ s'.txnReadSet txn →
      s.txnWriteSet txn ⊆ s'.txnWriteSet txn → Moves s s' txn
  | starts : s.txnState txn = .idle → Moves s s' txn
  | validates : s.txnState txn = .active → s'.txnState txn = .validating → Moves s s' txn
  | finishes : s'.Finished txn → Moves s s' txn
  | resets : s.Finished txn → Moves s s' txn

omit [DecidableEq TABLES] in
theorem Moves.of_ne {txn' : TRANSACTIONS} (hne : txn ≠ txn') {state : TxnState}
    (hstate : s'.txnState = update s.txnState txn' state)
    (hreads : s'.txnReadSet txn = s.txnReadSet txn)
    (hwrites : s'.txnWriteSet txn = s.txnWriteSet txn) : Moves s s' txn :=
  .stays (by rw [hstate, update_of_ne hne]) hreads.ge hwrites.ge

theorem moves (hs : (spec MAX_VERSION).Step l s s') (txn : TRANSACTIONS) : s.Moves s' txn := by
  obtain ⟨hg, rfl⟩ := hs
  cases l with
  | startTransaction txn' =>
    by_cases htxn : txn = txn'
    · exact .starts (htxn ▸ hg)
    · exact .of_ne htxn rfl rfl rfl
  | readTable txn' table =>
    refine .stays rfl ?_ subset_rfl
    change s.txnReadSet txn ⊆ update s.txnReadSet txn' (insert table (s.txnReadSet txn')) txn
    by_cases htxn : txn = txn'
    · subst htxn
      rw [update_self]
      exact Finset.subset_insert _ _
    · rw [update_of_ne htxn]
  | writeTable txn' table =>
    refine .stays rfl subset_rfl ?_
    change s.txnWriteSet txn ⊆ update s.txnWriteSet txn' (insert table (s.txnWriteSet txn')) txn
    by_cases htxn : txn = txn'
    · subst htxn
      rw [update_self]
      exact Finset.subset_insert _ _
    · rw [update_of_ne htxn]
  | enterValidation txn' =>
    by_cases htxn : txn = txn'
    · subst htxn
      exact .validates hg.1 (update_self ..)
    · exact .of_ne htxn rfl rfl rfl
  | commitTransaction txn' | blindAppendCommit txn' | commitIdleTransaction txn'
  | commitReadOnlyTransaction txn' | commitEmptyActiveTransaction txn' =>
    by_cases htxn : txn = txn'
    · subst htxn
      exact .finishes (.inl (update_self ..))
    · exact .of_ne htxn rfl rfl rfl
  | abortTransaction txn' =>
    by_cases htxn : txn = txn'
    · subst htxn
      exact .finishes (.inr (update_self ..))
    · exact .of_ne htxn rfl rfl rfl
  | resetTransaction txn' =>
    by_cases htxn : txn = txn'
    · exact .resets (htxn ▸ hg)
    · exact .of_ne htxn rfl (update_of_ne htxn ..) (update_of_ne htxn ..)

/-- The lock holder validates. -/
def HolderValidates (s : State TABLES TRANSACTIONS) : Prop :=
  ∀ txn, s.validationLock = some txn → s.txnState txn = .validating

omit [DecidableEq TABLES] in
theorem HolderValidates.of_update {txn' : TRANSACTIONS} {state : TxnState} (h : s.HolderValidates)
    (hlock : s'.validationLock = s.validationLock)
    (hstate : s'.txnState = update s.txnState txn' state) (hne : s.txnState txn' ≠ .validating) :
    s'.HolderValidates := by
  intro txn htxn
  have hvalidating := h txn (hlock ▸ htxn)
  rw [hstate, update_of_ne, hvalidating]
  rintro rfl
  exact hne hvalidating

omit [DecidableEq TABLES] [DecidableEq TRANSACTIONS] in
theorem HolderValidates.of_none (h : s.validationLock = none) : s.HolderValidates := by
  intro txn htxn
  cases h.symm.trans htxn

theorem holderValidates (h : (spec MAX_VERSION).Reachable s) : s.HolderValidates := by
  refine h.invariant (fun s hs ↦ ?_) fun l s hinv _ hg ↦ ?_
  · subst hs
    exact .of_none rfl
  · cases l with
    | startTransaction txn => exact hinv.of_update rfl rfl (by rw [hg]; decide)
    | readTable | writeTable => exact hinv
    | enterValidation txn =>
      intro txn' htxn'
      obtain rfl := Option.some.inj htxn'
      exact update_self ..
    | commitTransaction | abortTransaction | blindAppendCommit | commitReadOnlyTransaction =>
      exact .of_none rfl
    | resetTransaction txn =>
      refine hinv.of_update rfl rfl fun hv ↦ ?_
      rcases hg with h | h
      · cases h.symm.trans hv
      · cases h.symm.trans hv
    | commitIdleTransaction txn => exact hinv.of_update rfl rfl (by rw [hg.1]; decide)
    | commitEmptyActiveTransaction txn => exact hinv.of_update rfl rfl (by rw [hg.1]; decide)

end State

/-! ## Progress -/

section Progress

open State

/-- A decision is taken by a transaction that is validating. -/
theorem decision_of_validating (hl : l ∈ decisions txn) (hv : s.txnState txn = .validating)
    (hs : (spec MAX_VERSION).Step l s s') : s'.Finished txn ∧ s'.validationLock = none := by
  obtain ⟨hg, rfl⟩ := hs
  rcases hl with rfl | rfl | rfl | rfl
  · exact ⟨.inl (update_self ..), rfl⟩
  · exact ⟨.inr (update_self ..), rfl⟩
  · exact ⟨.inl (update_self ..), rfl⟩
  · cases hg.1.symm.trans hv

/-- A validating transaction that holds the lock can commit or abort. -/
theorem enabled_decisions (hv : s.txnState txn = .validating)
    (hlock : s.validationLock = some txn) :
    (spec MAX_VERSION).Enabled (decisions txn) s := by
  have hne : ∀ s' : State TABLES TRANSACTIONS, s'.validationLock = none → s' ≠ s := by
    rintro s' hnone rfl
    cases hnone.symm.trans hlock
  by_cases hcompatible : IsCompatible MAX_VERSION s txn
  · exact .of_guard (l := .commitTransaction txn) (by simp [decisions]) ⟨hv, hlock, hcompatible⟩
      (hne _ rfl)
  · exact .of_guard (l := .abortTransaction txn) (by simp [decisions]) ⟨hv, hlock, hcompatible⟩
      (hne _ rfl)

/-- What an unfinished transaction that validates does. -/
theorem validating_or_finished (hs : (spec MAX_VERSION).Step l s s')
    (hv : s.txnState txn = .validating) : s'.txnState txn = .validating ∨ s'.Finished txn := by
  rcases s.moves hs txn with hstays | hidle | hactive | hfinished | hreset
  · exact .inl (hstays.trans hv)
  · cases hidle.symm.trans hv
  · cases hactive.symm.trans hv
  · exact .inr hfinished
  · rcases hreset with h | h
    · cases h.symm.trans hv
    · cases h.symm.trans hv

namespace Fair

/-- `ValidationProgress` -/
theorem validating_leadsTo (h : Fair MAX_VERSION σ) (txn : TRANSACTIONS) :
    LeadsTo σ (fun s ↦ s.txnState txn = .validating) fun s ↦ s.Finished txn :=
  h.toBehaviour.leadsTo_of_weaklyFair (h.decide txn).weaklyFair
    (fun _ _ _ _ hv hs ↦ validating_or_finished hs hv)
    (fun _ hl _ _ _ hv hs ↦ (decision_of_validating hl hv hs).1)
    fun _ hr hv ↦ enabled_decisions hv (((inv_of_reachable hr).sound txn).lock hv)

/-- The lock becomes free. -/
theorem locked_leadsTo (h : Fair MAX_VERSION σ) (txn : TRANSACTIONS) :
    LeadsTo σ (fun s ↦ s.validationLock = some txn) fun s ↦ s.Unlocked := by
  refine h.toBehaviour.leadsTo_of_weaklyFair (h.decide txn).weaklyFair (fun l s s' _ hlock hs ↦ ?_)
    (fun l hl s s' hr hlock hs ↦ ?_) fun s hr hlock ↦ ?_
  · obtain ⟨hg, rfl⟩ := hs
    cases l with
    | startTransaction | readTable | writeTable | resetTransaction | commitIdleTransaction
    | commitEmptyActiveTransaction => exact .inl hlock
    | enterValidation => cases hg.2.1.symm.trans hlock
    | commitTransaction | abortTransaction | blindAppendCommit | commitReadOnlyTransaction =>
      exact .inr rfl
  · exact (decision_of_validating hl (holderValidates hr txn hlock) hs).2
  · exact enabled_decisions (holderValidates hr txn hlock) hlock

theorem unlocked_frequently (h : Fair MAX_VERSION σ) :
    ∃ᶠ n in atTop, (σ n).Unlocked :=
  LeadsTo.frequently (Q := Unlocked) fun n _ ↦ by
    cases hlock : (σ n).validationLock with
    | none => exact ⟨n, le_rfl, hlock⟩
    | some txn => exact h.locked_leadsTo txn n hlock

/-- A transaction that has accessed a table enters validation. -/
theorem working_leadsTo (h : Fair MAX_VERSION σ) (txn : TRANSACTIONS) :
    LeadsTo σ (fun s ↦ s.Working txn) fun s ↦ s.txnState txn = .validating ∨ s.Finished txn := by
  refine h.toBehaviour.leadsTo_of_stronglyFair (R := Unlocked) (h.enter txn)
    (fun l s s' _ hw hs ↦ ?_) (fun l hl s s' _ _ hs ↦ ?_) h.unlocked_frequently
    fun s _ hw hfree ↦ ?_
  · rcases s.moves hs txn with ⟨hstays, hreads, hwrites⟩ | hidle | ⟨-, hv⟩ | hfinished | hreset
    · refine .inl ⟨hstays.trans hw.1, fun hempty ↦ hw.2 (Finset.subset_empty.mp ?_)⟩
      exact hempty ▸ Finset.union_subset_union hreads hwrites
    · cases hidle.symm.trans hw.1
    · exact .inr (.inl hv)
    · exact .inr (.inr hfinished)
    · rcases hreset with h | h
      · cases h.symm.trans hw.1
      · cases h.symm.trans hw.1
  · obtain rfl := hl
    obtain ⟨-, rfl⟩ := hs
    exact .inl (update_self ..)
  · refine .of_guard rfl ⟨hw.1, hfree, hw.2⟩ fun heq ↦ ?_
    have hlock := congrArg State.validationLock heq
    cases hlock.trans hfree

/-- A transaction that has accessed no table accesses one, or ends. -/
theorem fresh_leadsTo (h : Fair MAX_VERSION σ) (txn : TRANSACTIONS) :
    LeadsTo σ (fun s ↦ s.Fresh txn) fun s ↦
      s.Working txn ∨ s.txnState txn = .validating ∨ s.Finished txn := by
  refine h.toBehaviour.leadsTo_of_weaklyFair (h.decide txn).weaklyFair (fun l s s' _ hf hs ↦ ?_)
    (fun l hl s s' _ hf hs ↦ ?_) fun s _ hf ↦ ?_
  · rcases s.moves hs txn with ⟨hstays, -, -⟩ | hidle | ⟨-, hv⟩ | hfinished | hreset
    · exact (fresh_or_working (hstays.trans hf.1)).imp_right .inl
    · cases hidle.symm.trans hf.1
    · exact .inr (.inr (.inl hv))
    · exact .inr (.inr (.inr hfinished))
    · rcases hreset with h | h
      · cases h.symm.trans hf.1
      · cases h.symm.trans hf.1
  · obtain ⟨hg, rfl⟩ := hs
    rcases hl with rfl | rfl | rfl | rfl
    · cases hg.1.symm.trans hf.1
    · cases hg.1.symm.trans hf.1
    · cases hg.1.symm.trans hf.1
    · exact .inr (.inr (.inl (update_self ..)))
  · refine .of_guard (l := .commitEmptyActiveTransaction txn) (by simp [decisions]) hf fun heq ↦ ?_
    have hstate := congrFun (congrArg State.txnState heq) txn
    cases ((update_self ..).symm.trans hstate).trans hf.1

/-- An idle transaction starts or commits at once. -/
theorem idle_leadsTo (h : Fair MAX_VERSION σ) (txn : TRANSACTIONS) :
    LeadsTo σ (fun s ↦ s.txnState txn = .idle) fun s ↦ s.txnState txn ≠ .idle := by
  refine h.toBehaviour.leadsTo_of_weaklyFair (h.commitIdle txn) (fun l s s' _ _ _ ↦ em _)
    (fun l hl s s' _ _ hs ↦ ?_) fun s hr hidle ↦ ?_
  · obtain rfl := hl
    obtain ⟨-, rfl⟩ := hs
    intro hidle
    cases (update_self ..).symm.trans hidle
  · refine .of_guard rfl ⟨hidle, ((inv_of_reachable hr).sound txn).idle hidle⟩ fun heq ↦ ?_
    have hstate := congrFun (congrArg State.txnState heq) txn
    cases ((update_self ..).symm.trans hstate).trans hidle

/-- **LV[I] makes progress.** Whatever state a transaction is in, it commits or aborts later: there
is no deadlock and no starvation. -/
theorem leadsTo_finished (h : Fair MAX_VERSION σ) (txn : TRANSACTIONS) :
    LeadsTo σ (fun _ ↦ True) fun s ↦ s.Finished txn := by
  have hvalidating := h.validating_leadsTo txn
  have hworking := (h.working_leadsTo txn).trans (hvalidating.or (.of_imp fun _ hf ↦ hf))
  have hfresh := (h.fresh_leadsTo txn).trans
    (hworking.or (hvalidating.or (.of_imp fun _ hf ↦ hf)))
  have hstarted : LeadsTo σ (fun s ↦ s.txnState txn ≠ .idle) fun s ↦ s.Finished txn := by
    intro n hn
    cases hstate : (σ n).txnState txn with
    | idle => exact absurd hstate hn
    | active => exact (hfresh.or hworking) n (fresh_or_working hstate)
    | validating => exact hvalidating n hstate
    | committed => exact ⟨n, le_rfl, .inl hstate⟩
    | aborted => exact ⟨n, le_rfl, .inr hstate⟩
  intro n _
  by_cases hidle : (σ n).txnState txn = .idle
  · exact (h.idle_leadsTo txn).trans hstarted n hidle
  · exact hstarted n hidle

end Fair

/-- **LV[I] is live**, for any tables, transactions and versions: `EventualTermination`,
`ValidationProgress`, and every transaction ends again and again. -/
theorem readOptimized_live (h : Fair MAX_VERSION σ) (txn : TRANSACTIONS) :
    (∃ n, (σ n).Finished txn) ∧
      LeadsTo σ (fun s ↦ s.txnState txn = .validating) (fun s ↦ s.Finished txn) ∧
      ∀ n, ∃ m ≥ n, (σ m).Finished txn := by
  have hends := h.leadsTo_finished txn
  refine ⟨?_, h.validating_leadsTo txn, fun n ↦ hends n trivial⟩
  obtain ⟨n, -, hn⟩ := hends 0 trivial
  exact ⟨n, hn⟩

end Progress

/-! ## A reader that comes again and again -/

section Reader

def readerLabel (n : ℕ) : Label Unit Unit :=
  match n % 5 with
  | 0 => .startTransaction ()
  | 1 => .readTable () ()
  | 2 => .enterValidation ()
  | 3 => .commitReadOnlyTransaction ()
  | _ => .resetTransaction ()

def readerState : ℕ → State Unit Unit
  | 0 => initial
  | n + 1 => ((spec 0).action (readerLabel n)).effect (readerState n)

theorem readerState_add_five (n : ℕ) : readerState (n + 5) = readerState n := by
  induction n with
  | zero => rfl
  | succ n ih =>
    have hlabel : readerLabel (n + 5) = readerLabel n := by simp [readerLabel]
    change ((spec 0).action (readerLabel (n + 5))).effect (readerState (n + 5)) = _
    rw [ih, hlabel]
    rfl

theorem readerState_eq (k r : ℕ) : readerState (5 * k + r) = readerState r := by
  induction k with
  | zero => rw [Nat.mul_zero, Nat.zero_add]
  | succ k ih => rw [Nat.mul_succ, Nat.add_right_comm, readerState_add_five, ih]

theorem readerLabel_eq (k r : ℕ) : readerLabel (5 * k + r) = readerLabel r := by
  simp [readerLabel]

/-- A step of the reader is taken again and again. -/
theorem reader_takes {A : Set (Label Unit Unit)} (r : ℕ) (hl : readerLabel r ∈ A)
    (hg : ((spec 0).action (readerLabel r)).guard (readerState r))
    (hne : readerState (r + 1) ≠ readerState r) :
    ∃ᶠ n in atTop, (spec 0).Takes A (readerState n) (readerState (n + 1)) := by
  refine frequently_atTop.mpr fun n ↦ ⟨5 * n + r, by omega, ?_⟩
  rw [Nat.add_assoc, readerState_eq, readerState_eq]
  exact ⟨hne, _, hl, hg, rfl⟩

theorem reader_guard_lt : ∀ r < 5,
    ((spec 0).action (readerLabel r)).guard (readerState r) := by decide

theorem reader_guard (n : ℕ) : ((spec 0).action (readerLabel n)).guard (readerState n) := by
  obtain ⟨k, r, hr, rfl⟩ : ∃ k r, r < 5 ∧ n = 5 * k + r :=
    ⟨n / 5, n % 5, Nat.mod_lt _ (by decide), (Nat.div_add_mod n 5).symm⟩
  rw [readerState_eq, readerLabel_eq]
  exact reader_guard_lt r hr

theorem reader_fair : Fair 0 readerState where
  init := rfl
  step n := .inr ⟨readerLabel n, reader_guard n, rfl⟩
  next := fun _ ↦ reader_takes 0 trivial (by decide) fun h ↦ by
    cases congrFun (congrArg State.txnState h) ()
  enter _ := fun _ ↦ reader_takes 2 rfl (by decide) fun h ↦ by
    cases congrFun (congrArg State.txnState h) ()
  decide _ := fun _ ↦ reader_takes 3 (by simp [decisions, readerLabel]) (by decide) fun h ↦ by
    cases congrFun (congrArg State.txnState h) ()
  commitIdle _ := fun h ↦ by
    -- it is not enabled while the reader is active
    obtain ⟨N, hN⟩ := eventually_atTop.mp h
    obtain ⟨s', -, l, rfl, hg, -⟩ := hN (5 * N + 1) (by omega)
    rw [readerState_eq] at hg
    have hidle : (readerState 1).txnState () = .idle := hg.1
    cases hidle
  reset _ := fun _ ↦ reader_takes 4 rfl (by decide) fun h ↦ by
    cases congrFun (congrArg State.txnState h) ()

theorem readOptimized_live_reader :
    (∃ n, (readerState n).Finished ()) ∧
      LeadsTo readerState (fun s ↦ s.txnState () = .validating) (fun s ↦ s.Finished ()) ∧
      ∀ n, ∃ m ≥ n, (readerState m).Finished () :=
  readOptimized_live reader_fair ()

end Reader

end LakeVilla.ReadOptimized

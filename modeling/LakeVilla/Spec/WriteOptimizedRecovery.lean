import LakeVilla.Concurrency.Fairness
import LakeVilla.Spec.WriteOptimized

/-!
# Recovery in LV[R] and LV[CT]

`Spec` of `LakeVillaWriteOptimized_spec.tla` with its fairness conditions, and the temporal property
`EventualRecovery`: crashed transactions are recovered.

A transaction that crashed once is reset in any case. After its second crash only a recovery helps,
and the fair one waits for a moment without active transactions. Such moments need not come: a
transaction whose commit waits for the marker of the crashed one may stay active for ever
(`crashed_forever`).
-/

namespace LakeVilla.WriteOptimized

open Concurrency Function Filter

variable {TABLES TRANSACTIONS FILES : Type} [DecidableEq TABLES] [DecidableEq TRANSACTIONS]
variable [Fintype TABLES] [Fintype TRANSACTIONS] {K : Constants TABLES} {txn : TRANSACTIONS}
variable {s s' : State TABLES TRANSACTIONS FILES} {l : Label TABLES TRANSACTIONS FILES}
variable {σ : ℕ → State TABLES TRANSACTIONS FILES}

/-- `Spec` -/
structure Fair (K : Constants TABLES) (σ : ℕ → State TABLES TRANSACTIONS FILES) : Prop
    extends (spec K).Behaviour σ where
  next : (spec K).WeaklyFair Set.univ σ
  external : ∀ txn, (spec K).StronglyFair {.externalRecovery txn} σ
  recover : ∀ txn, (spec K).StronglyFair {.recoverCrashedTransaction txn txn} σ
  reset : ∀ txn, (spec K).WeaklyFair {.resetTransaction txn} σ
  commit : ∀ txn, (spec K).WeaklyFair {.commitTransaction txn} σ

namespace State

/-- No transaction is active. -/
def Quiet (s : State TABLES TRANSACTIONS FILES) : Prop := ∀ t, s.txnState t ≠ .active

/-- The set of crashed transactions agrees with their states. -/
def CrashesNoted (s : State TABLES TRANSACTIONS FILES) : Prop :=
  ∀ txn ∈ s.crashedTxns, s.txnState txn = .crashed

omit [DecidableEq TABLES] [Fintype TABLES] [Fintype TRANSACTIONS] in
theorem CrashesNoted.of_update {txn : TRANSACTIONS} {state : TxnState} (h : s.CrashesNoted)
    (hcrashed : s'.crashedTxns ⊆ s.crashedTxns)
    (hstate : s'.txnState = update s.txnState txn state) (hne : txn ∉ s'.crashedTxns) :
    s'.CrashesNoted := by
  intro t ht
  have htxn : t ≠ txn := by
    rintro rfl
    exact hne ht
  rw [hstate, update_of_ne htxn]
  exact h t (hcrashed ht)

omit [DecidableEq TABLES] [DecidableEq TRANSACTIONS] [Fintype TABLES] [Fintype TRANSACTIONS] in
theorem CrashesNoted.notMem (h : s.CrashesNoted) (hstate : s.txnState txn ≠ .crashed) :
    txn ∉ s.crashedTxns := fun ht ↦ hstate (h txn ht)

omit [Fintype TABLES] [Fintype TRANSACTIONS] in
theorem CrashesNoted.recover (h : s.CrashesNoted) (txn : TRANSACTIONS) :
    (s.recover txn).CrashesNoted :=
  h.of_update (Finset.erase_subset _ _) rfl (Finset.notMem_erase _ _)

theorem crashesNoted (h : (spec K).Reachable s) : s.CrashesNoted := by
  refine Machine.Reaches.invariant (P := fun s ↦ s.CrashesNoted) h (fun s hs ↦ ?_)
    fun l s hinv _ hg ↦ ?_
  · obtain rfl : s = initial := hs
    exact fun txn htxn ↦ absurd htxn (Finset.notMem_empty _)
  · cases l with
    | startTransaction txn =>
      exact hinv.of_update subset_rfl rfl (hinv.notMem (by rw [hg.1]; decide))
    | placeMarker | addPhysicalSublog | addLogicalSublog | updateDependencies
    | terminateWhenLimitsExhausted => exact hinv
    | markerShift txn | commitTransaction txn | abortOnCycleDetection txn table
    | abortWhenVersionSpaceExhausted txn =>
      exact hinv.of_update subset_rfl rfl (hinv.notMem (by rw [hg.1]; decide))
    | resetTransaction txn =>
      exact hinv.of_update (Finset.erase_subset _ _) rfl (Finset.notMem_erase _ _)
    | crashTransaction txn =>
      intro t ht
      change update s.txnState txn .crashed t = .crashed
      by_cases htxn : t = txn
      · rw [htxn, update_self]
      · rw [update_of_ne htxn]
        exact hinv t (Finset.mem_of_mem_insert_of_ne ht htxn)
    | recoverCrashedTransaction txn cleaner => exact hinv.recover txn
    | externalRecovery txn => exact hinv.recover txn

/-- A transaction that stays crashed does not crash again. -/
theorem CrashesNoted.crashCount_eq (h : s.CrashesNoted) (hs : (spec K).Step l s s')
    (htxn : txn ∈ s.crashedTxns) (htxn' : txn ∈ s'.crashedTxns) :
    s'.crashCount txn = s.crashCount txn := by
  obtain ⟨hg, rfl⟩ := hs
  cases l with
  | crashTransaction t =>
    refine update_of_ne (fun heq ↦ ?_) ..
    cases (h txn htxn).symm.trans (heq ▸ hg.1)
  | resetTransaction t =>
    refine update_of_ne (fun heq ↦ ?_) ..
    exact absurd htxn' (heq ▸ Finset.notMem_erase _ _)
  | startTransaction | placeMarker | addPhysicalSublog | addLogicalSublog | updateDependencies
  | markerShift | commitTransaction | abortOnCycleDetection | abortWhenVersionSpaceExhausted
  | recoverCrashedTransaction | externalRecovery | terminateWhenLimitsExhausted => rfl

end State

/-! ## Recovery -/

namespace Fair

/-- A transaction that may be reset is reset or recovered. -/
theorem crashed_once_leadsTo (h : Fair K σ) (txn : TRANSACTIONS) :
    LeadsTo σ (fun s ↦ txn ∈ s.crashedTxns ∧ s.crashCount txn < 2)
      fun s ↦ txn ∉ s.crashedTxns := by
  refine h.toBehaviour.leadsTo_of_weaklyFair (h.reset txn) (fun l s s' hr hc hs ↦ ?_)
    (fun l hl s s' _ _ hs ↦ ?_) fun s hr hc ↦ ?_
  · by_cases hstill : txn ∈ s'.crashedTxns
    · exact .inl ⟨hstill, (State.crashesNoted hr).crashCount_eq hs hc.1 hstill ▸ hc.2⟩
    · exact .inr hstill
  · obtain rfl := hl
    obtain ⟨-, rfl⟩ := hs
    exact Finset.notMem_erase _ _
  · have hstate := State.crashesNoted hr txn hc.1
    refine .of_guard rfl (.inr (.inr ⟨hstate, hc.2⟩)) fun heq ↦ ?_
    exact Finset.notMem_erase txn _ ((congrArg State.crashedTxns heq).symm ▸ hc.1)

/-- With moments without active transactions, every crashed transaction is recovered. -/
theorem crashed_leadsTo (h : Fair K σ) (hquiet : ∃ᶠ n in atTop, (σ n).Quiet)
    (txn : TRANSACTIONS) :
    LeadsTo σ (fun s ↦ txn ∈ s.crashedTxns) fun s ↦ txn ∉ s.crashedTxns := by
  refine h.toBehaviour.leadsTo_of_stronglyFair (R := State.Quiet) (h.external txn)
    (fun _ _ _ _ _ _ ↦ em _) (fun l hl s s' _ _ hs ↦ ?_) hquiet fun s hr hc hq ↦ ?_
  · obtain rfl := hl
    obtain ⟨-, rfl⟩ := hs
    exact Finset.notMem_erase _ _
  · refine .of_guard rfl ⟨hc, State.crashesNoted hr txn hc, fun t ↦ ?_⟩ fun heq ↦ ?_
    · have := hq t
      cases hstate : s.txnState t <;> simp_all
    · exact Finset.notMem_erase txn _ ((congrArg State.crashedTxns heq).symm ▸ hc)

end Fair

/-- **Crashed transactions are recovered**, for any tables, transactions, files and versions: after
the first crash in any case, and always if again and again no transaction is active. -/
theorem writeOptimized_recovers (h : Fair K σ) (txn : TRANSACTIONS) :
    LeadsTo σ (fun s ↦ txn ∈ s.crashedTxns ∧ s.crashCount txn < 2)
        (fun s ↦ txn ∉ s.crashedTxns) ∧
      ((∃ᶠ n in atTop, (σ n).Quiet) →
        LeadsTo σ (fun s ↦ txn ∈ s.crashedTxns) fun s ↦ txn ∉ s.crashedTxns) :=
  ⟨h.crashed_once_leadsTo txn, fun hquiet ↦ h.crashed_leadsTo hquiet txn⟩

/-! ## A transaction that stays crashed -/

section Abandoned

/-- `false` crashes twice, the second time after `true` has placed its marker behind its own. -/
def abandonedLabel : ℕ → Label Unit Bool Unit
  | 0 => .startTransaction false
  | 1 => .placeMarker false ()
  | 2 => .crashTransaction false
  | 3 => .resetTransaction false
  | 4 => .startTransaction false
  | 5 => .placeMarker false ()
  | 6 => .startTransaction true
  | 7 => .placeMarker true ()
  | 8 => .crashTransaction false
  | _ => .addLogicalSublog true ()

def abandonedConstants : Constants Unit where
  MAX_VERSION := 2
  choose _ h := ⟨(), h.elim fun _ ht ↦ ht⟩

def abandonedState : ℕ → State Unit Bool Unit
  | 0 => initial
  | n + 1 => ((spec abandonedConstants).action (abandonedLabel n)).effect (abandonedState n)

/-- `false` has crashed twice, and `true` waits for its version. -/
structure Abandoned (s : State Unit Bool Unit) : Prop where
  crashed : s.txnState false = .crashed
  noted : false ∈ s.crashedTxns
  count : s.crashCount false = 2
  active : s.txnState true = .active
  accessed : s.txnAccessedTables true = {()}
  mode : s.sublogMode true = .logical
  read : s.txnReadVersions true () = 0
  write : s.txnWriteVersions true () = 2

theorem abandoned (n : ℕ) : Abandoned (abandonedState (n + 9)) := by
  induction n with
  | zero => exact ⟨rfl, by decide, rfl, rfl, by decide, rfl, rfl, rfl⟩
  | succ n ih =>
    exact ⟨ih.crashed, ih.noted, ih.count, ih.active, ih.accessed, ih.mode, ih.read, ih.write⟩

theorem abandoned_of_le {n : ℕ} (h : 9 ≤ n) : Abandoned (abandonedState n) := by
  obtain ⟨k, rfl⟩ := Nat.exists_eq_add_of_le' h
  exact abandoned k

theorem abandoned_sublogs (n : ℕ) : (abandonedState (n + 9 + 1)).logicalSublogs true =
    (abandonedState (n + 9)).logicalSublogs true ++ [⟨.seek, (), .restore⟩] := rfl

theorem abandoned_step (n : ℕ) :
    (spec abandonedConstants).Step (abandonedLabel n) (abandonedState n)
      (abandonedState (n + 1)) := by
  refine ⟨?_, rfl⟩
  by_cases hn : 9 ≤ n
  · obtain ⟨k, rfl⟩ := Nat.exists_eq_add_of_le' hn
    have h := abandoned k
    exact ⟨h.active, h.accessed ▸ Finset.mem_singleton_self _, .inl h.mode⟩
  · have hlt : ∀ n < 9, ((spec abandonedConstants).action (abandonedLabel n)).guard
        (abandonedState n) := by decide
    exact hlt n (Nat.lt_of_not_le hn)

/-- An action that is not enabled once `true` waits is never owed a step. -/
theorem abandoned_not_enabled {A : Set (Label Unit Bool Unit)}
    (h : ∀ l ∈ A, ∀ s, Abandoned s → ¬ ((spec abandonedConstants).action l).guard s) :
    (spec abandonedConstants).StronglyFair A abandonedState := by
  intro henabled
  obtain ⟨n, hn, s', -, l, hl, hg, -⟩ := frequently_atTop.mp henabled 9
  exact absurd hg (h l hl _ (abandoned_of_le hn))

theorem abandoned_fair : Fair abandonedConstants abandonedState where
  init := rfl
  step n := .inr ⟨_, abandoned_step n⟩
  next _ := frequently_atTop.mpr fun n ↦ by
    refine ⟨n + 9, Nat.le_add_right n 9, fun heq ↦ ?_, _, trivial, abandoned_step _⟩
    have hsublogs := congrFun (congrArg State.logicalSublogs heq) true
    rw [abandoned_sublogs, List.append_right_eq_self] at hsublogs
    cases hsublogs
  external txn := abandoned_not_enabled fun l hl s hs hg ↦ by
    obtain rfl := hl
    have := hg.2.2 true
    rw [hs.active] at this
    simp at this
  recover txn := abandoned_not_enabled fun l hl s hs hg ↦ by
    obtain rfl := hl
    cases hg.2.1.symm.trans hg.2.2
  reset txn := (abandoned_not_enabled fun l hl s hs hg ↦ by
    obtain rfl := hl
    cases txn with
    | false =>
      have := hs.crashed
      have := hs.count
      rcases hg with h | ⟨h, -⟩ | ⟨-, h⟩ <;> simp_all
    | true =>
      have := hs.active
      rcases hg with h | ⟨h, -⟩ | ⟨h, -⟩ <;> simp_all).weaklyFair
  commit txn := (abandoned_not_enabled fun l hl s hs hg ↦ by
    obtain rfl := hl
    cases txn with
    | false => cases hs.crashed.symm.trans hg.1
    | true =>
      have := (hg.2.2.2 () (hs.accessed ▸ Finset.mem_singleton_self _)).2
      rw [hs.write, hs.read] at this
      cases this).weaklyFair

theorem writeOptimized_recovers_abandoned :
    ∃ m ≥ 3, false ∉ (abandonedState m).crashedTxns :=
  (writeOptimized_recovers abandoned_fair false).1 3 (by decide)

/-- Fair behaviours need not recover a transaction after its second crash. -/
theorem crashed_forever : ∃ σ, Fair abandonedConstants σ ∧
    ¬ LeadsTo σ (fun s : State Unit Bool Unit ↦ false ∈ s.crashedTxns)
      fun s ↦ false ∉ s.crashedTxns := by
  refine ⟨abandonedState, abandoned_fair, fun h ↦ ?_⟩
  obtain ⟨m, hm, hrecovered⟩ := h 9 (abandoned 0).noted
  exact hrecovered (abandoned_of_le hm).noted

end Abandoned

end LakeVilla.WriteOptimized

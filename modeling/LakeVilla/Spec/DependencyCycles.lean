import Mathlib.Data.Finset.Max
import LakeVilla.Data.Acyclic
import LakeVilla.Spec.WriteOptimized

/-!
# Dependency cycles in LV[CT]

`UpdateDependencies` rejects a new dependency if a chain of at most two dependencies leads back to
the transaction. Longer chains go unnoticed: four transactions can depend on each other in a ring.
As long as no longer chain leads back either, there is no cycle of any length; among three
transactions there is no longer chain.
-/

namespace LakeVilla.WriteOptimized

open Concurrency Function Relation

variable {TABLES TRANSACTIONS FILES : Type}

namespace State

variable (s : State TABLES TRANSACTIONS FILES)

/-- An active transaction depends on an active transaction. -/
def Depends (t1 t2 : TRANSACTIONS) : Prop :=
  s.txnState t1 = .active ∧ s.txnState t2 = .active ∧ t2 ∈ s.txnDependencies t1

/-- No active transaction depends on itself, directly or through others. -/
def Acyclic : Prop := ∀ txn, ¬ TransGen s.Depends txn txn

/-- An active transaction depends on a transaction in any state. -/
def DependsFrom (t1 t2 : TRANSACTIONS) : Prop :=
  s.txnState t1 = .active ∧ t2 ∈ s.txnDependencies t1

variable {s} {x y : TRANSACTIONS}

theorem Depends.from (h : s.Depends x y) : s.DependsFrom x y := ⟨h.1, h.2.2⟩

/-- On a path all transactions but the last one are active. -/
theorem reaches_iff (hy : s.txnState y = .active) :
    ReflTransGen s.Depends x y ↔ ReflTransGen s.DependsFrom x y := by
  refine ⟨ReflTransGen.mono (fun _ _ ↦ Depends.from) _ _, fun h ↦ ?_⟩
  induction h with
  | refl => exact .refl
  | tail _ hzy ih => exact (ih hzy.1).tail ⟨hzy.1, hy, hzy.2⟩

theorem cycle_iff : TransGen s.Depends x x ↔ TransGen s.DependsFrom x x := by
  refine ⟨TransGen.mono (fun _ _ ↦ Depends.from) _ _, fun h ↦ ?_⟩
  obtain ⟨z, hxz, hzx⟩ := TransGen.head'_iff.mp h
  obtain ⟨y, hxy, hyx⟩ := TransGen.tail'_iff.mp h
  exact .tail' ((reaches_iff hyx.1).mpr hxy) ⟨hyx.1, hxz.1, hyx.2⟩

variable [DecidableEq TRANSACTIONS]

/-- No chain of dependencies leads from a transaction with a marker in the table back to `txn`. -/
def Unchained (s : State TABLES TRANSACTIONS FILES) (txn : TRANSACTIONS) (table : TABLES) : Prop :=
  ∀ target ∈ newDeps s txn table, ¬ ReflTransGen s.Depends target txn

end State

/-- A step adds dependencies only where no chain leads back. -/
def Heeded [DecidableEq TRANSACTIONS] (l : Label TABLES TRANSACTIONS FILES)
    (s : State TABLES TRANSACTIONS FILES) : Prop :=
  ∀ txn table, l = .updateDependencies txn table → s.Unchained txn table

/-- The invariant: idle transactions have no dependencies. -/
structure Ordered (s : State TABLES TRANSACTIONS FILES) : Prop where
  idle : ∀ txn, s.txnState txn = .idle → s.txnDependencies txn = ∅
  acyclic : s.Acyclic

section Steps

variable {s s' : State TABLES TRANSACTIONS FILES}

/-- A step that adds no dependency of an active transaction. -/
theorem Ordered.shrink (h : Ordered s)
    (hidle : ∀ x, s'.txnState x = .idle → s'.txnDependencies x = ∅)
    (hdeps : ∀ x y, s'.DependsFrom x y → s.DependsFrom x y) : Ordered s' := by
  refine ⟨hidle, fun x hx ↦ h.acyclic x ?_⟩
  exact State.cycle_iff.mpr (TransGen.mono hdeps _ _ (State.cycle_iff.mp hx))

theorem Ordered.congr (h : Ordered s) (hs : s'.txnState = s.txnState)
    (hd : s'.txnDependencies = s.txnDependencies) : Ordered s' := by
  refine h.shrink (fun x hx ↦ ?_) fun x y hxy ↦ ?_
  · rw [hd]
    exact h.idle x (hs ▸ hx)
  · exact ⟨hs ▸ hxy.1, hd ▸ hxy.2⟩

variable [DecidableEq TRANSACTIONS] {txn : TRANSACTIONS}

/-- A transaction stops. -/
theorem Ordered.stop (h : Ordered s) {st : TxnState} (hs : s'.txnState = update s.txnState txn st)
    (hst : st ≠ .active) (hidle : st = .idle → s'.txnDependencies txn = ∅)
    (hd : ∀ x, s'.txnDependencies x ⊆ s.txnDependencies x) : Ordered s' := by
  refine h.shrink (fun x hx ↦ ?_) fun x y hxy ↦ ?_
  · rw [hs] at hx
    by_cases hxt : x = txn
    · subst hxt
      rw [update_self] at hx
      exact hidle hx
    · rw [update_of_ne hxt] at hx
      exact Finset.subset_empty.mp (h.idle x hx ▸ hd x)
  · obtain ⟨hx, hy⟩ := hxy
    rw [hs] at hx
    have hxt : x ≠ txn := by
      rintro rfl
      exact hst (update_self x st s.txnState ▸ hx)
    rw [update_of_ne hxt] at hx
    exact ⟨hx, hd x hy⟩

theorem update_empty_subset (d : TRANSACTIONS → Finset TRANSACTIONS) (x : TRANSACTIONS) :
    update d txn ∅ x ⊆ d x := by
  by_cases hx : x = txn
  · subst hx
    rw [update_self]
    exact Finset.empty_subset _
  · rw [update_of_ne hx]

variable [DecidableEq TABLES] {table : TABLES}

/-- New dependencies close a cycle exactly if a chain leads back. -/
theorem Ordered.update (h : Ordered s) (hg : (updateDependencies txn table).guard s) :
    ((updateDependencies txn table).effect s).Acyclic ↔ s.Unchained txn table := by
  obtain ⟨hactive, -, -⟩ := hg
  constructor
  · intro hacyclic target ht hpath
    have hne : target ≠ txn := (Finset.mem_erase.mp ht).1
    have hmono : ∀ x y, s.Depends x y → ((updateDependencies txn table).effect s).Depends x y := by
      rintro x y ⟨hx, hy, hxy⟩
      refine ⟨hx, hy, ?_⟩
      by_cases hxt : x = txn
      · subst hxt
        simp [updateDependencies, hxy]
      · simpa [updateDependencies, hxt] using hxy
    obtain rfl | ⟨z, hz, -⟩ := ReflTransGen.cases_head hpath
    · exact hne rfl
    · refine hacyclic txn (.head' ⟨hactive, hz.1, ?_⟩ (ReflTransGen.mono hmono _ _ hpath))
      simp [updateDependencies, ht]
  · intro hchain x hx
    refine acyclic_of_edges (a := txn) (fun x y hxy ↦ ?_)
      (fun x hx ↦ h.acyclic x (State.cycle_iff.mpr hx)) x (State.cycle_iff.mp hx)
    by_cases hxt : x = txn
    · subst hxt
      have hy : y ∈ s.txnDependencies x ∨ y ∈ newDeps s x table := by
        simpa [updateDependencies] using hxy.2
      rcases hy with hy | hy
      · exact .inl ⟨hactive, hy⟩
      · exact .inr ⟨rfl, fun hpath ↦ hchain y hy ((State.reaches_iff hactive).mpr hpath)⟩
    · refine .inl ⟨hxy.1, ?_⟩
      simpa [updateDependencies, hxt] using hxy.2

variable [Fintype TABLES] [Fintype TRANSACTIONS] {K : Constants TABLES}

/-- **One step.** -/
theorem Ordered.step {l : Label TABLES TRANSACTIONS FILES} (h : Ordered s) (hC : Heeded l s)
    (hg : ((spec K).action l).guard s) : Ordered (((spec K).action l).effect s) := by
  cases l with
  | startTransaction txn =>
    have hnone := h.idle txn hg.1
    refine h.shrink (fun x hx ↦ ?_) fun x y hxy ↦ ?_
    · have hxt : x ≠ txn := by
        rintro rfl
        simp [spec, startTransaction] at hx
      exact h.idle x ((update_of_ne hxt _ _).symm.trans hx)
    · obtain ⟨hx, hy⟩ := hxy
      have hxt : x ≠ txn := by
        rintro rfl
        simp [spec, startTransaction, hnone] at hy
      exact ⟨(update_of_ne hxt _ _).symm.trans hx, hy⟩
  | updateDependencies txn table =>
    exact ⟨fun x hx ↦ by
      have hxt : x ≠ txn := by
        rintro rfl
        exact absurd (hg.1.symm.trans hx) (by simp)
      simpa [spec, updateDependencies, hxt] using h.idle x hx,
      (h.update hg).mpr (hC txn table rfl)⟩
  | placeMarker txn table | addPhysicalSublog txn table file | addLogicalSublog txn table =>
    exact h.congr rfl rfl
  | markerShift txn => exact h.stop rfl nofun nofun (update_empty_subset _)
  | resetTransaction txn =>
    exact h.stop rfl nofun (fun _ ↦ update_self ..) (update_empty_subset _)
  | commitTransaction txn | abortOnCycleDetection txn table | abortWhenVersionSpaceExhausted txn
  | crashTransaction txn | recoverCrashedTransaction txn cleaner | externalRecovery txn =>
    exact h.stop rfl nofun nofun fun _ ↦ Finset.Subset.refl _
  | terminateWhenLimitsExhausted => exact h

theorem ordered_of_reaches (h : (spec K).Reaches Heeded s) : Ordered s := by
  refine Machine.Reaches.invariant h (fun s hs ↦ ?_) fun l s hi hC hg ↦ hi.step hC hg
  obtain rfl : s = initial := hs
  refine ⟨fun _ _ ↦ rfl, fun x hx ↦ ?_⟩
  obtain ⟨y, hxy, -⟩ := TransGen.head'_iff.mp hx
  simp [State.Depends, initial] at hxy

/-- **No dependency cycle**, of any length, in the runs that add no dependency where a chain leads
back; and a step that does so closes a cycle. -/
theorem dependencies_acyclic (h : (spec K).Reaches Heeded s) :
    s.Acyclic ∧ ∀ txn table s', (spec K).Step (.updateDependencies txn table) s s' →
      (s'.Acyclic ↔ s.Unchained txn table) := by
  have hi := ordered_of_reaches h
  refine ⟨hi.acyclic, fun txn table s' hs ↦ ?_⟩
  obtain ⟨hg, rfl⟩ := hs
  exact hi.update hg

omit [Fintype TABLES] in
/-- Among three transactions the guard sees every chain. -/
theorem unchained_of_card_le (hcard : Fintype.card TRANSACTIONS ≤ 3) {txn : TRANSACTIONS}
    {table : TABLES} (hg : (updateDependencies txn table).guard s) : s.Unchained txn table := by
  intro target ht hpath
  refine hg.2.2 ⟨target, ht, ?_⟩
  rcases hpath.short hcard with rfl | hdep | ⟨z, hz, hz'⟩
  · exact absurd rfl (Finset.mem_erase.mp ht).1
  · exact .inr (.inl hdep.2.2)
  · exact .inr (.inr ⟨z, hz.2.2, .inl hz'.2.2⟩)

theorem reaches_of_card_le (hcard : Fintype.card TRANSACTIONS ≤ 3) (h : (spec K).Reachable s) :
    (spec K).Reaches Heeded s := by
  refine h.mono fun l s _ hg txn table hl ↦ ?_
  subst hl
  exact unchained_of_card_le hcard hg

/-- Three transactions never form a cycle. -/
theorem acyclic_of_card_le (hcard : Fintype.card TRANSACTIONS ≤ 3) (h : (spec K).Reachable s) :
    s.Acyclic :=
  (ordered_of_reaches (reaches_of_card_le hcard h)).acyclic

end Steps

/-- Two transactions place markers in one table, and the first depends on the second. -/
theorem dependencies_acyclic_run : ∃ s : State (Fin 1) (Fin 2) (Fin 1),
    (spec ⟨2, fun S hS ↦ ⟨S.min' hS, S.min'_mem hS⟩⟩).Reaches Heeded s ∧
      1 ∈ s.txnDependencies 0 ∧ s.Acyclic := by
  let K : Constants (Fin 1) := ⟨2, fun S hS ↦ ⟨S.min' hS, S.min'_mem hS⟩⟩
  let schedule : List (Label (Fin 1) (Fin 2) (Fin 1)) :=
    [.startTransaction 0, .startTransaction 1, .placeMarker 0 0, .placeMarker 1 0,
      .updateDependencies 0 0]
  have hrun : ((spec K).run schedule initial).map (·.txnDependencies 0) = some {1} := by decide
  obtain ⟨s, hs, hdeps⟩ := Option.map_eq_some_iff.mp hrun
  have h : (spec K).Reachable s := Machine.Reachable.run (Machine.Reaches.init rfl) hs
  have hheeded := reaches_of_card_le (by decide) h
  exact ⟨s, hheeded, by simp [hdeps], (dependencies_acyclic hheeded).1⟩

/-- Four transactions depend on each other in a ring: each has a marker in a table with the next one
and adds its dependency while no chain of two leads back. -/
theorem dependencies_cyclic : ∃ s : State (Fin 4) (Fin 4) (Fin 1),
    (spec ⟨2, fun S hS ↦ ⟨S.min' hS, S.min'_mem hS⟩⟩).Reachable s ∧ ¬ s.Acyclic := by
  let K : Constants (Fin 4) := ⟨2, fun S hS ↦ ⟨S.min' hS, S.min'_mem hS⟩⟩
  let turn (i : Fin 4) : List (Label (Fin 4) (Fin 4) (Fin 1)) :=
    [.placeMarker i i, .placeMarker (i + 1) i, .updateDependencies i i]
  let schedule : List (Label (Fin 4) (Fin 4) (Fin 1)) :=
    [.startTransaction 0, .startTransaction 1, .startTransaction 2, .startTransaction 3] ++
      turn 0 ++ turn 1 ++ turn 2 ++ turn 3
  have hrun : ((spec K).run schedule initial).map (fun s ↦ decide (∀ i,
      s.txnState i = .active ∧ i + 1 ∈ s.txnDependencies i)) = some true := by decide
  obtain ⟨s, hs, hring⟩ := Option.map_eq_some_iff.mp hrun
  have hring := of_decide_eq_true hring
  have hnext : ∀ i, s.Depends i (i + 1) := fun i ↦ ⟨(hring i).1, (hring (i + 1)).1, (hring i).2⟩
  refine ⟨s, Machine.Reachable.run (Machine.Reaches.init rfl) hs, fun hacyclic ↦ hacyclic 0 ?_⟩
  exact ((TransGen.single (hnext 0)).tail (hnext 1)).tail (hnext 2) |>.tail (hnext 3)

end LakeVilla.WriteOptimized

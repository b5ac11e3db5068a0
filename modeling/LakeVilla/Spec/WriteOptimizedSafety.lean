import Mathlib.Data.Finset.Max
import LakeVilla.Spec.WriteOptimized

/-!
# LV[R] and LV[CT] are safe for any number of tables and transactions

A new marker reserves a version above all reserved and committed ones, and a commit needs the
reserved version to be the next one of the table; so the versions that committed transactions wrote
in one table are different, and none is above the table's version.
-/

namespace LakeVilla.WriteOptimized

open Concurrency Function

variable {TABLES TRANSACTIONS FILES : Type}

namespace State

variable (s : State TABLES TRANSACTIONS FILES)

/-- The version is the initial one or committed. -/
def Readable (table : TABLES) (v : ℕ) : Prop := v = 0 ∨ s.tableLogs table v = .committed

/-- What a committed transaction wrote in a table: the version after the one it read. -/
structure Wrote (txn : TRANSACTIONS) (table : TABLES) : Prop where
  next : s.txnWriteVersions txn table = s.txnReadVersions txn table + 1
  le : s.txnWriteVersions txn table ≤ s.tableVersions table

variable [DecidableEq TRANSACTIONS]

/-- The inductive invariant. -/
structure Inv : Prop where
  idle : ∀ txn, s.txnState txn = .idle → s.txnAccessedTables txn = ∅
  accessed : ∀ table, ∀ m ∈ s.markers table, table ∈ s.txnAccessedTables m.txnId
  markers : MarkerUniqueness s
  reserved : UniqueMarkerVersions s
  latest : ∀ table, s.Readable table (s.tableVersions table)
  read : ∀ txn table, s.Readable table (s.txnReadVersions txn table)
  wrote : ∀ txn, s.txnState txn = .committed → ∀ table ∈ s.txnAccessedTables txn, s.Wrote txn table
  writes : NoLostUpdates s

end State

section Actions

variable [DecidableEq TRANSACTIONS]
variable {s s' : State TABLES TRANSACTIONS FILES} {txn : TRANSACTIONS} {table : TABLES}

namespace State

/-- A step that commits nothing and places no marker. -/
theorem Inv.release (h : s.Inv) (hlogs : s'.tableLogs = s.tableLogs)
    (hversions : s'.tableVersions = s.tableVersions)
    (hmarkers : ∀ t, (s'.markers t).Sublist (s.markers t))
    (hreserved : ∀ t x, s'.markerVersions t x = s.markerVersions t x ∨ s'.markerVersions t x = 0)
    (hidle : ∀ x, s'.txnState x = .idle → s'.txnAccessedTables x = ∅)
    (haccessed : ∀ t, ∀ m ∈ s'.markers t, t ∈ s.txnAccessedTables m.txnId →
      t ∈ s'.txnAccessedTables m.txnId)
    (hread : ∀ x t, s.Readable t (s'.txnReadVersions x t))
    (hcommitted : ∀ x, s'.txnState x = .committed → s.txnState x = .committed ∧
      s'.txnAccessedTables x = s.txnAccessedTables x ∧
      s'.txnReadVersions x = s.txnReadVersions x ∧
      s'.txnWriteVersions x = s.txnWriteVersions x) : s'.Inv where
  idle := hidle
  accessed t m hm := haccessed t m hm (h.accessed t m ((hmarkers t).subset hm))
  markers t x := le_trans (hmarkers t).countP_le (h.markers t x)
  reserved t x y hne hx hy := by
    have hx' : s'.markerVersions t x = s.markerVersions t x :=
      (hreserved t x).resolve_right (Nat.ne_of_gt hx)
    have hy' : s'.markerVersions t y = s.markerVersions t y :=
      (hreserved t y).resolve_right (Nat.ne_of_gt hy)
    rw [hx', hy']
    exact h.reserved t x y hne (hx' ▸ hx) (hy' ▸ hy)
  latest t := by
    rw [Readable, hlogs, hversions]
    exact h.latest t
  read x t := by
    rw [Readable, hlogs]
    exact hread x t
  wrote x hx t ht := by
    obtain ⟨hx', ha, hr, hw⟩ := hcommitted x hx
    obtain ⟨hnext, hle⟩ := h.wrote x hx' t (ha ▸ ht)
    exact ⟨by rw [hw, hr, hnext], by rw [hw, hversions]; exact hle⟩
  writes x y t hne hx hy htx hty := by
    obtain ⟨hx', hax, -, hwx⟩ := hcommitted x hx
    obtain ⟨hy', hay, -, hwy⟩ := hcommitted y hy
    rw [hwx, hwy]
    exact h.writes x y t hne hx' hy' (hax ▸ htx) (hay ▸ hty)

/-- The other transactions keep their state. -/
theorem update_state {st : TxnState} (hst : st ≠ .idle ∧ st ≠ .committed) (x : TRANSACTIONS) :
    update s.txnState txn st x = s.txnState x ∨
      update s.txnState txn st x ≠ .idle ∧ update s.txnState txn st x ≠ .committed := by
  by_cases hx : x = txn
  · subst hx
    rw [update_self]
    exact .inr hst
  · exact .inl (update_of_ne hx _ _)

/-- A release that leaves the accessed tables and their versions as they are. -/
theorem Inv.stop (h : s.Inv) (hlogs : s'.tableLogs = s.tableLogs)
    (hversions : s'.tableVersions = s.tableVersions)
    (hmarkers : ∀ t, (s'.markers t).Sublist (s.markers t))
    (hreserved : ∀ t x, s'.markerVersions t x = s.markerVersions t x ∨ s'.markerVersions t x = 0)
    (haccessed : s'.txnAccessedTables = s.txnAccessedTables)
    (hread : s'.txnReadVersions = s.txnReadVersions)
    (hwrite : s'.txnWriteVersions = s.txnWriteVersions)
    (hstate : ∀ x, s'.txnState x = s.txnState x ∨
      s'.txnState x ≠ .idle ∧ s'.txnState x ≠ .committed) : s'.Inv := by
  refine h.release hlogs hversions hmarkers hreserved (fun x hx ↦ ?_) (fun t m _ ht ↦ ?_)
    (fun x t ↦ ?_) fun x hx ↦ ⟨?_, by rw [haccessed], by rw [hread], by rw [hwrite]⟩
  · rw [haccessed]
    exact h.idle x ((hstate x).resolve_right (fun hn ↦ hn.1 hx) ▸ hx)
  · rw [haccessed]
    exact ht
  · rw [hread]
    exact h.read x t
  · exact (hstate x).resolve_right (fun hn ↦ hn.2 hx) ▸ hx

theorem Inv.startTransaction (h : s.Inv) : ((startTransaction txn).effect s).Inv :=
  h.stop rfl rfl (fun _ ↦ .refl _) (fun _ _ ↦ .inl rfl) rfl rfl rfl
    (update_state ⟨nofun, nofun⟩)

variable [DecidableEq TABLES]

theorem freeMarkers_sublist (t : TABLES) : (s.freeMarkers txn t).Sublist (s.markers t) := by
  rw [freeMarkers]
  split
  · exact List.filter_sublist
  · exact List.Sublist.refl _

theorem freeVersions_eq (t : TABLES) (x : TRANSACTIONS) :
    s.freeVersions txn t x = s.markerVersions t x ∨ s.freeVersions txn t x = 0 := by
  rw [freeVersions]
  split
  · by_cases hx : x = txn
    · exact .inr (by rw [hx, update_self])
    · exact .inl (by rw [update_of_ne hx])
  · exact .inl rfl

/-- A freed transaction has no markers left. -/
theorem Inv.ne_of_mem_freeMarkers (h : s.Inv) {t : TABLES} {m : Marker TRANSACTIONS}
    (hm : m ∈ s.freeMarkers txn t) : m.txnId ≠ txn := by
  rw [freeMarkers] at hm
  split at hm
  · simpa using (List.mem_filter.mp hm).2
  · next ht =>
    rintro rfl
    exact ht (h.accessed t m hm)

theorem Inv.addPhysicalSublog (h : s.Inv) {file : FILES} {a : PhysicalAction}
    {c : PhysicalCompensation} : ((addPhysicalSublog txn table a file c).effect s).Inv :=
  h.stop rfl rfl (fun _ ↦ .refl _) (fun _ _ ↦ .inl rfl) rfl rfl rfl fun _ ↦ .inl rfl

theorem Inv.addLogicalSublog (h : s.Inv) {a : LogicalAction} {c : LogicalCompensation} :
    ((addLogicalSublog txn table a c).effect s).Inv :=
  h.stop rfl rfl (fun _ ↦ .refl _) (fun _ _ ↦ .inl rfl) rfl rfl rfl fun _ ↦ .inl rfl

theorem Inv.updateDependencies (h : s.Inv) : ((updateDependencies txn table).effect s).Inv :=
  h.stop rfl rfl (fun _ ↦ .refl _) (fun _ _ ↦ .inl rfl) rfl rfl rfl fun _ ↦ .inl rfl

theorem Inv.markerShift [Fintype TRANSACTIONS] (h : s.Inv) {K : Constants TABLES} :
    ((markerShift K txn).effect s).Inv := by
  refine h.stop rfl rfl freeMarkers_sublist (fun t x ↦ ?_) rfl rfl rfl
    (update_state ⟨nofun, nofun⟩)
  simp only [WriteOptimized.markerShift]
  split
  · simp only [update_apply]
    split
    · next ht =>
      subst ht
      rw [update_apply]
      split
      · exact .inr rfl
      · exact .inl rfl
    · exact .inl rfl
  · exact .inl rfl

theorem Inv.abortOnCycleDetection (h : s.Inv) (table : TABLES) :
    ((abortOnCycleDetection txn table).effect s).Inv :=
  h.stop rfl rfl freeMarkers_sublist freeVersions_eq rfl rfl rfl (update_state ⟨nofun, nofun⟩)

theorem Inv.abortWhenVersionSpaceExhausted [Fintype TABLES] (h : s.Inv) {K : Constants TABLES} :
    ((abortWhenVersionSpaceExhausted K txn).effect s).Inv :=
  h.stop rfl rfl (fun _ ↦ .refl _) (fun _ _ ↦ .inl rfl) rfl rfl rfl
    (update_state ⟨nofun, nofun⟩)

theorem Inv.crashTransaction (h : s.Inv) : ((crashTransaction txn).effect s).Inv :=
  h.stop rfl rfl (fun _ ↦ .refl _) (fun _ _ ↦ .inl rfl) rfl rfl rfl
    (update_state ⟨nofun, nofun⟩)

theorem Inv.recover (h : s.Inv) : (s.recover txn).Inv :=
  h.stop rfl rfl freeMarkers_sublist (fun _ _ ↦ .inl rfl) rfl rfl rfl
    (update_state ⟨nofun, nofun⟩)

theorem Inv.resetTransaction (h : s.Inv) : ((resetTransaction txn).effect s).Inv := by
  refine h.release rfl rfl freeMarkers_sublist freeVersions_eq (fun x hx ↦ ?_)
    (fun t m hm ht ↦ ?_) (fun x t ↦ ?_) fun x hx ↦ ?_
  · by_cases hxt : x = txn
    · simp [WriteOptimized.resetTransaction, hxt]
    · simp only [WriteOptimized.resetTransaction, update_of_ne hxt] at hx ⊢
      exact h.idle x hx
  · simp only [WriteOptimized.resetTransaction, update_of_ne (h.ne_of_mem_freeMarkers hm)]
    exact ht
  · by_cases hxt : x = txn
    · simp only [WriteOptimized.resetTransaction, hxt, update_self]
      exact h.latest t
    · simp only [WriteOptimized.resetTransaction, update_of_ne hxt]
      exact h.read x t
  · have hxt : x ≠ txn := by
      rintro rfl
      simp [WriteOptimized.resetTransaction] at hx
    simp only [WriteOptimized.resetTransaction, update_of_ne hxt] at hx ⊢
    exact ⟨hx, trivial, trivial, trivial⟩

theorem Inv.placeMarker [Fintype TRANSACTIONS] (h : s.Inv) {K : Constants TABLES}
    (hg : (placeMarker K txn table).guard s) : ((placeMarker K txn table).effect s).Inv := by
  obtain ⟨hactive, hnew, -, -⟩ := hg
  have hother : ∀ {x st}, st ≠ .active → s.txnState x = st → x ≠ txn := by
    rintro x st hst hx rfl
    exact hst (hx.symm.trans hactive)
  have hnone : ∀ m ∈ s.markers table, m.txnId ≠ txn := by
    rintro m hm rfl
    exact hnew (h.accessed table m hm)
  refine ⟨fun x hx ↦ ?_, fun t m hm ↦ ?_, fun t x ↦ ?_, fun t x y hne hx hy ↦ ?_, h.latest,
    fun x t ↦ ?_, fun x hx t ht ↦ ?_, fun x y t hne hx hy htx hty ↦ ?_⟩
  · simp only [WriteOptimized.placeMarker, update_of_ne (hother (by simp) hx)]
    exact h.idle x hx
  · have hold : ∀ t, ∀ m ∈ s.markers t,
        t ∈ ((WriteOptimized.placeMarker K txn table).effect s).txnAccessedTables m.txnId := by
      intro t m hm
      have ht := h.accessed t m hm
      simp only [WriteOptimized.placeMarker, update_apply]
      split
      · next hmt => exact Finset.mem_insert_of_mem (hmt ▸ ht)
      · exact ht
    simp only [WriteOptimized.placeMarker, update_apply] at hm
    split at hm
    · next ht =>
      subst ht
      rcases List.mem_append.mp hm with hm | hm
      · exact hold t m hm
      · obtain rfl := List.mem_singleton.mp hm
        simp [WriteOptimized.placeMarker]
    · exact hold t m hm
  · simp only [WriteOptimized.placeMarker, update_apply]
    split
    · next ht =>
      subst ht
      rw [List.countP_append]
      by_cases hx : x = txn
      · have hzero : (s.markers t).countP (·.txnId = x) = 0 := by
          refine List.countP_eq_zero.mpr fun m hm ↦ ?_
          simpa [hx] using hnone m hm
        rw [hzero, Nat.zero_add]
        exact List.countP_le_length
      · rw [List.countP_singleton, if_neg (by simpa using fun hx' ↦ hx hx'.symm), Nat.add_zero]
        exact h.markers t x
    · exact h.markers t x
  · simp only [WriteOptimized.placeMarker, update_apply] at hx hy ⊢
    split at hx
    · next ht =>
      subst ht
      rw [if_pos rfl] at hy
      rw [update_apply] at hx hy
      rw [if_pos rfl, update_apply, update_apply]
      by_cases hxt : x = txn <;> by_cases hyt : y = txn
      · exact absurd (hxt.trans hyt.symm) hne
      · rw [if_pos hxt, if_neg hyt]
        exact Nat.ne_of_gt (reserved_lt_nextVersion y)
      · rw [if_neg hxt, if_pos hyt]
        exact Nat.ne_of_lt (reserved_lt_nextVersion x)
      · rw [if_neg hxt, if_neg hyt]
        rw [if_neg hxt] at hx
        rw [if_neg hyt] at hy
        exact h.reserved t x y hne hx hy
    · next ht =>
      rw [if_neg ht] at hy
      rw [if_neg ht]
      exact h.reserved t x y hne hx hy
  · change s.Readable t (update s.txnReadVersions txn _ x t)
    rw [update_apply]
    split
    · next hx =>
      subst hx
      rw [update_apply]
      split
      · next ht =>
        subst ht
        exact h.latest t
      · exact h.read x t
    · exact h.read x t
  · have hxt := hother (by simp) hx
    have ht' : t ∈ s.txnAccessedTables x := by
      simpa [WriteOptimized.placeMarker, hxt] using ht
    obtain ⟨hn, hle⟩ := h.wrote x hx t ht'
    constructor
    · simpa [WriteOptimized.placeMarker, hxt] using hn
    · simpa [WriteOptimized.placeMarker, hxt] using hle
  · have hxt := hother (by simp) hx
    have hyt := hother (by simp) hy
    simp only [WriteOptimized.placeMarker, update_of_ne hxt, update_of_ne hyt] at htx hty ⊢
    exact h.writes x y t hne hx hy htx hty

theorem Inv.commitTransaction (h : s.Inv) (hg : (commitTransaction txn).guard s) :
    ((commitTransaction txn).effect s).Inv := by
  obtain ⟨hactive, -, -, hnext⟩ := hg
  have hlogs : ∀ t v, s.Readable t v →
      ((WriteOptimized.commitTransaction txn).effect s).Readable t v := by
    intro t v hv
    refine hv.imp_right fun hv ↦ ?_
    simp only [WriteOptimized.commitTransaction]
    split
    · rw [update_apply]
      split
      · rfl
      · exact hv
    · exact hv
  -- the tables advance to the version after the one that was read
  have hversion : ∀ t ∈ s.txnAccessedTables txn,
      s.txnWriteVersions txn t = s.tableVersions t + 1 := by
    intro t ht
    rw [(hnext t ht).1, (hnext t ht).2]
  have hlater : ∀ t, s.tableVersions t ≤
      if t ∈ s.txnAccessedTables txn then s.txnWriteVersions txn t else s.tableVersions t := by
    intro t
    split
    · next ht => exact hversion t ht ▸ Nat.le_succ _
    · exact le_rfl
  have hstate : ∀ {x}, x ≠ txn → ((WriteOptimized.commitTransaction txn).effect s).txnState x =
      s.txnState x := fun hx ↦ update_of_ne hx _ _
  refine ⟨fun x hx ↦ ?_, fun t m hm ↦ h.accessed t m ((freeMarkers_sublist t).subset hm),
    fun t x ↦ le_trans (freeMarkers_sublist t).countP_le (h.markers t x), h.reserved, fun t ↦ ?_,
    fun x t ↦ hlogs t _ (h.read x t), fun x hx t ht ↦ ?_, fun x y t hne hx hy htx hty ↦ ?_⟩
  · by_cases hxt : x = txn
    · simp [WriteOptimized.commitTransaction, hxt] at hx
    · exact h.idle x (hstate hxt ▸ hx)
  · by_cases ht : t ∈ s.txnAccessedTables txn
    · exact .inr (by simp [WriteOptimized.commitTransaction, ht])
    · have := hlogs t _ (h.latest t)
      simpa [WriteOptimized.commitTransaction, ht] using this
  · by_cases hxt : x = txn
    · subst hxt
      exact ⟨(hnext t ht).2, (if_pos ht).ge⟩
    · obtain ⟨hn, hle⟩ := h.wrote x (hstate hxt ▸ hx) t ht
      exact ⟨hn, le_trans hle (hlater t)⟩
  · -- earlier commits wrote versions below the new one
    have hbelow : ∀ z, z ≠ txn → ((WriteOptimized.commitTransaction txn).effect s).txnState z =
        .committed → t ∈ s.txnAccessedTables z → t ∈ s.txnAccessedTables txn →
        s.txnWriteVersions z t < s.txnWriteVersions txn t := by
      intro z hz hc hzt ht
      rw [hversion t ht]
      exact Nat.lt_succ_of_le (h.wrote z (hstate hz ▸ hc) t hzt).le
    by_cases hxt : x = txn <;> by_cases hyt : y = txn
    · exact absurd (hxt.trans hyt.symm) hne
    · subst hxt
      exact Nat.ne_of_gt (hbelow y hyt hy hty htx)
    · subst hyt
      exact Nat.ne_of_lt (hbelow x hxt hx htx hty)
    · exact h.writes x y t hne (hstate hxt ▸ hx) (hstate hyt ▸ hy) htx hty

end State

variable [DecidableEq TABLES] [Fintype TABLES] [Fintype TRANSACTIONS] {K : Constants TABLES}

/-- **One step.** -/
theorem State.Inv.step {l : Label TABLES TRANSACTIONS FILES} (h : s.Inv)
    (hg : ((spec K).action l).guard s) : (((spec K).action l).effect s).Inv := by
  cases l with
  | startTransaction txn => exact h.startTransaction
  | placeMarker txn table => exact h.placeMarker hg
  | addPhysicalSublog txn table file => exact h.addPhysicalSublog
  | addLogicalSublog txn table => exact h.addLogicalSublog
  | updateDependencies txn table => exact h.updateDependencies
  | markerShift txn => exact h.markerShift
  | commitTransaction txn => exact h.commitTransaction hg
  | abortOnCycleDetection txn table => exact h.abortOnCycleDetection table
  | abortWhenVersionSpaceExhausted txn => exact h.abortWhenVersionSpaceExhausted (K := K)
  | resetTransaction txn => exact h.resetTransaction
  | crashTransaction txn => exact h.crashTransaction
  | recoverCrashedTransaction txn cleaner => exact h.recover
  | externalRecovery txn => exact h.recover
  | terminateWhenLimitsExhausted => exact h

theorem inv_of_reachable (h : (spec K).Reachable s) : s.Inv := by
  refine Machine.Reaches.invariant (P := fun s ↦ s.Inv) h (fun s hs ↦ ?_)
    fun l s hi _ hg ↦ hi.step hg
  obtain rfl : s = initial := hs
  constructor <;> simp [initial, State.Readable, MarkerUniqueness, UniqueMarkerVersions,
    NoLostUpdates]

/-- **LV[R] and LV[CT] are safe**, for any tables, transactions, files and versions. -/
theorem writeOptimized_safe (h : (spec K).Reachable s) :
    UniqueMarkerVersions s ∧ NoLostUpdates s ∧ MultiTableRepeatableReads s ∧ NoDirtyReads s ∧
      MarkerUniqueness s := by
  have hi := inv_of_reachable h
  refine ⟨hi.reserved, hi.writes, ?_, fun txn table _ _ ↦ ?_, hi.markers⟩
  · intro txn htxn _ table ht ver hlow _ other hne hother hto hver
    -- the transaction wrote the first version after the one it read
    have hnext := (hi.wrote txn htxn table ht).next
    have hdiff := hi.writes other txn table hne hother htxn hto ht
    exact .inr (by omega)
  · exact (hi.read txn table).imp_right .inl

end Actions

/-- Transaction 0 crashes with a marker and is recovered; transaction 1 commits two tables. -/
theorem writeOptimized_safe_run : ∃ s : State (Fin 2) (Fin 2) (Fin 1),
    (spec ⟨3, fun S hS ↦ ⟨S.min' hS, S.min'_mem hS⟩⟩).Reachable s ∧ s.tableVersions 0 = 1 ∧
      MultiTableRepeatableReads s ∧ NoLostUpdates s := by
  let K : Constants (Fin 2) := ⟨3, fun S hS ↦ ⟨S.min' hS, S.min'_mem hS⟩⟩
  let schedule : List (Label (Fin 2) (Fin 2) (Fin 1)) :=
    [.startTransaction 0, .placeMarker 0 0, .crashTransaction 0, .externalRecovery 0,
      .resetTransaction 0, .startTransaction 1, .placeMarker 1 0, .placeMarker 1 1,
      .commitTransaction 1]
  have hrun : ((spec K).run schedule initial).map (·.tableVersions 0) = some 1 := by decide
  obtain ⟨s, hs, hversion⟩ := Option.map_eq_some_iff.mp hrun
  have h : (spec K).Reachable s := Machine.Reachable.run (Machine.Reaches.init rfl) hs
  have hsafe := writeOptimized_safe h
  exact ⟨s, h, hversion, hsafe.2.2.1, hsafe.2.1⟩

end LakeVilla.WriteOptimized

import LakeVilla.Storage.StoreClock
import LakeVilla.Transaction.Commit

/-!
# Leases and estimated time

A holder commits only while its lease cannot have ended (`lease_expiring`), and a waiter takes a
marker over only when the lease has certainly ended (`wait_for_marker`). Both ask their own estimate
of the store's clock. If each estimate comes from samples that are consistent with one offset, the
two checks exclude each other at every instant, whatever the offsets of the local clocks are.
-/

namespace LakeVilla

open Concurrency

/-- What the code does next if it asks for the store's time and is answered `now`. -/
def Tx.atStoreTime {α : Type} (x : Tx α) (t : Txn) (now : StoreTime) :
    Program Txn Response (α × Txn) :=
  match x t with
  | .call _ .storeTime k => k now
  | p => p

/-- The margin of `lease_expiring`. -/
def ProtocolOptions.leaseMarginMs (options : ProtocolOptions) : ℤ :=
  ((min 500 (options.markerLeaseMs / 4) : ℕ) : ℤ)

/-- The deadline of a running marker as a waiter sees it, who started to wait at `start`. -/
def ProtocolOptions.deadlineMs (options : ProtocolOptions) (o : Object) (deadline : Option ℤ)
    (start : ℤ) : ℤ :=
  deadline.getD ((if 0 ≤ o.lastModifiedMs then o.lastModifiedMs else start) + options.markerLeaseMs)

/-- The transaction holds a marker with a lease, and `lease_expiring` returns `false`. -/
structure Txn.LeaseLeft (t : Txn) (tbl : TableStats) (mk : Marker) (now : StoreTime) : Prop where
  markers : t.markers = true
  marker : tbl.marker = some mk
  valid : mk.valid = true
  /-- 0 stands for a marker without a deadline -/
  deadline : mk.deadlineMs ≠ 0
  check : (Tx.leaseExpiring tbl).atStoreTime t now = .ret (false, t)

/-- A waiter may take the marker over: the wait does not simply go on. -/
def Txn.MayTakeOver (t : Txn) (path : Table) (v : ℕ) (o : Object) (deadline : Option ℤ)
    (start : ℤ) (now : StoreTime) : Prop :=
  (Tx.takeOver path v o deadline start).atStoreTime t now ≠ .ret (.error, t)

section Checks

variable {t : Txn} {tbl : TableStats} {mk : Marker} {now : StoreTime}
variable {path : Table} {v : ℕ} {o : Object} {deadline : Option ℤ} {start : ℤ}

/-- What `leaseExpiring` does with the marker of the table. -/
def leaseCheck (t : Txn) : Option Marker → Tx Bool
  | some mk =>
    if !t.markers || !mk.valid || mk.deadlineMs = 0 then pure false
    else do
      let margin := min 500 (t.cfg.options.markerLeaseMs / 4)
      pure (decide (mk.deadlineMs ≤ (← Tx.storeTime).latest + margin))
  | none => pure false

/-- A holder with a lease asks for the store's time once. -/
theorem leaseExpiring_eq (hm : t.markers = true) (hmk : tbl.marker = some mk)
    (hv : mk.valid = true) (hd : mk.deadlineMs ≠ 0) :
    Tx.leaseExpiring tbl t = .call t .storeTime fun now ↦
      .ret (decide (mk.deadlineMs ≤ now.latest + t.cfg.options.leaseMarginMs), t) := by
  have hbody : Tx.leaseExpiring tbl t = leaseCheck t tbl.marker t := by
    unfold leaseCheck
    rfl
  rw [hbody, hmk]
  simp only [leaseCheck, hm, hv, hd]
  rfl

theorem Txn.LeaseLeft.latest_lt (h : t.LeaseLeft tbl mk now) :
    now.latest + t.cfg.options.leaseMarginMs < mk.deadlineMs := by
  have hcheck := h.check
  rw [Tx.atStoreTime, leaseExpiring_eq h.markers h.marker h.valid h.deadline] at hcheck
  have hfalse := congrArg Prod.fst (Program.ret.inj hcheck)
  exact not_le.mp (of_decide_eq_false hfalse)

theorem Txn.MayTakeOver.lt_earliest (h : t.MayTakeOver path v o deadline start now) :
    t.cfg.options.deadlineMs o deadline start + t.cfg.options.markerGraceMs < now.earliest := by
  by_contra hn
  refine h ?_
  have hbody : (Tx.takeOver path v o deadline start).atStoreTime t now =
      (if now.earliest > t.cfg.options.deadlineMs o deadline start + t.cfg.options.markerGraceMs
        then Tx.writeIfMatch (.version path v) emptyCommit o.etag
        else pure .error : Tx WriteStatus) t := rfl
  rw [hbody, if_neg hn]
  rfl

end Checks

section Clocks

variable {samples : List ClockSample} {offset : ℝ} {localMs : ℤ}

/-- The estimates of one client, whose samples are consistent with one offset. -/
structure Synchronised (samples : List ClockSample) (offset : ℝ) : Prop where
  sampled : samples ≠ []
  consistent : ∀ s ∈ samples, s.Consistent offset

theorem Synchronised.contains (h : Synchronised samples offset) (localMs : ℤ) :
    (((OffsetClock.sampled samples).now localMs).earliest : ℝ) ≤ localMs + offset ∧
      localMs + offset ≤ (((OffsetClock.sampled samples).now localMs).latest : ℝ) :=
  (OffsetClock.bounds_sampled h.sampled h.consistent).contains localMs

/-- A holder that may still commit is before its deadline by more than the margin. -/
theorem Txn.LeaseLeft.before (h : Synchronised samples offset) {t : Txn} {tbl : TableStats}
    {mk : Marker} (hl : t.LeaseLeft tbl mk ((OffsetClock.sampled samples).now localMs)) :
    (localMs : ℝ) + offset < mk.deadlineMs - t.cfg.options.leaseMarginMs := by
  have hlt : (((OffsetClock.sampled samples).now localMs).latest : ℝ) +
      t.cfg.options.leaseMarginMs < mk.deadlineMs := by exact_mod_cast hl.latest_lt
  have := (h.contains localMs).2
  linarith

/-- A waiter that may take the marker over is after the deadline by more than the grace period. -/
theorem Txn.MayTakeOver.after (h : Synchronised samples offset) {t : Txn} {path : Table} {v : ℕ}
    {o : Object} {deadline : Option ℤ} {start : ℤ}
    (hw : t.MayTakeOver path v o deadline start ((OffsetClock.sampled samples).now localMs)) :
    (t.cfg.options.deadlineMs o deadline start : ℝ) + t.cfg.options.markerGraceMs <
      localMs + offset := by
  have hlt : (t.cfg.options.deadlineMs o deadline start : ℝ) + t.cfg.options.markerGraceMs <
      (((OffsetClock.sampled samples).now localMs).earliest : ℝ) := by
    exact_mod_cast hw.lt_earliest
  exact lt_of_lt_of_le hlt (h.contains localMs).1

/-- **Leases in estimated time.** The estimate contains the store's time and never gets wider; a
holder that may commit is before its deadline, a waiter that may take over is after it, and at one
instant of the store's time (`localMs + offset`) not both are the case. -/
theorem lease_checks_sound (h : Synchronised samples offset) (localMs : ℤ) :
    ((((OffsetClock.sampled samples).now localMs).earliest : ℝ) ≤ localMs + offset ∧
      localMs + offset ≤ (((OffsetClock.sampled samples).now localMs).latest : ℝ)) ∧
    (∀ more localMs', (∀ s ∈ more, s.Consistent offset) →
      ((OffsetClock.sampled (samples ++ more)).now localMs').uncertaintyMs ≤
        ((OffsetClock.sampled samples).now localMs).uncertaintyMs) ∧
    (∀ t tbl mk, Txn.LeaseLeft t tbl mk ((OffsetClock.sampled samples).now localMs) →
      (localMs : ℝ) + offset < mk.deadlineMs - t.cfg.options.leaseMarginMs) ∧
    (∀ t path v o deadline start,
      Txn.MayTakeOver t path v o deadline start ((OffsetClock.sampled samples).now localMs) →
      (t.cfg.options.deadlineMs o deadline start : ℝ) + t.cfg.options.markerGraceMs <
        localMs + offset) ∧
    ∀ samples' offset' (localMs' : ℤ), Synchronised samples' offset' →
      (localMs' : ℝ) + offset' = localMs + offset →
      ∀ t tbl mk, Txn.LeaseLeft t tbl mk ((OffsetClock.sampled samples).now localMs) →
      ∀ t' path v o start, ¬ Txn.MayTakeOver t' path v o (some mk.deadlineMs) start
        ((OffsetClock.sampled samples').now localMs') := by
  refine ⟨h.contains localMs, fun more localMs' hmore ↦ ?_, fun t tbl mk hl ↦ hl.before h,
    fun t path v o deadline start hw ↦ hw.after h, ?_⟩
  · have hall : ∀ s ∈ samples ++ more, s.Consistent offset := by
      intro s hs
      rcases List.mem_append.mp hs with hs | hs
      · exact h.consistent s hs
      · exact hmore s hs
    exact OffsetClock.uncertainty_append h.sampled hall _ _
  · intro samples' offset' localMs' h' hinstant t tbl mk hl t' path v o start hw
    have hbefore := hl.before h
    have hafter := hw.after h'
    rw [ProtocolOptions.deadlineMs, Option.getD_some, hinstant] at hafter
    have hmargin : (0 : ℝ) ≤ t.cfg.options.leaseMarginMs :=
      Int.cast_nonneg (Int.natCast_nonneg _)
    have hgrace : (0 : ℝ) ≤ t'.cfg.options.markerGraceMs := Nat.cast_nonneg _
    linarith

end Clocks

/-- A store that is 10 s ahead, and two samples of it. -/
theorem lease_checks_sound_sample :
    Synchronised [⟨1010000, 1000300, 1000400, 1000⟩, ⟨1011000, 1001290, 1001310, 1000⟩] 10000 ∧
      ((((OffsetClock.sampled [⟨1010000, 1000300, 1000400, 1000⟩,
        ⟨1011000, 1001290, 1001310, 1000⟩]).now 1002000).earliest : ℝ) ≤ (1002000 : ℤ) + 10000) := by
  have h : Synchronised [⟨1010000, 1000300, 1000400, 1000⟩, ⟨1011000, 1001290, 1001310, 1000⟩]
      10000 := by
    refine ⟨by simp, fun s hs ↦ ?_⟩
    simp only [List.mem_cons, List.not_mem_nil, or_false] at hs
    rcases hs with rfl | rfl
    · exact ⟨1000350, by norm_num, by norm_num, by norm_num, by norm_num⟩
    · exact ⟨1001300, by norm_num, by norm_num, by norm_num, by norm_num⟩
  exact ⟨h, (lease_checks_sound h 1002000).1.1⟩

/-- Without samples the local clock is used: the estimate misses a store one second ahead. -/
theorem unsampled_clock_misses :
    (∀ s ∈ ([] : List ClockSample), s.Consistent 1000) ∧
      ¬ ((0 : ℤ) + (1000 : ℝ) ≤ (((OffsetClock.sampled []).now 0).latest : ℝ)) := by
  refine ⟨by simp, ?_⟩
  have hnow : ((OffsetClock.sampled []).now 0).latest = 0 := rfl
  rw [hnow]
  norm_num

end LakeVilla

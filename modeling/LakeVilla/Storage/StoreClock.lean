import Mathlib.Data.Real.Basic
import Mathlib.Tactic.Linarith
import LakeVilla.Storage.Connector

/-!
# The estimated store clock

`StoreClock.cpp` estimates the offset between the local clock and the store's clock from responses
that carry the store's time with a coarse resolution. Every sample bounds the offset to an interval;
the clock intersects them. Times are unbounded integers here; divisions are those of C++.
-/

namespace LakeVilla

/-- The arguments of `add_sample`: a response with a store time, and the local times at which the
request was sent and the response received. -/
structure ClockSample where
  storeMs : ℤ
  sentLocalMs : ℤ
  receivedLocalMs : ℤ
  resolutionMs : ℤ := 1000
  deriving DecidableEq, Repr

structure OffsetClock where
  valid : Bool := false
  low : ℤ := 0
  high : ℤ := 0
  lastSample : ℤ := 0
  deriving DecidableEq, Repr

namespace OffsetClock

def addSample (c : OffsetClock) (s : ClockSample) : OffsetClock :=
  let sampleLow := s.storeMs - s.receivedLocalMs
  let sampleHigh := s.storeMs + s.resolutionMs - s.sentLocalMs
  if c.valid ∧ sampleLow ≤ c.high ∧ c.low ≤ sampleHigh then
    { c with
      low := max c.low sampleLow
      high := min c.high sampleHigh
      lastSample := s.receivedLocalMs }
  else
    -- the first sample, or a clock jump: start over
    ⟨true, sampleLow, sampleHigh, s.receivedLocalMs⟩

def now (c : OffsetClock) (localMs : ℤ) : StoreTime :=
  if c.valid then
    let offset := c.low + (c.high - c.low).tdiv 2
    ⟨localMs + offset, (c.high - c.low + 1).tdiv 2⟩
  else ⟨localMs, 0⟩

/-- The clock after a sequence of samples. -/
def sampled (samples : List ClockSample) : OffsetClock := samples.foldl addSample {}

end OffsetClock

/-! ## One true offset -/

/-- The sample was taken with the store's clock ahead of the local clock by `offset`: at a moment
between the sending of the request and the receipt of the response, the store's time, truncated to
the resolution, was the one in the response. -/
def ClockSample.Consistent (offset : ℝ) (s : ClockSample) : Prop :=
  ∃ moment : ℝ, s.sentLocalMs ≤ moment ∧ moment ≤ s.receivedLocalMs ∧
    s.storeMs ≤ moment + offset ∧ moment + offset < s.storeMs + s.resolutionMs

/-- A sample bounds the offset. -/
theorem ClockSample.Consistent.bounds {s : ClockSample} {offset : ℝ} (h : s.Consistent offset) :
    ((s.storeMs - s.receivedLocalMs : ℤ) : ℝ) ≤ offset ∧
      offset ≤ ((s.storeMs + s.resolutionMs - s.sentLocalMs : ℤ) : ℝ) := by
  obtain ⟨moment, hsent, hreceived, hstore, htrunc⟩ := h
  push_cast
  constructor <;> linarith

namespace OffsetClock

variable {c : OffsetClock} {s : ClockSample} {samples : List ClockSample} {offset : ℝ}

/-- The clock has samples, and the offset lies in its interval. -/
structure Bounds (offset : ℝ) (c : OffsetClock) : Prop where
  valid : c.valid = true
  low : c.low ≤ offset
  high : offset ≤ c.high

theorem Bounds.low_le_high (h : c.Bounds offset) : c.low ≤ c.high := by
  exact_mod_cast h.low.trans h.high

/-- **One sample.** Consistent samples never contradict each other. -/
theorem Bounds.addSample (h : c.Bounds offset) (hs : s.Consistent offset) :
    (c.addSample s).Bounds offset ∧ c.low ≤ (c.addSample s).low ∧ (c.addSample s).high ≤ c.high := by
  obtain ⟨hlow, hhigh⟩ := hs.bounds
  have h₁ : s.storeMs - s.receivedLocalMs ≤ c.high := by exact_mod_cast hlow.trans h.high
  have h₂ : c.low ≤ s.storeMs + s.resolutionMs - s.sentLocalMs := by
    exact_mod_cast h.low.trans hhigh
  rw [OffsetClock.addSample, if_pos ⟨h.valid, h₁, h₂⟩]
  refine ⟨⟨h.valid, ?_, ?_⟩, le_max_left _ _, min_le_left _ _⟩
  · rw [Int.cast_max]
    exact max_le h.low hlow
  · rw [Int.cast_min]
    exact le_min h.high hhigh

/-- The first sample starts the interval. -/
theorem bounds_first (hs : s.Consistent offset) : (({} : OffsetClock).addSample s).Bounds offset :=
  ⟨rfl, hs.bounds.1, hs.bounds.2⟩

/-- **A run of samples.** The interval only shrinks, and the offset stays in it. -/
theorem Bounds.foldl (h : c.Bounds offset) (hs : ∀ s ∈ samples, s.Consistent offset) :
    (samples.foldl OffsetClock.addSample c).Bounds offset ∧
      c.low ≤ (samples.foldl OffsetClock.addSample c).low ∧
      (samples.foldl OffsetClock.addSample c).high ≤ c.high := by
  induction samples generalizing c with
  | nil => exact ⟨h, le_rfl, le_rfl⟩
  | cons s samples ih =>
    obtain ⟨h₁, hlow, hhigh⟩ := h.addSample (hs s List.mem_cons_self)
    obtain ⟨h₂, hlow', hhigh'⟩ := ih h₁ fun s' hs' ↦ hs s' (List.mem_cons_of_mem _ hs')
    exact ⟨h₂, hlow.trans hlow', hhigh'.trans hhigh⟩

theorem bounds_sampled (hne : samples ≠ []) (hs : ∀ s ∈ samples, s.Consistent offset) :
    (sampled samples).Bounds offset := by
  cases samples with
  | nil => exact absurd rfl hne
  | cons s samples =>
    exact ((bounds_first (hs s List.mem_cons_self)).foldl fun s' hs' ↦
      hs s' (List.mem_cons_of_mem _ hs')).1

/-- The midpoint and the uncertainty, both rounded, cover the interval. -/
theorem Bounds.now (h : c.Bounds offset) (localMs : ℤ) :
    (c.now localMs).earliest ≤ localMs + c.low ∧ localMs + c.high ≤ (c.now localMs).latest := by
  have hd : 0 ≤ c.high - c.low := Int.sub_nonneg.mpr h.low_le_high
  rw [OffsetClock.now, if_pos h.valid, StoreTime.earliest, StoreTime.latest,
    Int.tdiv_eq_ediv_of_nonneg hd, Int.tdiv_eq_ediv_of_nonneg (Int.le_add_one hd)]
  constructor
  · show localMs + (c.low + (c.high - c.low) / 2) - (c.high - c.low + 1) / 2 ≤ localMs + c.low
    omega
  · show localMs + c.high ≤ localMs + (c.low + (c.high - c.low) / 2) + (c.high - c.low + 1) / 2
    omega

/-- The true store time lies in the estimate. -/
theorem Bounds.contains (h : c.Bounds offset) (localMs : ℤ) :
    ((c.now localMs).earliest : ℝ) ≤ localMs + offset ∧
      localMs + offset ≤ ((c.now localMs).latest : ℝ) := by
  obtain ⟨hearliest, hlatest⟩ := h.now localMs
  constructor
  · calc ((c.now localMs).earliest : ℝ) ≤ ((localMs + c.low : ℤ) : ℝ) := by exact_mod_cast hearliest
      _ = localMs + c.low := Int.cast_add _ _
      _ ≤ localMs + offset := by linarith [h.low]
  · calc (localMs : ℝ) + offset ≤ localMs + c.high := by linarith [h.high]
      _ = ((localMs + c.high : ℤ) : ℝ) := (Int.cast_add _ _).symm
      _ ≤ ((c.now localMs).latest : ℝ) := by exact_mod_cast hlatest

/-- A smaller interval has a smaller uncertainty. -/
theorem Bounds.uncertainty_le {c' : OffsetClock} (h : c.Bounds offset) (h' : c'.Bounds offset)
    (hlow : c.low ≤ c'.low) (hhigh : c'.high ≤ c.high) (localMs localMs' : ℤ) :
    (c'.now localMs').uncertaintyMs ≤ (c.now localMs).uncertaintyMs := by
  have hd : 0 ≤ c.high - c.low := Int.sub_nonneg.mpr h.low_le_high
  have hd' : 0 ≤ c'.high - c'.low := Int.sub_nonneg.mpr h'.low_le_high
  rw [OffsetClock.now, OffsetClock.now, if_pos h.valid, if_pos h'.valid,
    Int.tdiv_eq_ediv_of_nonneg (Int.le_add_one hd), Int.tdiv_eq_ediv_of_nonneg (Int.le_add_one hd')]
  show (c'.high - c'.low + 1) / 2 ≤ (c.high - c.low + 1) / 2
  omega

/-- More samples never widen the estimate. -/
theorem uncertainty_append {more : List ClockSample} (hne : samples ≠ [])
    (hs : ∀ s ∈ samples ++ more, s.Consistent offset) (localMs localMs' : ℤ) :
    ((sampled (samples ++ more)).now localMs').uncertaintyMs ≤
      ((sampled samples).now localMs).uncertaintyMs := by
  have h := bounds_sampled hne fun s hs' ↦ hs s (List.mem_append_left _ hs')
  obtain ⟨h', hlow, hhigh⟩ := h.foldl fun s hs' ↦ hs s (List.mem_append_right _ hs')
  rw [sampled, List.foldl_append]
  exact h.uncertainty_le h' hlow hhigh localMs localMs'

end OffsetClock

end LakeVilla

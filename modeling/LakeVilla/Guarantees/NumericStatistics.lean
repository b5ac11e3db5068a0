import LakeVilla.Keys.AddEntry

/-!
# Writing the add action

When can `createOperationAddEntry` build the statistics of a written table? `stat_value` tells
`double` from `int64_t` by the characters of the text, and `std::to_chars` writes a whole number
without point and exponent whenever that is not longer.
-/

namespace LakeVilla.Keys

open ByteString

variable {conv : CharConv} {json : JsonText}

/-- `stat_value` converts the least and the greatest value of the column to JSON numbers that are
equal to them. -/
def Column.ShowsNumbers (conv : CharConv) (c : Column) : Prop :=
  let s := columnStatistics conv c
  s.hasMinMax = true → s.numeric = true →
    ∃ min max lo hi, statValue conv s s.min = .ok min ∧ min.number = some lo ∧ IsLeast c.numbers lo ∧
      statValue conv s s.max = .ok max ∧ max.number = some hi ∧ IsGreatest c.numbers hi

theorem statValue_text {s : ColumnStatistics} (hs : s.numeric = false) (value : ByteString) :
    statValue conv s value = .ok (.string value) := by
  rw [statValue, if_neg (by simp [hs])]

theorem inInt64_toInt (n : Int64) : InInt64 n.toInt := ⟨n.le_toInt, n.toInt_lt⟩

/-- A column whose extremes can be read back shows its numbers, and its members can be built. -/
theorem Column.Scanned.showsNumbers {c : Column} (h : c.Scanned conv (columnStatistics conv c))
    (hconv : ∀ d ∈ c.doubles, conv.Correct d) (hread : ∀ d ∈ c.extremes, conv.Readable d) :
    c.ShowsNumbers conv := by
  intro hm hn
  cases h with
  | nothing hs hc => exact absurd hm (by simp [hs])
  | text hs hc => exact absurd hn (by simp [hs])
  | @integer lo hi hs hc hmin hmax hlo hhi =>
    refine ⟨.int lo.toInt, .int hi.toInt, lo.toInt, hi.toInt, ?_, rfl, hlo, ?_, rfl, hhi⟩
    · rw [hmin, statValue_toText conv hs (inInt64_toInt _)]
    · rw [hmax, statValue_toText conv hs (inInt64_toInt _)]
  | @floating lo hi hm hs hc hmem hmin hmax hlo hhi =>
    rw [hc] at hread
    obtain ⟨j, hj, hjn⟩ := (hconv lo hmem.1).statValue_of_readable hs (hread lo (by simp))
    obtain ⟨k, hk, hkn⟩ := (hconv hi hmem.2).statValue_of_readable hs (hread hi (by simp))
    exact ⟨j, k, _, _, hmin ▸ hj, hjn, hlo, hmax ▸ hk, hkn, hhi⟩

theorem exists_minMaxMembers {c : Column} (h : c.ShowsNumbers conv)
    (hm : (columnStatistics conv c).hasMinMax = true) :
    ∃ m, minMaxMembers conv (columnStatistics conv c) = .ok m := by
  rw [minMaxMembers]
  cases hn : (columnStatistics conv c).numeric with
  | false =>
    rw [statValue_text hn, statValue_text hn]
    exact ⟨_, rfl⟩
  | true =>
    obtain ⟨min, max, -, -, hmin, -, -, hmax, -⟩ := h hm hn
    rw [hmin, hmax]
    exact ⟨_, rfl⟩

/-- If no column throws, the add action is written. -/
theorem exists_createOperationAddEntry {file : WrittenFile} {base : ByteString} {nowMs : ℤ}
    {numRows : ℕ} {columns : List Column} (hstats : file.stats = computeStatistics conv numRows columns)
    (h : ∀ c ∈ columns, c.ShowsNumbers conv) :
    ∃ text, createOperationAddEntry conv json file base nowMs = .ok text := by
  have hmembers : ∃ ms, (file.stats.columns.filter (·.hasMinMax)).mapM (minMaxMembers conv) =
      .ok ms := by
    apply exists_mapM_ok
    intro s hs
    obtain ⟨hs, hm⟩ := List.mem_filter.mp hs
    rw [hstats] at hs
    obtain ⟨c, hc, rfl⟩ := List.mem_map.mp hs
    exact exists_minMaxMembers (h c hc) hm
  obtain ⟨ms, hms⟩ := hmembers
  rw [createOperationAddEntry, addAction, statsDocument, hms]
  split
  · exact ⟨_, rfl⟩
  · exact ⟨_, rfl⟩

/-- **The add action is written, with the numbers of the table, if and only if `std::to_chars` and
`std::stod` get along with the extremes of the floating-point columns.** -/
theorem add_action_written_iff (conv : CharConv) (json : JsonText) (file : WrittenFile)
    (base : ByteString) (nowMs : ℤ) (numRows : ℕ) (columns : List Column)
    (hstats : file.stats = computeStatistics conv numRows columns)
    (hconv : ∀ c ∈ columns, ∀ d ∈ c.doubles, conv.Correct d) :
    ((∃ text, createOperationAddEntry conv json file base nowMs = .ok text) ∧
        ∀ c ∈ columns, c.ShowsNumbers conv) ↔
      ∀ c ∈ columns, ∀ d ∈ c.extremes, conv.Readable d := by
  constructor
  · rintro ⟨-, hshow⟩ c hc d hd
    by_contra hread
    cases columnStatistics_scanned conv c with
    | nothing _ hc => simp [hc] at hd
    | text _ hc => simp [hc] at hd
    | integer _ hc => simp [hc] at hd
    | @floating lo hi hm hs he hmem hmin hmax hlo hhi =>
      obtain ⟨_, _, _, _, hvmin, -, -, hvmax, -, -⟩ := hshow c hc hm hs
      rw [he] at hd
      rcases List.mem_pair.mp hd with rfl | rfl
      · rw [hmin, (hconv c hc _ hmem.1).statValue_of_not_readable hs hread] at hvmin
        cases hvmin
      · rw [hmax, (hconv c hc _ hmem.2).statValue_of_not_readable hs hread] at hvmax
        cases hvmax
  · intro hread
    have hshow : ∀ c ∈ columns, c.ShowsNumbers conv := fun c hc ↦
      (columnStatistics_scanned conv c).showsNumbers (hconv c hc) (hread c hc)
    exact ⟨exists_createOperationAddEntry hstats hshow, hshow⟩

/-! ### Examples -/

/-- 2^63 -/
def twoPow63 : Double := ⟨false, 2 ^ 52, 11, by norm_num, by norm_num⟩

/-- The conversions, for the numbers of the examples. -/
def sampleConv (scientific fixed : ByteString) (d : Double) : CharConv where
  scientific _ := scientific
  fixed _ := fixed
  stod _ := .ok d
  reportsUnderflow _ := false

/-- 2^63 as `std::to_chars` would write it in the two notations -/
def conv63 : CharConv :=
  sampleConv (ascii "9.223372036854776e+18") (ascii "9223372036854775808") twoPow63

theorem twoPow63_value : twoPow63.value = 9223372036854775808 := by
  norm_num [Double.value, twoPow63]

theorem conv63_correct : conv63.Correct twoPow63 where
  exponent_mem := by decide
  fixed_integral _ := by
    rw [twoPow63_value]
    decide
  point_mem h := by
    rw [Double.Integral, twoPow63_value] at h
    exact absurd rfl h
  stod_underflow h := absurd h.2 (by decide)
  stod_toChars _ := ⟨twoPow63, rfl, rfl⟩

/-- A table with one row: a key and the number 2^63. -/
def table63 : List Column :=
  [⟨ascii "id", .string [[some (ascii "a")]]⟩, ⟨ascii "x", .floating [[some (.finite twoPow63)]]⟩]

theorem add_action_throws :
    (∀ c ∈ table63, ∀ d ∈ c.doubles, conv63.Correct d) ∧
      ∀ (json : JsonText) (base : ByteString) (nowMs : ℤ),
        createOperationAddEntry conv63 json ⟨ascii "f", 500, computeStatistics conv63 1 table63⟩ base
          nowMs = .error .outOfRange := by
  constructor
  · intro c hc d hd
    rcases List.mem_pair.mp hc with rfl | rfl
    · cases hd
    · obtain rfl := List.mem_singleton.mp hd
      exact conv63_correct
  · intro json base nowMs
    rfl

/-- 1.5 -/
def threeHalves : Double := ⟨false, 3, -1, by norm_num, by norm_num⟩

def conv15 : CharConv := sampleConv (ascii "1.5e+00") (ascii "1.5") threeHalves

theorem threeHalves_not_integral : ¬threeHalves.Integral := by
  intro h
  have hvalue : threeHalves.value = 3 / 2 := by norm_num [Double.value, threeHalves]
  have hnum := Double.value_of_integral h
  have htwo : (2 * threeHalves.value.num : ℚ) = 3 := by linarith
  have htwo : 2 * threeHalves.value.num = 3 := by exact_mod_cast htwo
  omega

theorem conv15_correct : conv15.Correct threeHalves where
  exponent_mem := by decide
  fixed_integral h := absurd h threeHalves_not_integral
  point_mem _ := by decide
  stod_underflow h := absurd h.2 (by decide)
  stod_toChars _ := ⟨threeHalves, rfl, rfl⟩

/-- Two chunks of an integer column with a null, and a floating-point column. -/
def sampleTable : List Column :=
  [⟨ascii "id", .integer [[some 3, none], [some (-7)]]⟩,
    ⟨ascii "x", .floating [[none, some (.finite threeHalves)], [none]]⟩]

theorem add_action_written_sample :
    (∃ text, createOperationAddEntry conv15 ⟨fun _ ↦ [], fun _ ↦ none⟩
        ⟨ascii "f", 500, computeStatistics conv15 3 sampleTable⟩ [] 0 = .ok text) ∧
      ∀ c ∈ sampleTable, c.ShowsNumbers conv15 := by
  refine (add_action_written_iff conv15 ⟨fun _ ↦ [], fun _ ↦ none⟩
    ⟨ascii "f", 500, computeStatistics conv15 3 sampleTable⟩ [] 0 3 sampleTable rfl ?_).mpr ?_
  · intro c hc d hd
    rcases List.mem_pair.mp hc with rfl | rfl
    · cases hd
    · obtain rfl := List.mem_singleton.mp hd
      exact conv15_correct
  · intro c hc d hd
    rcases List.mem_pair.mp hc with rfl | rfl
    · cases hd
    · obtain rfl : d = threeHalves := (List.mem_pair.mp hd).elim id id
      exact ⟨fun h ↦ absurd h.1 threeHalves_not_integral, fun h ↦ absurd h.2 (by decide)⟩

end LakeVilla.Keys

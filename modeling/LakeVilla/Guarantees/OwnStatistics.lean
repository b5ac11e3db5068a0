import LakeVilla.Guarantees.NumericStatistics
import LakeVilla.Keys.KeyMatcher

/-!
# The statistics of a written table and its keys

A table is written, its add action is read from the log, and a key of its first column is looked up:
does `KeyMatcher::classify` still find the file? The statistics pass through C strings, so a
greatest text with a NUL character is cut off there.
-/

namespace LakeVilla.Keys

open ByteString

variable {σ : Type}

/-! ## Written tables -/

namespace ColumnData

def length : ColumnData → ℕ
  | .string chunks => chunks.flatten.length
  | .integer chunks => chunks.flatten.length
  | .floating chunks => chunks.flatten.length
  | .date chunks => chunks.flatten.length
  | .other chunks => chunks.flatten.length

/-- Strings, `int8` to `int64` and dates. -/
def HasType : ColumnData → DataType → Prop
  | .string _, .string | .string _, .largeString => True
  | .integer _, .int8 | .integer _, .int16 | .integer _, .int32 | .integer _, .int64 => True
  | .date _, .date32 => True
  | _, _ => False

/-- The values of a column that can be keys. -/
def keys : ColumnData → List (Scalar σ)
  | .string chunks => (valuesOf chunks).map .text
  | .integer chunks => (valuesOf chunks).map fun n ↦ .number n.toInt
  | .date chunks => (valuesOf chunks).map fun n ↦ .number n.toInt
  | _ => []

end ColumnData

/-- A table as it is written: columns of one length, with names that differ by more than case and
have no NUL character. -/
structure WrittenTable where
  numRows : ℕ
  first : Column
  others : List Column
  length_eq : ∀ c ∈ first :: others, c.data.length = numRows
  names_distinct : ((first :: others).map fun c ↦ c.name.map DeltaLogEntry.toLower).Nodup
  nul_not_mem : ∀ c ∈ first :: others, 0 ∉ c.name

namespace WrittenTable

variable (t : WrittenTable)

def columns : List Column := t.first :: t.others

/-- The values of the first column. -/
def keys : List (Scalar σ) := t.first.data.keys

/-- The texts of the first column. -/
def texts : List ByteString :=
  match t.first.data with
  | .string chunks => valuesOf chunks
  | _ => []

/-- `s` is the greatest text of the first column. -/
def Greatest (s : ByteString) : Prop := s ∈ t.texts ∧ ∀ s' ∈ t.texts, s' ≤ s

end WrittenTable

theorem columnStatistics_name (conv : CharConv) (c : Column) :
    (columnStatistics conv c).name = c.name := by
  obtain ⟨name, data⟩ := c
  cases data with
  | string chunks =>
    simp only [columnStatistics, ColumnStatistics.stringMinMax]
    split <;> rfl
  | integer chunks =>
    simp only [columnStatistics, ColumnStatistics.integerMinMax]
    split <;> rfl
  | floating chunks =>
    simp only [columnStatistics, ColumnStatistics.floatingMinMax]
    split
    · rfl
    · split <;> rfl
  | date chunks => rfl
  | other chunks => rfl

/-- A text that its C string shows only the beginning of, with fewer characters than a truncated
statistic has. -/
def CutShort (s : ByteString) : Prop := 0 ∈ s ∧ codePoints (cString s) < stringStatsPrefix

instance (s : ByteString) : Decidable (CutShort s) := inferInstanceAs (Decidable (_ ∧ _))

theorem cString_le (s : ByteString) : cString s ≤ s := le_of_isPrefix (isPrefix_cString s)

theorem cString_lt_iff {s : ByteString} : cString s < s ↔ 0 ∈ s := by
  constructor
  · intro h
    by_contra hnul
    rw [cString_eq_self hnul] at h
    exact lt_irrefl s h
  · intro h
    refine (cString_le s).lt_of_ne fun heq ↦ ?_
    rw [← heq] at h
    unfold cString at h
    simpa using List.mem_takeWhile_imp h

/-! ## The entry of a written table -/

section Entry

variable {conv : CharConv} {json : JsonText} {t : WrittenTable} {e : DeltaLogEntry}

theorem survives_text {c : ColumnStatistics} (hc : c.numeric = false) {s x : ByteString}
    (h : Survives conv json c s x) : x = cString s := by
  obtain ⟨v, v', hv, hr, rfl⟩ := h
  rw [statValue, if_neg (by simp [hc])] at hv
  obtain rfl := Except.ok.inj hv
  rw [hr.eq_string]
  rfl

theorem survives_number {c : ColumnStatistics} (hc : c.numeric = true) {n : Int64} {x : ByteString}
    (h : Survives conv json c (toText n.toInt) x) : x = toText n.toInt := by
  obtain ⟨v, v', hv, hr, rfl⟩ := h
  rw [statValue_toText conv hc ⟨n.le_toInt, n.toInt_lt⟩] at hv
  obtain rfl := Except.ok.inj hv
  rw [hr.eq_int]
  rfl

/-- The statistics of the first column are found under its name. -/
theorem minOf_first (hkept : Kept conv json (computeStatistics conv t.numRows t.columns) e)
    (h : (columnStatistics conv t.first).hasMinMax = true) :
    ∃ min max, e.minOf t.first.name = some min ∧ e.maxOf t.first.name = some max ∧
      Survives conv json (columnStatistics conv t.first) (columnStatistics conv t.first).min min ∧
      Survives conv json (columnStatistics conv t.first) (columnStatistics conv t.first).max max := by
  obtain ⟨-, hminc, hmaxc, hmin, hmax⟩ := hkept
  have hname : cString (columnStatistics conv t.first).name = t.first.name := by
    rw [columnStatistics_name]
    exact cString_eq_self (t.nul_not_mem _ List.mem_cons_self)
  simp only [computeStatistics, WrittenTable.columns, List.map_cons, List.filter_cons, h,
    if_true] at hminc hmaxc hmin hmax
  rw [hname] at hminc hmaxc
  cases hmin' : e.min with
  | nil =>
    rw [hmin'] at hmin
    cases hmin
  | cons min mins =>
    cases hmax' : e.max with
    | nil =>
      rw [hmax'] at hmax
      cases hmax
    | cons max maxs =>
      rw [hmin'] at hmin
      rw [hmax'] at hmax
      refine ⟨min, max, ?_, ?_, (List.forall₂_cons.mp hmin).1, (List.forall₂_cons.mp hmax).1⟩
      · rw [DeltaLogEntry.minOf, hminc, hmin', DeltaLogEntry.valueOf_head]
      · rw [DeltaLogEntry.maxOf, hmaxc, hmax', DeltaLogEntry.valueOf_head]

/-- Without statistics of the first column nothing is found under its name. -/
theorem minOf_first_none (hkept : Kept conv json (computeStatistics conv t.numRows t.columns) e)
    (h : (columnStatistics conv t.first).hasMinMax = false) : e.minOf t.first.name = none := by
  have hother : ∀ n ∈ e.minColumns, DeltaLogEntry.sameName n t.first.name = false := by
    intro n hn
    rw [hkept.minColumns] at hn
    simp only [computeStatistics, WrittenTable.columns, List.map_cons, List.filter_cons, h,
      Bool.false_eq_true, if_false] at hn
    obtain ⟨s, hs, rfl⟩ := List.mem_map.mp hn
    obtain ⟨c, hc, rfl⟩ := List.mem_map.mp (List.mem_filter.mp hs).1
    have hnames := t.names_distinct
    rw [List.map_cons, List.nodup_cons] at hnames
    rw [columnStatistics_name, cString_eq_self (t.nul_not_mem c (List.mem_cons_of_mem _ hc))]
    exact decide_eq_false fun hsame ↦ hnames.1 (List.mem_map.mpr ⟨c, hc, hsame⟩)
  exact DeltaLogEntry.valueOf_eq_none hother

/-- A file with a key has rows, and its entry says so. -/
theorem numRecords_ne_zero (hkept : Kept conv json (computeStatistics conv t.numRows t.columns) e)
    {v : Scalar σ} (hv : v ∈ t.first.data.keys) : e.numRecords ≠ 0 := by
  have hlen : ∀ {α β : Type} {f : α → β} {b : β} {chunks : List (List (Option α))},
      b ∈ (valuesOf chunks).map f → 0 < chunks.flatten.length := by
    intro α β f b chunks hb
    have hpos := List.length_pos_of_mem hb
    rw [List.length_map] at hpos
    exact hpos.trans_le (List.reduceOption_length_le _)
  have hrows : 0 < t.numRows := by
    rw [← t.length_eq t.first List.mem_cons_self]
    revert hv
    cases t.first.data with
    | string chunks => exact hlen
    | integer chunks => exact hlen
    | date chunks => exact hlen
    | floating chunks => exact fun hv ↦ nomatch hv
    | other chunks => exact fun hv ↦ nomatch hv
  rw [hkept.numRecords]
  intro hzero
  by_cases hr : InInt64 (computeStatistics conv t.numRows t.columns).numRecords
  · rw [if_pos hr] at hzero
    exact hrows.ne' (Int.natCast_eq_zero.mp hzero)
  · rw [if_neg hr] at hzero
    exact absurd hzero (by decide)

end Entry

/-! ## Lookups of the keys of a written table -/

section Lookup

variable {arrow : Arrow σ} {type : DataType} {conv : CharConv} {json : JsonText} {t : WrittenTable}
  {e : DeltaLogEntry}

theorem Arrow.parse_text (arrow : Arrow σ) {type : DataType} (h : type.kind = .string)
    (key : ByteString) : arrow.parse type key = some (.text key) := by
  cases type with
  | string => exact arrow.parse_string key
  | largeString => exact arrow.parse_largeString key
  | _ => cases h

/-- Every key of the first column is classified as possible or exact. -/
def FindsKeys (arrow : Arrow σ) (type : DataType) (t : WrittenTable) (e : DeltaLogEntry) : Prop :=
  ∀ key, ∀ v ∈ t.keys, arrow.HasKey type key v →
    KeyMatcher.classify arrow (KeyMatcher.make arrow type key) (e.minOf t.first.name)
      (e.maxOf t.first.name) e.numRecords ≠ .none

theorem findsKeys_string_iff {chunks : List (List (Option ByteString))}
    (hdata : t.first.data = .string chunks) (hkind : type.kind = .string)
    (hkept : Kept conv json (computeStatistics conv t.numRows t.columns) e) :
    FindsKeys arrow type t e ↔ ∀ s, t.Greatest s → ¬CutShort s := by
  have hkeys : (t.keys : List (Scalar σ)) = (valuesOf chunks).map .text := by
    rw [WrittenTable.keys, hdata, ColumnData.keys]
  have htexts : t.texts = valuesOf chunks := by rw [WrittenTable.texts, hdata]
  have hlt : ∀ a b : ByteString, decide (a < b) = true ↔ id a < id b := fun a b ↦
    decide_eq_true_iff
  have hscan := minMax_spec hlt chunks
  have hstats : columnStatistics conv t.first = ColumnStatistics.stringMinMax
      { name := t.first.name, nullCount := nullCount chunks } chunks := by
    rw [columnStatistics, hdata]
  rw [ColumnStatistics.stringMinMax] at hstats
  cases hmm : minMax (fun a b : ByteString ↦ decide (a < b)) chunks with
  | none =>
    have hempty := hscan.1 hmm
    constructor
    · rintro - s ⟨hs, -⟩
      rw [htexts, hempty] at hs
      cases hs
    · intro _ key v hv
      rw [hkeys, hempty] at hv
      cases hv
  | some m =>
    obtain ⟨lo, hi⟩ := m
    obtain ⟨hlomem, hhimem, hlo, hhi⟩ := hscan.2 lo hi hmm
    rw [hmm] at hstats
    simp only at hstats
    obtain ⟨min, max, hmin, hmax, hsmin, hsmax⟩ := minOf_first hkept (by rw [hstats]; rfl)
    rw [hstats] at hsmin hsmax
    obtain rfl := survives_text rfl hsmin
    obtain rfl := survives_text rfl hsmax
    have hclassify : ∀ {key : ByteString}, e.numRecords ≠ 0 →
        KeyMatcher.classify arrow (KeyMatcher.make arrow type key) (e.minOf t.first.name)
          (e.maxOf t.first.name) e.numRecords =
            KeyMatcher.classifyText key (cString lo) (cString hi) e.numRecords := by
      intro key hrec
      rw [hmin, hmax, KeyMatcher.classify_some (arrow.parse_text hkind key) hrec, hkind]
      rfl
    constructor
    · -- the greatest text itself is missed if it is cut short
      rintro hfinds s ⟨hs, hgreatest⟩ ⟨hnul, hshort⟩
      rw [htexts] at hs hgreatest
      obtain rfl : s = hi := le_antisymm (hhi s hs) (hgreatest hi hhimem)
      have hmem : (Scalar.text s : Scalar σ) ∈ t.keys := by
        rw [hkeys]
        exact List.mem_map_of_mem hs
      have hfound := hfinds s (.text s) hmem ⟨_, arrow.parse_text hkind s, rfl⟩
      rw [hclassify (numRecords_ne_zero hkept hmem), Ne, KeyMatcher.classifyText_eq_none_iff]
        at hfound
      exact hfound (.inr ⟨cString_lt_iff.mpr hnul, .inl hshort⟩)
    · intro hgreatest key v hv hkey
      obtain ⟨k, hk, hequal⟩ := hkey
      obtain rfl : Scalar.text key = k :=
        Option.some.inj ((arrow.parse_text hkind key).symm.trans hk)
      obtain rfl := hequal.eq_text
      rw [hclassify (numRecords_ne_zero hkept hv), Ne, KeyMatcher.classifyText_eq_none_iff, not_or,
        not_and]
      have hkey : key ∈ valuesOf chunks := by
        rw [hkeys] at hv
        obtain ⟨s, hs, he⟩ := List.mem_map.mp hv
        exact Scalar.text.inj he ▸ hs
      refine ⟨not_lt.mpr ((cString_le lo).trans (hlo key hkey)), fun hlt ↦ ?_⟩
      have hnul : 0 ∈ hi := cString_lt_iff.mp (hlt.trans_le (hhi key hkey))
      have hlong : ¬codePoints (cString hi) < stringStatsPrefix := fun hshort ↦
        hgreatest hi ⟨htexts ▸ hhimem, fun s hs ↦ hhi s (htexts ▸ hs)⟩ ⟨hnul, hshort⟩
      have hstart :=
        (isPrefix_firstCodePoints (cString hi) stringStatsPrefix).trans (isPrefix_cString hi)
      exact not_or.mpr
        ⟨hlong, not_not.mpr (KeyMatcher.prefix_of_le hlt (hhi key hkey) hstart)⟩

theorem findsKeys_integer {chunks : List (List (Option Int64))}
    (hdata : t.first.data = .integer chunks) (hkind : type.kind = .integer)
    (hkept : Kept conv json (computeStatistics conv t.numRows t.columns) e) :
    FindsKeys arrow type t e := by
  intro key v hv hkey
  have hkeys : (t.keys : List (Scalar σ)) = (valuesOf chunks).map fun n ↦ .number n.toInt := by
    rw [WrittenTable.keys, hdata, ColumnData.keys]
  have hlt : ∀ a b : Int64, decide (a < b) = true ↔ a.toInt < b.toInt := fun a b ↦ by
    rw [decide_eq_true_iff, Int64.lt_iff_toInt_lt]
  have hscan := minMax_spec hlt chunks
  have hstats : columnStatistics conv t.first = ColumnStatistics.integerMinMax
      { name := t.first.name, nullCount := nullCount chunks } chunks := by
    rw [columnStatistics, hdata]
  rw [ColumnStatistics.integerMinMax] at hstats
  obtain ⟨k, hk, hequal⟩ := hkey
  have hrec := numRecords_ne_zero hkept hv
  rw [hkeys] at hv
  obtain ⟨n, hn, rfl⟩ := List.mem_map.mp hv
  cases hmm : minMax (fun a b : Int64 ↦ decide (a < b)) chunks with
  | none =>
    rw [hscan.1 hmm] at hn
    cases hn
  | some m =>
    obtain ⟨lo, hi⟩ := m
    obtain ⟨-, -, hlo, hhi⟩ := hscan.2 lo hi hmm
    rw [hmm] at hstats
    simp only at hstats
    obtain ⟨min, max, hmin, hmax, hsmin, hsmax⟩ := minOf_first hkept (by rw [hstats]; rfl)
    rw [hstats] at hsmin hsmax
    obtain rfl := survives_number rfl hsmin
    obtain rfl := survives_number rfl hsmax
    have hktype : k.HasKind type.kind := arrow.parse_hasType hk
    rw [hkind] at hktype
    obtain ⟨m, rfl⟩ := hktype.eq_number (.inl rfl)
    obtain rfl : n.toInt = m := hequal
    rw [hmin, hmax, KeyMatcher.classify_some hk hrec, hkind]
    simp only [parseInteger_toText ⟨lo.le_toInt, lo.toInt_lt⟩,
      parseInteger_toText ⟨hi.le_toInt, hi.toInt_lt⟩]
    apply KeyMatcher.classifyNumber_ne_none
    · intro l hl
      obtain rfl := Option.some.inj hl
      exact hlo n hn
    · intro h hh
      obtain rfl := Option.some.inj hh
      exact hhi n hn

theorem findsKeys_date {chunks : List (List (Option Int32))} (hdata : t.first.data = .date chunks)
    (hkept : Kept conv json (computeStatistics conv t.numRows t.columns) e) :
    FindsKeys arrow type t e := by
  rintro key v hv ⟨k, hk, -⟩
  have hnone : e.minOf t.first.name = none :=
    minOf_first_none hkept (by rw [columnStatistics, hdata])
  rw [KeyMatcher.classify_unknown hk (numRecords_ne_zero hkept hv) (.inl hnone)]
  simp

/-- **The statistics of a written table find its keys if and only if the greatest text of the first
column is not cut short.** -/
theorem own_statistics_find_keys_iff (arrow : Arrow σ) (type : DataType) (conv : CharConv)
    (json : JsonText) (t : WrittenTable) (file : WrittenFile) (base text : ByteString)
    (nowMs version : ℤ) (htype : t.first.data.HasType type)
    (hfile : file.stats = computeStatistics conv t.numRows t.columns)
    (hwrite : createOperationAddEntry conv json file base nowMs = .ok text)
    (hstats : ∀ document, statsDocument conv file.stats = .ok document → json.Faithful document)
    (hadd : ∀ add, addAction conv json file base nowMs = .ok add →
      json.Faithful (.object [(ascii "add", add)])) :
    (∃ e, DeltaLogEntry.ofLine json text version = some e ∧ FindsKeys arrow type t e) ↔
      ∀ s, t.Greatest s → ¬CutShort s := by
  have hrec : 0 ≤ file.stats.numRecords := by
    rw [hfile]
    exact Int.natCast_nonneg _
  have hcols : file.stats.columns ≠ [] := by
    rw [hfile]
    exact List.cons_ne_nil _ _
  obtain ⟨e, hline, hkept⟩ := kept_of_written version hwrite hrec hcols hstats hadd
  rw [hfile] at hkept
  have hentry : (∃ e, DeltaLogEntry.ofLine json text version = some e ∧ FindsKeys arrow type t e) ↔
      FindsKeys arrow type t e :=
    ⟨fun ⟨e', he', hf⟩ ↦ Option.some.inj (hline.symm.trans he') ▸ hf, fun hf ↦ ⟨e, hline, hf⟩⟩
  have hvacuous : t.texts = [] → ∀ s, t.Greatest s → ¬CutShort s := fun hempty s hs ↦ by
    rw [WrittenTable.Greatest, hempty] at hs
    cases hs.1
  rw [hentry]
  cases hdata : t.first.data with
  | string chunks =>
    have hkind : type.kind = .string := by
      rw [hdata] at htype
      cases type <;> first | rfl | exact htype.elim
    exact findsKeys_string_iff hdata hkind hkept
  | integer chunks =>
    have hkind : type.kind = .integer := by
      rw [hdata] at htype
      cases type <;> first | rfl | exact htype.elim
    exact iff_of_true (findsKeys_integer hdata hkind hkept)
      (hvacuous (by rw [WrittenTable.texts, hdata]))
  | date chunks =>
    exact iff_of_true (findsKeys_date hdata hkept) (hvacuous (by rw [WrittenTable.texts, hdata]))
  | floating chunks =>
    rw [hdata] at htype
    exact htype.elim
  | other chunks =>
    rw [hdata] at htype
    exact htype.elim

end Lookup

/-! ### Examples -/

/-- Arrow, for strings and integers. -/
def sampleArrow : Arrow Unit where
  parse type text :=
    match type.kind with
    | .string => some (.text text)
    | .integer => (parseInteger text).map .number
    | .date => none
    | .other => none
  equals _ _ := false
  parse_hasType {type text v} h := by
    unfold Scalar.HasType
    generalize type.kind = kind at h
    cases kind with
    | string =>
      obtain rfl := Option.some.inj h
      exact trivial
    | integer =>
      obtain ⟨n, -, rfl⟩ := Option.map_eq_some_iff.mp h
      exact trivial
    | date => cases h
    | other => cases h
  parse_string _ := rfl
  parse_largeString _ := rfl

/-- The files of the examples have one column `k` of strings. -/
def sampleStats (rows nulls : ℤ) (min max : ByteString) : Json :=
  .object
    [(ascii "numRecords", .int rows), (ascii "minValues", .object [(ascii "k", .string min)]),
      (ascii "maxValues", .object [(ascii "k", .string max)]),
      (ascii "nullCount", .object [(ascii "k", .int nulls)])]

def sampleAction (statsText : ByteString) : Json :=
  .object
    [(ascii "path", .string (ascii "f")), (ascii "partitionValues", .object []),
      (ascii "size", .int 500), (ascii "modificationTime", .int 0),
      (ascii "dataChange", .bool true), (ascii "stats", .string statsText)]

def sampleAdd (statsText : ByteString) : Json :=
  .object [(ascii "add", sampleAction statsText)]

/-- The text of the statistics; `min` and `max` are escaped. -/
def sampleStatsText (rows nulls : ℤ) (min max : ByteString) : ByteString :=
  ascii "\x7b\"numRecords\":" ++ toText rows ++ ascii ",\"minValues\":\x7b\"k\":\"" ++ min ++
    ascii "\"\x7d,\"maxValues\":\x7b\"k\":\"" ++ max ++
    ascii "\"\x7d,\"nullCount\":\x7b\"k\":" ++ toText nulls ++ ascii "\x7d\x7d"

/-- The text of the add action: quotes and backslashes of the statistics are escaped. -/
def sampleLine (statsText : ByteString) : ByteString :=
  ascii "\x7b\"add\":\x7b\"path\":\"f\",\"partitionValues\":\x7b\x7d,\"size\":500," ++
    ascii "\"modificationTime\":0,\"dataChange\":true,\"stats\":\"" ++
    (statsText.flatMap fun c ↦ if c = 34 ∨ c = 92 then [92, c] else [c]) ++ ascii "\"\x7d\x7d"

/-- rapidjson, for the two documents of an example. -/
def sampleJson (stats : Json) (statsText : ByteString) : JsonText where
  write value := if (value.member (ascii "add")).isSome then sampleLine statsText else statsText
  parse text :=
    if text = sampleLine statsText then some (sampleAdd statsText)
    else if text = statsText then some stats else none

theorem sampleJson_faithful (stats : Json) (statsText : ByteString)
    (hstats : (stats.member (ascii "add")).isSome = false) (hne : statsText ≠ sampleLine statsText)
    (hnil : statsText ≠ []) (hnul : 0 ∉ statsText) (hnul' : 0 ∉ sampleLine statsText) :
    (sampleJson stats statsText).Faithful stats ∧
      (sampleJson stats statsText).Faithful (sampleAdd statsText) := by
  have hwrite : (sampleJson stats statsText).write stats = statsText := by
    simp only [sampleJson, hstats, Bool.false_eq_true, if_false]
  have hwrite' : (sampleJson stats statsText).write (sampleAdd statsText) = sampleLine statsText :=
    rfl
  constructor
  · refine ⟨⟨stats, ?_, .refl stats⟩, ?_, ?_⟩
    · rw [hwrite]
      simp only [sampleJson, if_neg hne, if_true]
    · rwa [hwrite]
    · rwa [hwrite]
  · refine ⟨⟨sampleAdd statsText, ?_, .refl _⟩, ?_, ?_⟩
    · rw [hwrite']
      simp only [sampleJson, if_true]
    · rwa [hwrite']
    · rw [hwrite', sampleLine]
      simp [ascii]

/-- One row: the text `a`, NUL, `b`. -/
def nulTable : WrittenTable where
  numRows := 1
  first := ⟨ascii "k", .string [[some [97, 0, 98]]]⟩
  others := []
  length_eq := by decide
  names_distinct := by decide
  nul_not_mem := by decide

def nulStatsText : ByteString := sampleStatsText 1 0 (ascii "a\\u0000b") (ascii "a\\u0000b")

def nulJson : JsonText := sampleJson (sampleStats 1 0 [97, 0, 98] [97, 0, 98]) nulStatsText

def nulFile : WrittenFile := ⟨ascii "f", 500, computeStatistics conv15 1 nulTable.columns⟩

theorem own_statistics_hide_key :
    createOperationAddEntry conv15 nulJson nulFile [] 0 = .ok (sampleLine nulStatsText) ∧
      nulJson.Faithful (sampleStats 1 0 [97, 0, 98] [97, 0, 98]) ∧
      nulJson.Faithful (sampleAdd nulStatsText) ∧
      ∃ e, DeltaLogEntry.ofLine nulJson (sampleLine nulStatsText) 1 = some e ∧
        sampleArrow.HasKey .string [97, 0, 98] (.text [97, 0, 98]) ∧
        KeyMatcher.classify sampleArrow (KeyMatcher.make sampleArrow .string [97, 0, 98])
          (e.minOf (ascii "k")) (e.maxOf (ascii "k")) e.numRecords = .none := by
  have hfaithful := sampleJson_faithful (sampleStats 1 0 [97, 0, 98] [97, 0, 98]) nulStatsText
    (by decide) (by decide) (by decide) (by decide) (by decide)
  have hadd : addAction conv15 nulJson nulFile [] 0 = .ok (sampleAction nulStatsText) := rfl
  have hwrite : createOperationAddEntry conv15 nulJson nulFile [] 0 =
      .ok (sampleLine nulStatsText) := by
    rw [createOperationAddEntry, hadd]
    exact congrArg Except.ok (cString_eq_self hfaithful.2.nul_not_mem)
  have hline : DeltaLogEntry.ofLine nulJson (sampleLine nulStatsText) 1 =
      some (DeltaLogEntry.fromAction nulJson .add (sampleAction nulStatsText) 1) := by
    rw [DeltaLogEntry.ofLine, nulJson, sampleJson]
    simp only [if_true]
    rfl
  exact ⟨hwrite, hfaithful.1, hfaithful.2, _, hline, ⟨_, rfl, rfl⟩, by decide +kernel⟩

/-- Two texts and a null, in two chunks. -/
def plainTable : WrittenTable where
  numRows := 3
  first := ⟨ascii "k", .string [[some (ascii "b"), none], [some (ascii "a")]]⟩
  others := []
  length_eq := by decide
  names_distinct := by decide
  nul_not_mem := by decide

def plainStatsText : ByteString := sampleStatsText 3 1 (ascii "a") (ascii "b")

def plainJson : JsonText := sampleJson (sampleStats 3 1 (ascii "a") (ascii "b")) plainStatsText

def plainFile : WrittenFile := ⟨ascii "f", 500, computeStatistics conv15 3 plainTable.columns⟩

theorem own_statistics_find_keys_sample :
    ∃ e, DeltaLogEntry.ofLine plainJson (sampleLine plainStatsText) 1 = some e ∧
      FindsKeys sampleArrow .string plainTable e := by
  have hfaithful := sampleJson_faithful (sampleStats 3 1 (ascii "a") (ascii "b")) plainStatsText
    (by decide) (by decide) (by decide) (by decide) (by decide)
  have hadd : addAction conv15 plainJson plainFile [] 0 = .ok (sampleAction plainStatsText) := rfl
  have hstats : statsDocument conv15 plainFile.stats =
      .ok (sampleStats 3 1 (ascii "a") (ascii "b")) := rfl
  refine (own_statistics_find_keys_iff sampleArrow .string conv15 plainJson plainTable plainFile []
    (sampleLine plainStatsText) 0 1 trivial rfl ?_ ?_ ?_).mpr ?_
  · rw [createOperationAddEntry, hadd]
    exact congrArg Except.ok (cString_eq_self hfaithful.2.nul_not_mem)
  · intro document h
    obtain rfl := Except.ok.inj (hstats.symm.trans h)
    exact hfaithful.1
  · intro add h
    obtain rfl := Except.ok.inj (hadd.symm.trans h)
    exact hfaithful.2
  · rintro s ⟨hs, -⟩
    have hcases : s = ascii "b" ∨ s = ascii "a" := List.mem_pair.mp hs
    rcases hcases with rfl | rfl <;> decide

end LakeVilla.Keys

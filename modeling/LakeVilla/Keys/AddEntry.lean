import LakeVilla.Data.AssocList
import LakeVilla.DeltaLog.DeltaLogManager
import LakeVilla.Keys.Statistics

/-!
# The add action and the entry of a snapshot

`createOperationAddEntry` writes the statistics of a file as a JSON document, and that document as a
string of the add action. `DeltaLogEntry::from_action` reads them back, through C strings.

rapidjson is a parameter (`JsonText`). Floating-point numbers need not survive it exactly.
-/

namespace LakeVilla.Keys

open ByteString

/-! ## Traversals that may throw -/

section Traversal

variable {ε α β : Type} {f : α → Except ε β}

theorem mapM_ok {l : List α} {ys : List β} (h : l.mapM f = .ok ys) :
    List.Forall₂ (fun x y ↦ f x = .ok y) l ys := by
  induction l generalizing ys with
  | nil =>
    cases h
    exact .nil
  | cons x l ih =>
    rw [List.mapM_cons] at h
    cases hx : f x with
    | error e =>
      rw [hx] at h
      cases h
    | ok y =>
      rw [hx] at h
      cases hl : l.mapM f with
      | error e =>
        rw [hl] at h
        cases h
      | ok ys' =>
        rw [hl] at h
        cases h
        exact .cons hx (ih hl)

theorem exists_mapM_ok {l : List α} (h : ∀ x ∈ l, ∃ y, f x = .ok y) : ∃ ys, l.mapM f = .ok ys := by
  induction l with
  | nil => exact ⟨[], rfl⟩
  | cons x l ih =>
    obtain ⟨y, hy⟩ := h x List.mem_cons_self
    obtain ⟨ys, hys⟩ := ih fun x hx ↦ h x (List.mem_cons_of_mem _ hx)
    refine ⟨y :: ys, ?_⟩
    rw [List.mapM_cons, hy, hys]
    rfl

end Traversal

/-! ## JSON texts -/

/-- `value` reads back as `value'`: the same document up to its floating-point numbers. -/
inductive Json.Reads : Json → Json → Prop
  | null : Reads .null .null
  | bool (b : Bool) : Reads (.bool b) (.bool b)
  | int (n : ℤ) : Reads (.int n) (.int n)
  | double (d d' : Double) : Reads (.double d) (.double d')
  | string (s : ByteString) : Reads (.string s) (.string s)
  | array {items items' : List Json} :
    List.Forall₂ Reads items items' → Reads (.array items) (.array items')
  | object {members members' : List (ByteString × Json)} :
    members.map (·.1) = members'.map (·.1) →
    List.Forall₂ (fun m m' ↦ Reads m.2 m'.2) members members' →
    Reads (.object members) (.object members')

mutual

theorem Json.Reads.refl : (value : Json) → value.Reads value
  | .null => .null
  | .bool b => .bool b
  | .int n => .int n
  | .double d => .double d d
  | .string s => .string s
  | .array items => .array (reads_items items)
  | .object members => .object rfl (reads_members members)

theorem reads_items : (items : List Json) → List.Forall₂ Json.Reads items items
  | [] => .nil
  | value :: items => .cons (Json.Reads.refl value) (reads_items items)

theorem reads_members : (members : List (ByteString × Json)) →
    List.Forall₂ (fun m m' ↦ Json.Reads m.2 m'.2) members members
  | [] => .nil
  | (_, value) :: members => .cons (Json.Reads.refl value) (reads_members members)

end

/-- `rapidjson::Writer` and `rapidjson::Document::Parse`. -/
structure JsonText where
  write : Json → ByteString
  parse : ByteString → Option Json

/-- What is documented of a document: its text is not empty and reads back, and control characters
are escaped. -/
structure JsonText.Faithful (json : JsonText) (value : Json) : Prop where
  parse_write : ∃ value', json.parse (json.write value) = some value' ∧ value.Reads value'
  nul_not_mem : 0 ∉ json.write value
  write_ne_nil : json.write value ≠ []

/-- A text as a C string. -/
def cString (text : ByteString) : ByteString := text.takeWhile (· ≠ 0)

theorem cString_eq_self {text : ByteString} (h : 0 ∉ text) : cString text = text := by
  rw [cString, List.takeWhile_eq_self_iff]
  exact fun c hc ↦ decide_eq_true fun h' ↦ h (h' ▸ hc)

theorem isPrefix_cString (text : ByteString) : cString text <+: text := List.takeWhile_prefix _

/-- `FindMember` -/
def Json.member (value : Json) (name : ByteString) : Option Json :=
  match value with
  | .object members => members.lookup name
  | _ => none

theorem lookup_reads {members members' : List (ByteString × Json)}
    (hnames : members.map (·.1) = members'.map (·.1))
    (h : List.Forall₂ (fun m m' ↦ m.2.Reads m'.2) members members') {name : ByteString} {v : Json}
    (hv : members.lookup name = some v) : ∃ v', members'.lookup name = some v' ∧ v.Reads v' := by
  induction h with
  | nil => cases hv
  | @cons m m' members members' hm _ ih =>
    obtain ⟨n, w⟩ := m
    obtain ⟨n', w'⟩ := m'
    obtain ⟨hn, hrest⟩ := List.cons.inj hnames
    obtain rfl : n = n' := hn
    rw [AssocList.lookup_cons_eq] at hv ⊢
    split at hv
    · next heq =>
      obtain rfl := Option.some.inj hv
      exact ⟨w', if_pos heq, hm⟩
    · next hne =>
      rw [if_neg hne]
      exact ih hrest hv

/-- A member of a document is found again. -/
theorem Json.Reads.member {v v' w : Json} (h : v.Reads v') {name : ByteString}
    (hw : v.member name = some w) : ∃ w', v'.member name = some w' ∧ w.Reads w' := by
  cases h with
  | object hnames h => exact lookup_reads hnames h hw
  | _ => cases hw

theorem Json.Reads.eq_object {members : List (ByteString × Json)} {v' : Json}
    (h : (Json.object members).Reads v') : ∃ members', v' = .object members' ∧
      members.map (·.1) = members'.map (·.1) ∧
        List.Forall₂ (fun m m' ↦ m.2.Reads m'.2) members members' := by
  cases h with
  | object hnames h => exact ⟨_, rfl, hnames, h⟩

theorem Json.Reads.eq_string {s : ByteString} {v' : Json} (h : (Json.string s).Reads v') :
    v' = .string s := by
  cases h
  rfl

theorem Json.Reads.eq_int {n : ℤ} {v' : Json} (h : (Json.int n).Reads v') : v' = .int n := by
  cases h
  rfl

/-! ### Documents without floating-point numbers -/

/-- Every reading of a document is the document. -/
def Json.Exact (value : Json) : Prop := ∀ ⦃value'⦄, value.Reads value' → value' = value

theorem exact_string (s : ByteString) : (Json.string s).Exact := fun _ h ↦ h.eq_string

theorem exact_null : Json.null.Exact := by
  rintro _ ⟨⟩
  rfl

theorem exact_int (n : ℤ) : (Json.int n).Exact := fun _ h ↦ h.eq_int

theorem exact_bool (b : Bool) : (Json.bool b).Exact := by
  rintro _ ⟨⟩
  rfl

theorem exact_array {items : List Json} (h : ∀ value ∈ items, value.Exact) :
    (Json.array items).Exact := by
  intro value' hreads
  cases hreads with
  | array hitems =>
    refine congrArg Json.array ?_
    induction hitems with
    | nil => rfl
    | @cons value value' items items' hvalue _ ih =>
      rw [h value List.mem_cons_self hvalue, ih fun v hv ↦ h v (List.mem_cons_of_mem _ hv)]

theorem exact_object {members : List (ByteString × Json)} (h : ∀ m ∈ members, m.2.Exact) :
    (Json.object members).Exact := by
  intro value' hreads
  obtain ⟨members', rfl, hnames, hvalues⟩ := hreads.eq_object
  refine congrArg Json.object ?_
  clear hreads
  induction hvalues with
  | nil => rfl
  | @cons m m' members members' hm _ ih =>
    obtain ⟨hname, hrest⟩ := List.cons.inj hnames
    rw [ih (fun v hv ↦ h v (List.mem_cons_of_mem _ hv)) hrest,
      Prod.ext hname.symm (h m List.mem_cons_self hm)]

/-! ## `createOperationAddEntry` -/

/-- The fields of `FileStats` that the add action shows. -/
structure WrittenFile where
  path : ByteString
  size : ℤ := -1
  stats : TableStatistics := {}
  deriving DecidableEq

/-- `relative_path` -/
def relativePath (path base : ByteString) : ByteString :=
  if base <+: path then path.drop base.length else path

/-- A column's members of `minValues` and `maxValues`. -/
def minMaxMembers (conv : CharConv) (c : ColumnStatistics) :
    Except StdError ((ByteString × Json) × (ByteString × Json)) := do
  let min ← statValue conv c c.min
  let max ← statValue conv c c.max
  pure ((cString c.name, min), (cString c.name, max))

/-- The statistics as a JSON document: only values that are known. -/
def statsDocument (conv : CharConv) (stats : TableStatistics) : Except StdError Json := do
  let members ← (stats.columns.filter (·.hasMinMax)).mapM (minMaxMembers conv)
  let records := if 0 ≤ stats.numRecords then [(ascii "numRecords", .int stats.numRecords)] else []
  let columns :=
    if stats.columns.isEmpty then []
    else
      [(ascii "minValues", .object (members.map (·.1))),
        (ascii "maxValues", .object (members.map (·.2))),
        (ascii "nullCount",
          .object (stats.columns.map fun c ↦ (cString c.name, .int c.nullCount)))]
  pure (.object (records ++ columns))

/-- The add action of a file; `nowMs` is the time at which it is written. -/
def addAction (conv : CharConv) (json : JsonText) (file : WrittenFile) (base : ByteString)
    (nowMs : ℤ) : Except StdError Json := do
  let stats ←
    if 0 ≤ file.stats.numRecords ∨ file.stats.columns ≠ [] then do
      let document ← statsDocument conv file.stats
      pure [(ascii "stats", .string (json.write document))]
    else pure []
  pure <| .object <|
    [(ascii "path", .string (relativePath file.path base)),
      (ascii "partitionValues", .object []),
      (ascii "size", .int (if file.size < 0 then 0 else file.size)),
      (ascii "modificationTime", .int nowMs),
      (ascii "dataChange", .bool true)] ++ stats

/-- `createOperationAddEntry` -/
def createOperationAddEntry (conv : CharConv) (json : JsonText) (file : WrittenFile)
    (base : ByteString) (nowMs : ℤ) : Except StdError ByteString := do
  let add ← addAction conv json file base nowMs
  pure (cString (json.write (.object [(ascii "add", add)])))

/-! ## `DeltaLogEntry` -/

/-- An entry of the snapshot with the statistics of the file. -/
structure DeltaLogEntry where
  operation : DLOperation
  min : List ByteString := []
  max : List ByteString := []
  minColumns : List ByteString := []
  maxColumns : List ByteString := []
  /-- -1 if unknown -/
  numRecords : ℤ := -1
  /-- the raw statistics of the add action (empty if unknown) -/
  stats : ByteString := []
  size : ℤ := -1
  deletionTimestamp : ℤ := 0
  modificationTime : ℤ := -1
  partitionValues : ByteString := []
  tags : ByteString := []
  version : ℤ := -1
  deriving DecidableEq

namespace DeltaLogEntry

/-- `stat_to_string` -/
def statToString (json : JsonText) : Json → ByteString
  | .string s => cString s
  | .int n => toText n
  | .null => []
  -- doubles, booleans and nested statistics as JSON text
  | value => cString (json.write value)

/-- `read_stats`: the values and their column names. -/
def readStats (json : JsonText) (document : Json) (name : ByteString) :
    List ByteString × List ByteString :=
  match document.member name with
  | some (.object members) => (members.map fun m ↦ statToString json m.2,
      members.map fun m ↦ cString m.1)
  | _ => ([], [])

/-- The constructor from the statistics of an action; `none` is a null pointer. -/
def ofStats (json : JsonText) (operation : DLOperation) (stats : Option ByteString) (size : ℤ) :
    DeltaLogEntry :=
  match stats with
  | none => { operation := operation, size := size }
  | some stats =>
    if cString stats = [] then { operation := operation, size := size }
    else
      let entry := { operation := operation, size := size, stats := cString stats }
      match json.parse (cString stats) with
      | some (.object members) =>
        let min := readStats json (.object members) (ascii "minValues")
        let max := readStats json (.object members) (ascii "maxValues")
        { entry with
          min := min.1
          minColumns := min.2
          max := max.1
          maxColumns := max.2
          numRecords :=
            match members.lookup (ascii "numRecords") with
            | some (.int n) => if InInt64 n then n else -1
            | _ => -1 }
      -- invalid statistics are ignored
      | _ => entry

/-- A member that is an `int64_t`, else the default. -/
def int64Member (action : Json) (name : ByteString) (default : ℤ) : ℤ :=
  match action.member name with
  | some (.int n) => if InInt64 n then n else default
  | _ => default

/-- A member that is an object, as text. -/
def objectMember (json : JsonText) (action : Json) (name : ByteString) : ByteString :=
  match action.member name with
  | some (.object members) => json.write (.object members)
  | _ => []

/-- `from_action`: the entry of an add (`add`) or remove (`delete`) action. -/
def fromAction (json : JsonText) (operation : DLOperation) (action : Json) (version : ℤ) :
    DeltaLogEntry :=
  let stats :=
    if operation = .add then
      match action.member (ascii "stats") with
      | some (.string s) => some s
      | _ => none
    else none
  let entry := ofStats json operation stats (int64Member action (ascii "size") (-1))
  let entry :=
    if operation = .add then
      { entry with modificationTime := int64Member action (ascii "modificationTime") (-1) }
    else { entry with deletionTimestamp := int64Member action (ascii "deletionTimestamp") 0 }
  { entry with
    partitionValues := objectMember json action (ascii "partitionValues")
    tags := objectMember json action (ascii "tags")
    version := version }

/-- `std::tolower` -/
def toLower (c : Byte) : Byte := if 65 ≤ c ∧ c ≤ 90 then c + 32 else c

/-- `same_name` -/
def sameName (a b : ByteString) : Bool := a.map toLower = b.map toLower

/-- `value_of`: the value of a column by its exact name, else by its name in another case. -/
def valueOf (columns values : List ByteString) (column : ByteString) : Option ByteString :=
  let entries := columns.zip values
  match entries.find? fun e ↦ e.1 = column with
  | some e => some e.2
  | none => (entries.find? fun e ↦ sameName e.1 column).map (·.2)

/-- `min_of` -/
def minOf (e : DeltaLogEntry) (column : ByteString) : Option ByteString :=
  valueOf e.minColumns e.min column

/-- `max_of` -/
def maxOf (e : DeltaLogEntry) (column : ByteString) : Option ByteString :=
  valueOf e.maxColumns e.max column

/-- The entry that a line of a commit with an add action gives. -/
def ofLine (json : JsonText) (line : ByteString) (version : ℤ) : Option DeltaLogEntry := do
  let document ← json.parse line
  let add ← document.member (ascii "add")
  pure (fromAction json .add add version)

theorem valueOf_head (name x : ByteString) (names xs : List ByteString) :
    valueOf (name :: names) (x :: xs) name = some x := by
  simp only [valueOf, List.zip_cons_cons, List.find?_cons, decide_true]

/-- A column whose name is not among those of the statistics has no value. -/
theorem valueOf_eq_none {name : ByteString} {names xs : List ByteString}
    (h : ∀ n ∈ names, sameName n name = false) : valueOf names xs name = none := by
  have hsame : ∀ e ∈ names.zip xs, sameName e.1 name = false := fun e he ↦
    h e.1 (List.of_mem_zip he).1
  have hexact : (names.zip xs).find? (fun e ↦ e.1 = name) = none := by
    rw [List.find?_eq_none]
    intro e he heq
    have hne := hsame e he
    rw [of_decide_eq_true heq] at hne
    exact absurd hne (by simp [sameName])
  have hcase : (names.zip xs).find? (fun e ↦ sameName e.1 name) = none := by
    rw [List.find?_eq_none]
    exact fun e he heq ↦ by simp [hsame e he] at heq
  simp only [valueOf, hexact, hcase, Option.map_none]

end DeltaLogEntry

/-! ### From the table to the entry -/

/-- The value that a statistics text has in the snapshot. -/
def Survives (conv : CharConv) (json : JsonText) (c : ColumnStatistics) (text x : ByteString) :
    Prop :=
  ∃ v v' : Json, statValue conv c text = .ok v ∧ v.Reads v' ∧ x = DeltaLogEntry.statToString json v'

/-- What the entry of a written file keeps of its statistics. -/
structure Kept (conv : CharConv) (json : JsonText) (stats : TableStatistics) (e : DeltaLogEntry) :
    Prop where
  numRecords : e.numRecords = if InInt64 stats.numRecords then stats.numRecords else -1
  minColumns : e.minColumns = (stats.columns.filter (·.hasMinMax)).map (cString ·.name)
  maxColumns : e.maxColumns = (stats.columns.filter (·.hasMinMax)).map (cString ·.name)
  min : List.Forall₂ (fun c x ↦ Survives conv json c c.min x)
    (stats.columns.filter (·.hasMinMax)) e.min
  max : List.Forall₂ (fun c x ↦ Survives conv json c c.max x)
    (stats.columns.filter (·.hasMinMax)) e.max

variable {conv : CharConv} {json : JsonText}

/-- The members of `minValues` and `maxValues` are those of the columns with a minimum. -/
theorem minMaxMembers_ok {c : ColumnStatistics} {m : (ByteString × Json) × (ByteString × Json)}
    (h : minMaxMembers conv c = .ok m) :
    m.1.1 = cString c.name ∧ m.2.1 = cString c.name ∧ statValue conv c c.min = .ok m.1.2 ∧
      statValue conv c c.max = .ok m.2.2 := by
  rw [minMaxMembers] at h
  cases hmin : statValue conv c c.min with
  | error e =>
    rw [hmin] at h
    cases h
  | ok min =>
    cases hmax : statValue conv c c.max with
    | error e =>
      rw [hmin, hmax] at h
      cases h
    | ok max =>
      rw [hmin, hmax] at h
      cases h
      exact ⟨rfl, rfl, rfl, rfl⟩

theorem cString_cString (text : ByteString) : cString (cString text) = cString text := by
  unfold cString
  rw [List.takeWhile_eq_self_iff]
  intro c hc
  simpa using List.mem_takeWhile_imp hc

/-- The values and names that `read_stats` finds for a member that was read back. -/
theorem readStats_reads (conv : CharConv) (json : JsonText) (text : ColumnStatistics → ByteString)
    {document : Json} {name : ByteString} {cs : List ColumnStatistics}
    {ms : List (ByteString × Json)}
    (hms : List.Forall₂ (fun c m ↦ m.1 = cString c.name ∧ statValue conv c (text c) = .ok m.2) cs ms)
    {value' : Json} (hmember : document.member name = some value')
    (hreads : (Json.object ms).Reads value') :
    (DeltaLogEntry.readStats json document name).2 = cs.map (cString ·.name) ∧
      List.Forall₂ (fun c x ↦ Survives conv json c (text c) x) cs
        (DeltaLogEntry.readStats json document name).1 := by
  obtain ⟨ms', rfl, hnames, hvalues⟩ := hreads.eq_object
  simp only [DeltaLogEntry.readStats, hmember]
  clear hmember hreads
  induction hms generalizing ms' with
  | nil =>
    cases hvalues
    exact ⟨rfl, .nil⟩
  | @cons c m cs ms hm _ ih =>
    cases hvalues with
    | @cons _ m' _ ms' hr hrest =>
    obtain ⟨hn, hnrest⟩ := List.cons.inj hnames
    obtain ⟨ihn, ihv⟩ := ih ms' hnrest hrest
    have hn : m.1 = m'.1 := hn
    have hname : cString m'.1 = cString c.name := by rw [← hn, hm.1, cString_cString]
    refine ⟨?_, .cons ⟨m.2, m'.2, hm.2, hr, rfl⟩ ihv⟩
    rw [List.map_cons, List.map_cons, ihn, hname]

/-- A document with members reads back as one. -/
theorem Json.Reads.exists_object {v v' w : Json} (h : v.Reads v') {name : ByteString}
    (hw : v.member name = some w) : ∃ members, v' = .object members := by
  cases h with
  | object _ _ => exact ⟨_, rfl⟩
  | _ => cases hw

/-- Statistics that can be parsed fill the entry. -/
theorem ofStats_object (size : ℤ) {stats : ByteString} {members : List (ByteString × Json)}
    (hne : stats ≠ []) (hnul : 0 ∉ stats) (hparse : json.parse stats = some (.object members)) :
    DeltaLogEntry.ofStats json .add (some stats) size =
      { operation := .add
        size := size
        stats := stats
        min := (DeltaLogEntry.readStats json (.object members) (ascii "minValues")).1
        minColumns := (DeltaLogEntry.readStats json (.object members) (ascii "minValues")).2
        max := (DeltaLogEntry.readStats json (.object members) (ascii "maxValues")).1
        maxColumns := (DeltaLogEntry.readStats json (.object members) (ascii "maxValues")).2
        numRecords :=
          match members.lookup (ascii "numRecords") with
          | some (.int n) => if InInt64 n then n else -1
          | _ => -1 } := by
  simp only [DeltaLogEntry.ofStats, cString_eq_self hnul, if_neg hne, hparse]

/-- The document of a table with columns and a known number of rows. -/
theorem statsDocument_ok {stats : TableStatistics} {document : Json}
    (h : statsDocument conv stats = .ok document) (hrec : 0 ≤ stats.numRecords)
    (hcols : stats.columns ≠ []) :
    ∃ ms, List.Forall₂ (fun c m ↦ minMaxMembers conv c = .ok m)
        (stats.columns.filter (·.hasMinMax)) ms ∧
      document.member (ascii "numRecords") = some (.int stats.numRecords) ∧
      document.member (ascii "minValues") = some (.object (ms.map (·.1))) ∧
      document.member (ascii "maxValues") = some (.object (ms.map (·.2))) := by
  rw [statsDocument] at h
  cases hms : (stats.columns.filter (·.hasMinMax)).mapM (minMaxMembers conv) with
  | error e =>
    rw [hms] at h
    cases h
  | ok ms =>
    have hempty : stats.columns.isEmpty = false := by
      rw [List.isEmpty_eq_false_iff]
      exact hcols
    rw [hms, if_pos hrec, hempty] at h
    cases h
    exact ⟨ms, mapM_ok hms, rfl, rfl, rfl⟩

/-- **The statistics come through** the two JSON texts and the C strings between them. -/
theorem kept_of_written (version : ℤ) {file : WrittenFile} {base text : ByteString} {nowMs : ℤ}
    (hwrite : createOperationAddEntry conv json file base nowMs = .ok text)
    (hrec : 0 ≤ file.stats.numRecords) (hcols : file.stats.columns ≠ [])
    (hstats : ∀ document, statsDocument conv file.stats = .ok document → json.Faithful document)
    (hadd : ∀ add, addAction conv json file base nowMs = .ok add →
      json.Faithful (.object [(ascii "add", add)])) :
    ∃ e, DeltaLogEntry.ofLine json text version = some e ∧ Kept conv json file.stats e := by
  rw [createOperationAddEntry] at hwrite
  cases hadd' : addAction conv json file base nowMs with
  | error e =>
    rw [hadd'] at hwrite
    cases hwrite
  | ok add =>
  have hline := hadd add hadd'
  rw [hadd'] at hwrite
  obtain rfl : cString (json.write (.object [(ascii "add", add)])) = text := Except.ok.inj hwrite
  rw [addAction, if_pos (.inl hrec)] at hadd'
  cases hdoc : statsDocument conv file.stats with
  | error e =>
    rw [hdoc] at hadd'
    cases hadd'
  | ok document =>
  rw [hdoc] at hadd'
  have hfaithful := hstats document hdoc
  -- the outer text gives the action back, with the statistics as they were written
  obtain ⟨line', hparse, hreads⟩ := hline.parse_write
  have hfound : (Json.object [(ascii "add", add)]).member (ascii "add") = some add := rfl
  obtain ⟨add', hmember, hadd_reads⟩ := hreads.member hfound
  have hstat : add.member (ascii "stats") = some (.string (json.write document)) := by
    cases hadd'
    rfl
  obtain ⟨stat', hstat', hs⟩ := hadd_reads.member hstat
  obtain rfl := hs.eq_string
  -- the inner text gives the statistics back
  obtain ⟨document', hparse', hreads'⟩ := hfaithful.parse_write
  obtain ⟨ms, hms, hnum, hmin, hmax⟩ := statsDocument_ok hdoc hrec hcols
  obtain ⟨num', hnum', hn⟩ := hreads'.member hnum
  obtain rfl := hn.eq_int
  obtain ⟨min', hmin', hmin_reads⟩ := hreads'.member hmin
  obtain ⟨max', hmax', hmax_reads⟩ := hreads'.member hmax
  obtain ⟨members, rfl⟩ := hreads'.exists_object hnum
  have hmins := readStats_reads conv json (·.min)
    (List.forall₂_map_right_iff.mpr (hms.imp fun c m h ↦ ⟨(minMaxMembers_ok h).1,
      (minMaxMembers_ok h).2.2.1⟩)) hmin' hmin_reads
  have hmaxs := readStats_reads conv json (·.max)
    (List.forall₂_map_right_iff.mpr (hms.imp fun c m h ↦ ⟨(minMaxMembers_ok h).2.1,
      (minMaxMembers_ok h).2.2.2⟩)) hmax' hmax_reads
  have hline' : cString (json.write (.object [(ascii "add", add)])) =
      json.write (.object [(ascii "add", add)]) := cString_eq_self hline.nul_not_mem
  refine ⟨DeltaLogEntry.fromAction json .add add' version, ?_, ?_⟩
  · rw [DeltaLogEntry.ofLine, hline', hparse, Option.bind_eq_bind, Option.bind_some, hmember]
    rfl
  · have hentry := ofStats_object (DeltaLogEntry.int64Member add' (ascii "size") (-1))
      hfaithful.write_ne_nil hfaithful.nul_not_mem hparse'
    have hlookup : members.lookup (ascii "numRecords") = some (.int file.stats.numRecords) := hnum'
    rw [hlookup] at hentry
    constructor
    all_goals simp only [DeltaLogEntry.fromAction, if_pos, hstat', hentry]
    · exact hmins.1
    · exact hmaxs.1
    · exact hmins.2
    · exact hmaxs.2

end LakeVilla.Keys

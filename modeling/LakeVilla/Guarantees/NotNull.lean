import LakeVilla.Conform.Nulls

/-!
# NOT NULL in converted tables

`conform_to_schema` rejects nulls in the columns that are NOT NULL. Below a column nothing is
checked: there a null is kept, and a field that the source does not have is filled with nulls.
-/

namespace LakeVilla.Conform

open ByteString
open Schema (ArrowType ArrowSchema FieldInfo Except.bind_eq_ok)

/-! ## What is promised -/

/-- No value of the table is null where the schema does not allow it, at any depth. -/
def ArrowTable.Satisfies (table : ArrowTable) (schema : ArrowSchema) : Prop :=
  List.Forall₂ (fun field column ↦ ∀ chunk ∈ column, ∀ i < chunk.length,
    Allowed field.1 (chunk.value i) ∧ Conform.Satisfies field.2 (chunk.value i))
    schema.fields table.columns

/-- The chunks of the columns are valid arrays. -/
def ArrowTable.Valid (table : ArrowTable) : Prop :=
  ∀ column ∈ table.columns, ∀ chunk ∈ column, chunk.Valid

/-- Below the column that a field takes, the source has no null and lacks no field where the schema
does not allow a null. -/
def FieldSupplied (A : Library) (options : ConformOptions) (table : ArrowTable)
    (field : FieldInfo × ArrowType) : Prop :=
  ∀ index, options.columnOf table field.1 = some index →
    ∀ chunk ∈ table.columns.getD index [], ∀ i < chunk.length,
      Conforms A options.physicalNames field.2 chunk.type (chunk.value i)

variable {A : Library} {options : ConformOptions} {table result : ArrowTable}
  {schema : ArrowSchema} {f : FieldInfo} {t : ArrowType} {column : List ArrowArray}

/-! ## Columns -/

theorem satisfies_scalar (t : ArrowType) (s : Scalar) : Satisfies t (.scalar s) := by
  cases t <;> simp [Satisfies]

theorem ArrowTable.Valid.chunk (h : table.Valid) {index : ℕ} {chunk : ArrowArray}
    (hchunk : chunk ∈ table.columns.getD index []) : chunk.Valid := by
  rw [List.getD_eq_getElem?_getD] at hchunk
  cases hcolumn : table.columns[index]? with
  | none =>
    rw [hcolumn] at hchunk
    exact absurd hchunk List.not_mem_nil
  | some column =>
    rw [hcolumn] at hchunk
    exact h column (List.mem_of_getElem? hcolumn) chunk hchunk

/-- A column of one array whose values satisfy the type. -/
theorem satisfies_singleton {a : ArrowArray} {n : ℕ} {v : Value} (hv : Satisfies t v)
    (h : a.length = n ∧ ∀ i < n, a.value i = v) :
    ∀ chunk ∈ [a], ∀ i < chunk.length, Satisfies t (chunk.value i) := by
  obtain ⟨rfl, hvalue⟩ := h
  intro chunk hchunk i hi
  obtain rfl := List.mem_singleton.mp hchunk
  rw [hvalue i hi]
  exact hv

/-- The chunks of a column are converted one by one. -/
theorem Library.Documented.convertedChunks (hA : A.Documented) {physicalNames : Bool} {context : ByteString}
    {chunks made : List ArrowArray} (hvalid : ∀ chunk ∈ chunks, chunk.Valid)
    (h : chunks.mapM (conformArray A physicalNames context t) = .ok made) :
    (∀ chunk ∈ made, ∀ i < chunk.length, Satisfies t (chunk.value i)) ↔
      ∀ chunk ∈ chunks, ∀ i < chunk.length,
        Conforms A physicalNames t chunk.type (chunk.value i) := by
  have h : List.Forall₂ (fun source a ↦ source.Valid ∧
      conformArray A physicalNames context t source = .ok a) chunks made :=
    (List.forall₂_and_left _ _).mpr ⟨hvalid, Keys.mapM_ok h⟩
  refine forall₂_forall_congr h fun source a ⟨hsource, hconform⟩ ↦ ?_
  have hconverts := converts_conformArray hA t hsource hconform
  rw [hconverts.length]
  exact forall₂_congr fun i hi ↦ hconverts.satisfies i hi

theorem Library.Documented.convertedColumn (hA : A.Documented) (hvalid : table.Valid)
    (h : conformColumn A options table f t = .ok column) :
    (∀ chunk ∈ column, ∀ i < chunk.length, Satisfies t (chunk.value i)) ↔
      FieldSupplied A options table (f, t) := by
  unfold conformColumn at h
  cases hpartition : options.partitionValue f.name with
  | some value =>
    have hsupplied : FieldSupplied A options table (f, t) := by
      intro index hindex
      simp [ConformOptions.columnOf, hpartition] at hindex
    refine iff_of_true ?_ hsupplied
    rw [hpartition] at h
    cases value with
    | none =>
      obtain ⟨a, ha, hok⟩ := Except.bind_eq_ok.mp h
      cases hok
      exact satisfies_singleton (satisfies_null t) (hA.makeArrayOfNull ha)
    | some text =>
      dsimp only at h
      split at h
      · cases h
      · next scalar _ =>
        obtain ⟨a, ha, hok⟩ := Except.bind_eq_ok.mp h
        cases hok
        exact satisfies_singleton (satisfies_scalar t scalar) (hA.makeArrayFromScalar ha)
  | none =>
    rw [hpartition] at h
    dsimp only at h
    cases hindex : findField table.fields (fileName f options.physicalNames) with
    | none =>
      have hsupplied : FieldSupplied A options table (f, t) := by
        intro index hcolumn
        simp [ConformOptions.columnOf, hpartition, hindex] at hcolumn
      refine iff_of_true ?_ hsupplied
      rw [hindex] at h
      dsimp only at h
      split_ifs at h
      obtain ⟨a, ha, hok⟩ := Except.bind_eq_ok.mp h
      cases hok
      exact satisfies_singleton (satisfies_null t) (hA.makeArrayOfNull ha)
    | some index =>
      rw [hindex] at h
      obtain ⟨chunks, hchunks, hmade⟩ := Except.bind_eq_ok.mp h
      obtain rfl := hA.makeChunked hmade
      rw [hA.convertedChunks (fun _ ↦ hvalid.chunk) hchunks]
      have hcolumn : options.columnOf table f = some index := by
        simp [ConformOptions.columnOf, hpartition, hindex]
      constructor
      · intro h index' hindex'
        rw [hcolumn] at hindex'
        obtain rfl := Option.some.inj hindex'
        exact h
      · exact fun h ↦ h index hcolumn

/-- **A column that is NOT NULL has no nulls.** -/
theorem allowed_of_nullCount (h : ¬(!f.nullable ∧ 0 < (column.map ArrowArray.nullCount).sum)) :
    ∀ chunk ∈ column, ∀ i < chunk.length, Allowed f (chunk.value i) := by
  intro chunk hchunk i hi hnull
  by_contra hnullable
  refine h ⟨by simpa using hnullable, ?_⟩
  by_contra hsum
  have hzero : chunk.nullCount = 0 :=
    List.sum_eq_zero_iff.mp (Nat.eq_zero_of_not_pos hsum) _ (List.mem_map_of_mem hchunk)
  rw [ArrowArray.nullCount_eq_zero.mp hzero i hi] at hnull
  cases hnull

theorem Library.Documented.convertedColumns (hA : A.Documented) (hvalid : table.Valid)
    {fields : List (FieldInfo × ArrowType)} {columns : List (List ArrowArray)}
    (h : conformColumns A options table fields = .ok columns) :
    List.Forall₂ (fun field column ↦ ∀ chunk ∈ column, ∀ i < chunk.length,
        Allowed field.1 (chunk.value i) ∧ Conform.Satisfies field.2 (chunk.value i))
        fields columns ↔
      ∀ field ∈ fields, FieldSupplied A options table field := by
  induction fields generalizing columns with
  | nil =>
    cases h
    simp
  | cons field fields ih =>
    obtain ⟨f, t⟩ := field
    rw [conformColumns] at h
    obtain ⟨column, hcolumn, h⟩ := Except.bind_eq_ok.mp h
    split_ifs at h with hnulls
    obtain ⟨rest, hrest, hok⟩ := Except.bind_eq_ok.mp h
    cases hok
    rw [List.forall₂_cons, List.forall_mem_cons, ih hrest, ← hA.convertedColumn hvalid hcolumn]
    have hallowed := allowed_of_nullCount hnulls
    refine and_congr_left' ?_
    exact ⟨fun h chunk hchunk i hi ↦ (h chunk hchunk i hi).2,
      fun h chunk hchunk i hi ↦ ⟨hallowed chunk hchunk i hi, h chunk hchunk i hi⟩⟩

theorem conformToSchema_ok (h : conformToSchema A (some table) schema options = .ok result) :
    conformColumns A options table schema.fields = .ok result.columns := by
  obtain ⟨columns, hcolumns, h⟩ := Except.bind_eq_ok.mp h
  split at h
  · cases h
  · cases h
    exact hcolumns

/-! ## Tables -/

/-- **A converted table satisfies the schema if and only if the source supplies what is NOT NULL
below its columns.** -/
theorem conformed_satisfies_iff (A : Library) (hA : A.Documented) (table result : ArrowTable)
    (hvalid : table.Valid) (schema : ArrowSchema) (options : ConformOptions)
    (h : conformToSchema A (some table) schema options = .ok result) :
    result.Satisfies schema ↔
      ∀ field ∈ schema.fields, FieldSupplied A options table field :=
  hA.convertedColumns hvalid (conformToSchema_ok h)

/-- Rows that are written satisfy the schema of the table under the same condition. -/
theorem written_rows_satisfy_iff {tableSchema : Tables.TableSchema} (hA : A.Documented)
    (hvalid : table.Valid)
    (h : conformForWrite A (.ok (some tableSchema)) (some table) = some result) :
    result.Satisfies tableSchema.schema ↔ ∀ field ∈ tableSchema.schema.fields,
      FieldSupplied A { rejectExtraColumns := true } table field := by
  unfold conformForWrite at h
  dsimp only at h
  split_ifs at h
  split at h
  · next conformed hconformed =>
    obtain rfl := Option.some.inj h
    exact hA.convertedColumns hvalid (conformToSchema_ok hconformed)
  · cases h

/-! ## A struct with a field that is NOT NULL -/

/-- Arrow, for the types of the samples. -/
def sampleLibrary : Library where
  equals s t :=
    match s, t with
    | .int32, .int32 => true
    | _, _ => false
  toString _ := []
  makeArrayOfNull t n := .ok (.plain t (List.replicate n .null))
  parseScalar _ _ := none
  makeArrayFromScalar t s n := .ok (.plain t (List.replicate n (.scalar s)))
  cast _ _ := .error (.invalid (ascii "Unsupported cast"))
  makeChunked chunks _ := .ok chunks

theorem sampleLibrary_documented : sampleLibrary.Documented where
  makeArrayOfNull h := by
    cases h
    exact ⟨List.length_replicate, fun i hi ↦ by simp [ArrowArray.value, hi]⟩
  makeArrayFromScalar h := by
    cases h
    exact ⟨List.length_replicate, fun i hi ↦ by simp [ArrowArray.value, hi]⟩
  cast _ h := nomatch h
  narrow _ h := nomatch h
  makeChunked h := by
    cases h
    rfl

/-- `st STRUCT<a: INT>` -/
def structField (nullable : Bool) : FieldInfo × ArrowType :=
  ({ name := ascii "st" }, .struct [({ name := ascii "a", nullable := nullable }, .int32)])

/-- A null struct, and a struct with a number or null. -/
def structColumn (nullable : Bool) (number : Option ℤ) : List ArrowArray :=
  [.struct [({ name := ascii "a", nullable := nullable }, .int32)] 2 0 (some [false, true])
    [.plain .int32 [.null, .ofTime number]]]

def structTable (nullable : Bool) (number : Option ℤ) : ArrowTable :=
  ⟨[structField nullable], [structColumn nullable number], 2⟩

/-- The field of the struct is NOT NULL. -/
def structSchema : ArrowSchema := { fields := [structField false] }

theorem structTable_valid (nullable : Bool) (number : Option ℤ) :
    (structTable nullable number).Valid := by
  intro column hcolumn chunk hchunk
  obtain rfl := List.mem_singleton.mp hcolumn
  obtain rfl := List.mem_singleton.mp hchunk
  exact ⟨trivial, rfl, le_rfl, trivial⟩

theorem conformToSchema_structTable (number : Option ℤ) :
    conformToSchema sampleLibrary (some (structTable true number)) structSchema {} =
      .ok (structTable false number) := rfl

theorem conformed_satisfies_sample : (structTable false (some 5)).Satisfies structSchema := by
  refine (conformed_satisfies_iff sampleLibrary sampleLibrary_documented (structTable true (some 5))
    _ (structTable_valid _ _) structSchema {} (conformToSchema_structTable _)).mpr ?_
  intro field hfield index hindex chunk hchunk i hi
  obtain rfl := List.mem_singleton.mp hfield
  obtain rfl : 0 = index := Option.some.inj hindex
  obtain rfl := List.mem_singleton.mp hchunk
  match i, hi with
  | 0, _ => exact conforms_null
  | 1, _ =>
    refine (conforms_struct Bool.false_ne_true).mpr ⟨?_, trivial⟩
    rintro _ _ _ _ ⟨⟩ ⟨⟩
    exact ⟨fun h ↦ (Bool.false_ne_true h).elim, trivial⟩

/-- A null below a column goes through. -/
theorem nested_null_written : (structTable true none).Valid ∧ sampleLibrary.Documented ∧
    conformToSchema sampleLibrary (some (structTable true none)) structSchema {} =
      .ok (structTable false none) ∧
    ¬(structTable false none).Satisfies structSchema := by
  refine ⟨structTable_valid _ _, sampleLibrary_documented, conformToSchema_structTable _, fun h ↦ ?_⟩
  obtain ⟨hchunks, -⟩ := List.forall₂_cons.mp h
  obtain ⟨-, hfields⟩ := hchunks _ List.mem_cons_self 1 Nat.one_lt_two
  obtain ⟨⟨hallowed, -⟩, -⟩ := hfields
  exact absurd (hallowed rfl) Bool.false_ne_true

end LakeVilla.Conform

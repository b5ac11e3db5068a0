import LakeVilla.Guarantees.SchemaRoundTrip
import LakeVilla.Schema.Readable
import LakeVilla.Tables.CreateTable

/-!
# The schema of a new table

A table is of no use if the schema in its version 0 is rejected by the reader. That is the case if
and only if some decimal of the Arrow schema, at any depth, has a scale that is negative or larger
than its precision.
-/

namespace LakeVilla.Tables

open ByteString TextLines
open Keys (Json JsonText cString cString_eq_self exact_string exact_bool exact_int exact_null
  exact_array exact_object)
open Schema (ArrowSchema ArrowType DeltaSchema FieldInfo toDeltaSchema fromDeltaSchema
  convertFields structObject FieldsScalesFit fieldsReadIff_of_convertFields toDeltaSchema_ok
  exact_structObject Except.bind_eq_ok)
open Sublog (newline)

/-! ## What is documented of rapidjson -/

/-- A document on a line: newlines are escaped as all control characters are, and there are at least
two characters. -/
structure OnLine (json : JsonText) (value : Json) : Prop extends json.Faithful value where
  newline_notMem : newline ∉ json.write value
  two_le : 2 ≤ (json.write value).length

/-- The documents of a new table: its schema, the lines of version 0, and the metadata of the
snapshot. -/
structure Documents (json : JsonText) (call : CallData) (schema : ArrowSchema)
    (options : TableOptions) : Prop where
  document : ∀ objects ntz, convertFields [] [] schema.fields = .ok (objects, ntz) →
    json.Faithful (structObject objects)
  lines : ∀ deltaSchema, toDeltaSchema json schema = .ok deltaSchema →
    ∀ d ∈ commitDocuments json call deltaSchema options, OnLine json d
  metadata : ∀ deltaSchema, toDeltaSchema json schema = .ok deltaSchema →
    json.Faithful (metaDataObject call deltaSchema options)

variable {json : JsonText} {settings : Settings} {answers : Answers} {call : CallData}
  {path base commit : ByteString} {schema : ArrowSchema} {deltaSchema : DeltaSchema}
  {options : TableOptions}

/-- A document without floating-point numbers is read back. -/
theorem parse_write {value : Json} (h : json.Faithful value) (hexact : value.Exact) :
    json.parse (json.write value) = some value := by
  obtain ⟨value', hparse, hreads⟩ := h.parse_write
  rw [hparse, hexact hreads]

/-! ## The documents have no floating-point numbers -/

theorem exact_propertiesObject (properties : List (ByteString × ByteString)) :
    (propertiesObject properties).Exact := by
  apply exact_object
  intro m hm
  obtain ⟨p, -, rfl⟩ := List.mem_map.mp hm
  exact exact_string _

theorem exact_commitInfoDocument : (commitInfoDocument json call options).Exact := by
  have hempty : (Json.object []).Exact := exact_object fun _ h ↦ absurd h List.not_mem_nil
  have hdescription : (if options.description = [] then Json.null
      else .string (cString options.description)).Exact := by
    split_ifs
    · exact exact_null
    · exact exact_string _
  have hparameters : (Json.object
      [(ascii "isManaged", .string (ascii "false")),
        (ascii "description",
          if options.description = [] then .null else .string (cString options.description)),
        (ascii "partitionBy", .string (ascii "[]")),
        (ascii "properties",
          .string (cString (json.write (propertiesObject options.properties))))]).Exact := by
    apply exact_object
    simp [hdescription, exact_string]
  apply exact_object
  simp only [List.mem_singleton, forall_eq]
  apply exact_object
  simp [hempty, hparameters, exact_string, exact_bool, exact_int]

theorem exact_metaDataObject : (metaDataObject call deltaSchema options).Exact := by
  have hempty : (Json.object []).Exact := exact_object fun _ h ↦ absurd h List.not_mem_nil
  have hcolumns : (Json.array []).Exact := exact_array fun _ h ↦ absurd h List.not_mem_nil
  have hformat : (Json.object
      [(ascii "provider", .string (ascii "parquet")), (ascii "options", .object [])]).Exact := by
    apply exact_object
    simp [hempty, exact_string]
  have hproperties := exact_propertiesObject options.properties
  apply exact_object
  split_ifs
  · simp [hcolumns, hformat, hproperties, exact_string, exact_int]
  · simp [hcolumns, hformat, hproperties, exact_string, exact_int]

theorem exact_metaDataDocument : (metaDataDocument call deltaSchema options).Exact := by
  apply exact_object
  simp [exact_metaDataObject]

theorem exact_protocolDocument : (protocolDocument deltaSchema).Exact := by
  have hfeatures :
      (Json.array (deltaSchema.features.map fun f ↦ .string (cString f))).Exact := by
    apply exact_array
    intro value hvalue
    obtain ⟨f, -, rfl⟩ := List.mem_map.mp hvalue
    exact exact_string _
  apply exact_object
  simp only [List.mem_singleton, forall_eq]
  apply exact_object
  split_ifs
  · simp [exact_int]
  · simp [exact_int, hfeatures]

/-! ## Version 0 -/

/-- The lines of version 0 are the texts of its documents. -/
theorem getLines_createTableCommit
    (h : ∀ d ∈ commitDocuments json call deltaSchema options, OnLine json d) :
    getLines newline (createTableCommit json call deltaSchema options) =
      (commitDocuments json call deltaSchema options).map json.write := by
  have hlines : (commitDocuments json call deltaSchema options).map
      (fun d ↦ cString (json.write d)) =
      (commitDocuments json call deltaSchema options).map json.write :=
    List.map_congr_left fun d hd ↦ cString_eq_self (h d hd).nul_not_mem
  rw [createTableCommit, hlines, getLines_unlines]
  intro line hline
  obtain ⟨d, hd, rfl⟩ := List.mem_map.mp hline
  exact (h d hd).newline_notMem

/-- The metadata of a snapshot that has a line more. -/
def nextMetadata (json : JsonText) (metadata : Option ByteString) (value : Json) :
    Option ByteString :=
  match value.member (ascii "metaData") with
  | some (.object members) => some (json.write (.object members))
  | _ => metadata

theorem logMetadata_eq {log : ByteString} {documents : List Json}
    (hlines : getLines newline log = documents.map json.write)
    (h : ∀ d ∈ documents, OnLine json d ∧ d.Exact) :
    logMetadata json log = documents.foldl (nextMetadata json) none := by
  rw [logMetadata, hlines, List.foldl_map]
  refine List.foldl_ext _ _ _ fun metadata d hd ↦ ?_
  obtain ⟨hline, hexact⟩ := h d hd
  have hlength : ¬(json.write d).length ≤ 1 := Nat.not_le.mpr hline.two_le
  rw [if_neg hlength, cString_eq_self hline.nul_not_mem, parse_write hline.toFaithful hexact]
  rfl

/-- **The metadata of a new table are read from its log.** -/
theorem logMetadata_createTableCommit
    (h : ∀ d ∈ commitDocuments json call deltaSchema options, OnLine json d) :
    logMetadata json (createTableCommit json call deltaSchema options) =
      some (json.write (metaDataObject call deltaSchema options)) := by
  rw [logMetadata_eq (getLines_createTableCommit h) fun d hd ↦ ⟨h d hd, ?_⟩]
  · rfl
  · simp only [commitDocuments, List.mem_cons, List.not_mem_nil, or_false] at hd
    rcases hd with rfl | rfl | rfl
    · exact exact_commitInfoDocument
    · exact exact_metaDataDocument
    · exact exact_protocolDocument

theorem member_schemaString : (metaDataObject call deltaSchema options).member
    (ascii "schemaString") = some (.string (cString deltaSchema.schemaString)) := by
  unfold metaDataObject
  split_ifs
  · rfl
  · rfl

theorem schemaString_metaDataObject
    (h : json.Faithful (metaDataObject call deltaSchema options))
    (hnul : 0 ∉ deltaSchema.schemaString) :
    schemaString json (json.write (metaDataObject call deltaSchema options)) =
      some deltaSchema.schemaString := by
  unfold schemaString
  rw [parse_write h exact_metaDataObject, Option.bind_some, member_schemaString]
  simp only [cString_eq_self hnul]

/-! ## Reading the schema -/

theorem zero_notMem_schemaString (h : toDeltaSchema json schema = .ok deltaSchema) :
    0 ∉ deltaSchema.schemaString := by
  obtain ⟨-, objects, ntz, -, hstring, -⟩ := toDeltaSchema_ok h
  rw [hstring]
  exact Schema.zero_notMem_cString _

/-- **An accepted schema is read again if and only if its scales fit.** -/
theorem fromDeltaSchema_iff (h : toDeltaSchema json schema = .ok deltaSchema)
    (hjson : ∀ objects ntz, convertFields [] [] schema.fields = .ok (objects, ntz) →
      json.Faithful (structObject objects)) :
    (∃ s, fromDeltaSchema json deltaSchema.schemaString = .ok s) ↔
      FieldsScalesFit schema.fields := by
  obtain ⟨-, objects, ntz, hfields, hstring, -⟩ := toDeltaSchema_ok h
  have hfaithful := hjson objects ntz hfields
  have hread : Schema.FieldsReadIff json objects (FieldsScalesFit schema.fields) :=
    fieldsReadIff_of_convertFields schema.fields hfields
  rw [← hread.parse [], hstring, cString_eq_self hfaithful.nul_not_mem, fromDeltaSchema,
    parse_write hfaithful (exact_structObject hread.exact)]
  constructor
  · rintro ⟨s, hs⟩
    obtain ⟨fields, hfields, -⟩ := Except.bind_eq_ok.mp hs
    exact ⟨fields, hfields⟩
  · rintro ⟨fields, hfields⟩
    exact ⟨{ fields := fields }, Except.bind_eq_ok.mpr ⟨fields, hfields, rfl⟩⟩

/-- Nothing else of the metadata is rejected. -/
theorem tableSchema_iff {metadata text : ByteString}
    (h : schemaString json metadata = some text) :
    (∃ t, tableSchema json metadata = .ok t) ↔ ∃ s, fromDeltaSchema json text = .ok s := by
  obtain ⟨document, hdocument⟩ : ∃ document, json.parse metadata = some document := by
    cases hparse : json.parse metadata with
    | none =>
      rw [schemaString, hparse] at h
      cases h
    | some document => exact ⟨document, rfl⟩
  rw [tableSchema, h, hdocument]
  constructor
  · rintro ⟨t, ht⟩
    obtain ⟨s, hs, -⟩ := Except.bind_eq_ok.mp ht
    exact ⟨s, hs⟩
  · rintro ⟨s, hs⟩
    exact ⟨_, Except.bind_eq_ok.mpr ⟨s, hs, rfl⟩⟩

/-! ## `create_table` -/

theorem prepare_ok (h : prepare json settings answers call path schema options =
    .ok (base, commit)) : tablePrefix path = some base ∧ ∃ deltaSchema,
      toDeltaSchema json schema = .ok deltaSchema ∧
        commit = createTableCommit json call deltaSchema options := by
  unfold prepare at h
  cases hpath : tablePrefix path with
  | none => simp [hpath] at h
  | some base' =>
    cases hschema : toDeltaSchema json schema with
    | error e => simp [hpath, hschema] at h
    | ok deltaSchema =>
      cases hproperties : checkProperties [] options.properties with
      | error e => simp [hpath, hschema, hproperties] at h
      | ok u =>
        simp only [hpath, hschema, hproperties] at h
        obtain ⟨-, -, h⟩ := Except.bind_eq_ok.mp h
        obtain ⟨-, -, h⟩ := Except.bind_eq_ok.mp h
        cases h
        exact ⟨rfl, deltaSchema, rfl, rfl⟩

/-- An attempt was made by a call that returns `Ok`. -/
theorem attempts_pos {uncertain : Bool} {attempt n : ℕ}
    (h : (writeVersion0 answers base commit uncertain attempt n).1 = .ok ()) :
    0 < (writeVersion0 answers base commit uncertain attempt n).2 := by
  cases n with
  | zero => cases h
  | succ n =>
    unfold writeVersion0
    cases answers.writeAtomic attempt with
    | ok => exact Nat.one_pos
    | alreadyExists =>
      dsimp only
      split_ifs
      · exact Nat.one_pos
      · exact Nat.one_pos
    | preconditionFailed | error => exact Nat.succ_pos _

/-- A call that returns `Ok` has written version 0, always with the same content. -/
theorem createTable_ok
    (h : (createTable json settings answers call path schema options).result = .ok) :
    ∃ base deltaSchema, tablePrefix path = some base ∧
      toDeltaSchema json schema = .ok deltaSchema ∧
      (createTable json settings answers call path schema options).writes ≠ [] ∧
      ∀ w ∈ (createTable json settings answers call path schema options).writes,
        w = (version0 base, createTableCommit json call deltaSchema options) := by
  unfold createTable at h ⊢
  cases hprepare : prepare json settings answers call path schema options with
  | error e =>
    rw [hprepare] at h
    exact absurd h e.ne_ok
  | ok p =>
    obtain ⟨base, commit⟩ := p
    obtain ⟨hpath, deltaSchema, hschema, rfl⟩ := prepare_ok hprepare
    refine ⟨base, deltaSchema, hpath, hschema, ?_⟩
    simp only [hprepare] at h ⊢
    split at h
    · next hok =>
      have hpos := attempts_pos hok
      exact ⟨fun hnil ↦ hpos.ne' ((List.replicate_eq_nil_iff _).mp hnil), fun w hw ↦
        List.eq_of_mem_replicate hw⟩
    · next e _ => exact absurd h e.ne_ok

/-- **The schema of a new table is read if and only if its scales fit.** -/
theorem new_table_readable_iff (json : JsonText) (settings : Settings) (answers : Answers)
    (call : CallData) (path : ByteString) (schema : ArrowSchema) (options : TableOptions)
    (h : (createTable json settings answers call path schema options).result = .ok)
    (hjson : Documents json call schema options) :
    ∃ base commit metadata text,
      tablePrefix path = some base ∧
      (createTable json settings answers call path schema options).writes ≠ [] ∧
      (∀ w ∈ (createTable json settings answers call path schema options).writes,
        w = (version0 base, commit)) ∧
      logMetadata json commit = some metadata ∧ schemaString json metadata = some text ∧
      ((∃ s, fromDeltaSchema json text = .ok s) ↔ FieldsScalesFit schema.fields) ∧
      ((∃ t, tableSchema json metadata = .ok t) ↔ FieldsScalesFit schema.fields) := by
  obtain ⟨base, deltaSchema, hpath, hschema, hne, hwrites⟩ := createTable_ok h
  have htext := schemaString_metaDataObject (hjson.metadata deltaSchema hschema)
    (zero_notMem_schemaString hschema)
  have hread := fromDeltaSchema_iff hschema hjson.document
  exact ⟨base, _, _, _, hpath, hne, hwrites,
    logMetadata_createTableCommit (hjson.lines deltaSchema hschema), htext, hread,
    (tableSchema_iff htext).trans hread⟩

/-! ## A table with a price -/

/-- The text of a string without control characters -/
def quoted (s : ByteString) : ByteString :=
  ascii "\"" ++ ((s.flatMap fun c ↦ if c = 34 ∨ c = 92 then [92, c] else [c]) ++ ascii "\"")

mutual

/-- rapidjson's writer, for documents without floating-point numbers and control characters. -/
def writeJson : Json → ByteString
  | .null | .double _ => ascii "null"
  | .bool b => if b then ascii "true" else ascii "false"
  | .int n => toText n
  | .string s => quoted s
  | .array items => ascii "[" ++ (writeItems items ++ ascii "]")
  | .object members => ascii "\x7b" ++ (writeMembers members ++ ascii "\x7d")

def writeItems : List Json → ByteString
  | [] => []
  | [value] => writeJson value
  | value :: items => writeJson value ++ (ascii "," ++ writeItems items)

def writeMembers : List (ByteString × Json) → ByteString
  | [] => []
  | [(name, value)] => quoted name ++ (ascii ":" ++ writeJson value)
  | (name, value) :: members =>
    quoted name ++ (ascii ":" ++ (writeJson value ++ (ascii "," ++ writeMembers members)))

end

/-- A reader of the texts of some documents -/
def readJson (documents : List Json) (text : ByteString) : Option Json :=
  documents.find? fun d ↦ writeJson d = text

def priceSchema (price : Schema.Decimal128) : ArrowSchema where
  fields := [({ name := ascii "price" }, .decimal128 price)]

def sampleCall : CallData := ⟨1700000000000, ascii "5f1c2d", ascii "9a3e4b"⟩

/-- The schema string of the table -/
def priceDelta (price : Schema.Decimal128) : DeltaSchema where
  schemaString := cString (writeJson (structObject
    [Schema.fieldObject { name := ascii "price" } (.string (Schema.decimalName price))]))
  features := []

/-- The documents of the table -/
def priceDocuments (price : Schema.Decimal128) : List Json :=
  [structObject
      [Schema.fieldObject { name := ascii "price" } (.string (Schema.decimalName price))],
    commitInfoDocument ⟨writeJson, fun _ ↦ none⟩ sampleCall {},
    metaDataDocument sampleCall (priceDelta price) {}, protocolDocument (priceDelta price),
    metaDataObject sampleCall (priceDelta price) {}]

def priceJson (price : Schema.Decimal128) : JsonText where
  write := writeJson
  parse := readJson (priceDocuments price)

/-- An empty location, without a global log. -/
def sampleAnswers : Answers where
  objects := some []
  globalLog := false
  locked := false
  update := ⟨false, none, fun _ ↦ false⟩
  writeAtomic _ := .ok
  read2 _ := none

def createPrice (price : Schema.Decimal128) : Outcome :=
  createTable (priceJson price) ⟨ascii "global.log", 3, by decide⟩ sampleAnswers sampleCall
    (ascii "wh/db.db/sales") (priceSchema price) {}

theorem convertFields_priceSchema (price : Schema.Decimal128) :
    convertFields [] [] (priceSchema price).fields =
      .ok ([Schema.fieldObject { name := ascii "price" } (.string (Schema.decimalName price))],
        false) := by
  have hprice : Schema.convertType (ascii "price") (.decimal128 price) =
      .ok (.string (Schema.decimalName price), false) := by
    rw [Schema.convertType, if_neg (Nat.not_lt.mpr price.le_max)]
  have hname : Schema.checkName [] [] (ascii "price") = .ok () := rfl
  rw [priceSchema, convertFields, hname]
  exact Except.bind_eq_ok.mpr ⟨(), rfl, Except.bind_eq_ok.mpr ⟨_, hprice, rfl⟩⟩

theorem toDeltaSchema_priceSchema (price : Schema.Decimal128) :
    toDeltaSchema (priceJson price) (priceSchema price) = .ok (priceDelta price) := by
  have hne : ¬(priceSchema price).fields.isEmpty = true := Bool.false_ne_true
  rw [toDeltaSchema, if_neg hne, convertFields_priceSchema]
  rfl

theorem readJson_writeJson {documents : List Json} (h : (documents.map writeJson).Nodup)
    {d : Json} (hd : d ∈ documents) : readJson documents (writeJson d) = some d := by
  induction documents with
  | nil => cases hd
  | cons e documents ih =>
    obtain ⟨hnot, h⟩ := List.nodup_cons.mp h
    unfold readJson
    rcases List.mem_cons.mp hd with rfl | hd
    · exact List.find?_cons_of_pos (decide_eq_true rfl)
    · have hne : writeJson e ≠ writeJson d := fun heq ↦
        hnot (heq ▸ List.mem_map_of_mem hd)
      rw [List.find?_cons_of_neg (by simpa using hne)]
      exact ih h hd

/-- The texts of the documents can be told apart and stand on a line. -/
def Readable (documents : List Json) : Prop :=
  (documents.map writeJson).Nodup ∧
    ∀ text ∈ documents.map writeJson, 0 ∉ text ∧ newline ∉ text ∧ 2 ≤ text.length

instance (documents : List Json) : Decidable (Readable documents) :=
  inferInstanceAs (Decidable (_ ∧ _))

theorem documents_priceSchema {price : Schema.Decimal128} (h : Readable (priceDocuments price)) :
    Documents (priceJson price) sampleCall (priceSchema price) {} := by
  have hline : ∀ d ∈ priceDocuments price, OnLine (priceJson price) d := by
    intro d hd
    obtain ⟨hnul, hnewline, hlength⟩ := h.2 _ (List.mem_map_of_mem hd)
    exact {
      parse_write := ⟨d, readJson_writeJson h.1 hd, .refl d⟩
      nul_not_mem := hnul
      write_ne_nil := List.length_pos_iff.mp (Nat.lt_of_lt_of_le Nat.two_pos hlength)
      newline_notMem := hnewline
      two_le := hlength }
  refine ⟨fun objects ntz hfields ↦ ?_, fun deltaSchema hschema d hd ↦ ?_,
    fun deltaSchema hschema ↦ ?_⟩
  · rw [convertFields_priceSchema] at hfields
    cases hfields
    exact (hline _ List.mem_cons_self).toFaithful
  · rw [toDeltaSchema_priceSchema] at hschema
    cases hschema
    refine hline d (List.mem_cons_of_mem _ ?_)
    exact List.mem_append_left [metaDataObject sampleCall (priceDelta price) {}] hd
  · rw [toDeltaSchema_priceSchema] at hschema
    cases hschema
    exact (hline _ (by simp [priceDocuments])).toFaithful

theorem createPrice_eq (price : Schema.Decimal128) : createPrice price =
    { result := .ok
      writes := [(version0 (ascii "wh/db.db/sales/"),
        createTableCommit (priceJson price) sampleCall (priceDelta price) {})] } := by
  have hprepare : prepare (priceJson price) ⟨ascii "global.log", 3, by decide⟩ sampleAnswers sampleCall
      (ascii "wh/db.db/sales") (priceSchema price) {} =
      .ok (ascii "wh/db.db/sales/",
        createTableCommit (priceJson price) sampleCall (priceDelta price) {}) := by
    have hpath : tablePrefix (ascii "wh/db.db/sales") = some (ascii "wh/db.db/sales/") := rfl
    unfold prepare
    simp only [hpath, toDeltaSchema_priceSchema]
    rfl
  rw [createPrice, createTable, hprepare]
  rfl

/-- Ten digits with a scale -/
def price (scale : ℤ) : Schema.Decimal128 :=
  ⟨10, scale, Schema.Decimal128.one_le_ten, Schema.Decimal128.ten_le_max⟩

theorem new_table_readable_sample : (createPrice (price 2)).writes ≠ [] ∧
    ∀ w ∈ (createPrice (price 2)).writes, ∃ metadata text,
      logMetadata (priceJson (price 2)) w.2 = some metadata ∧
      schemaString (priceJson (price 2)) metadata = some text ∧
      ∃ s, fromDeltaSchema (priceJson (price 2)) text = .ok s := by
  have hfits : FieldsScalesFit (priceSchema (price 2)).fields :=
    ⟨⟨by decide, by decide⟩, trivial⟩
  obtain ⟨base, commit, metadata, text, -, hne, hwrites, hmetadata, htext, hread, -⟩ :=
    new_table_readable_iff (priceJson (price 2)) ⟨ascii "global.log", 3, by decide⟩ sampleAnswers sampleCall
      (ascii "wh/db.db/sales") (priceSchema (price 2)) {}
      (congrArg Outcome.result (createPrice_eq (price 2)))
      (documents_priceSchema (by decide +kernel))
  refine ⟨hne, fun w hw ↦ ⟨metadata, text, ?_, htext, hread.mpr hfits⟩⟩
  rw [hwrites w hw]
  exact hmetadata

/-- A negative scale is written to the log, and no one can read it. -/
theorem negative_scale_unreadable : (createPrice (price (-2))).result = .ok ∧
    Documents (priceJson (price (-2))) sampleCall (priceSchema (price (-2))) {} ∧
    ∃ commit metadata text,
      (createPrice (price (-2))).writes = [(version0 (ascii "wh/db.db/sales/"), commit)] ∧
      logMetadata (priceJson (price (-2))) commit = some metadata ∧
      schemaString (priceJson (price (-2))) metadata = some text ∧
      ¬∃ s, fromDeltaSchema (priceJson (price (-2))) text = .ok s := by
  have hdocuments : Documents (priceJson (price (-2))) sampleCall (priceSchema (price (-2))) {} :=
    documents_priceSchema (by decide +kernel)
  have hschema := toDeltaSchema_priceSchema (price (-2))
  refine ⟨by rw [createPrice_eq], hdocuments, _, _, _, by rw [createPrice_eq],
    logMetadata_createTableCommit (hdocuments.lines _ hschema),
    schemaString_metaDataObject (hdocuments.metadata _ hschema)
      (zero_notMem_schemaString hschema), fun hread ↦ ?_⟩
  obtain ⟨⟨hscale, -⟩, -⟩ := (fromDeltaSchema_iff hschema hdocuments.document).mp hread
  exact absurd hscale (by decide)

end LakeVilla.Tables

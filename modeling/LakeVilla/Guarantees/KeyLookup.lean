import LakeVilla.Guarantees.OwnStatistics
import LakeVilla.Keys.Lookup

/-!
# Key lookup finds exactly the rows of the key

The classification never drops a file with a row of the key, and the files that are read contribute
exactly the key's rows. An exact file has one row; that this row has the key follows from the
statistics only if it is not null, and the classification does not look at `nullCount`.
-/

namespace LakeVilla.Keys

open ByteString

variable {σ ρ : Type} {arrow : Arrow σ} {c : KeyColumn} {key : ByteString}
  {read : ByteString → Option (DataTable σ ρ)} {content : ByteString → DataTable σ ρ}
  {tbl : TableStats}

/-- The rows in a list of found files. -/
def foundRows (files : List (KeyFile σ ρ)) : List (Row σ ρ) :=
  ((keyRows files).map (·.rows)).getD []

/-- The lookup of a key is complete and exact. -/
structure LookupCorrect (arrow : Arrow σ) (c : KeyColumn) (key : ByteString)
    (read : ByteString → Option (DataTable σ ρ)) (content : ByteString → DataTable σ ρ)
    (tbl : TableStats) : Prop where
  /-- no file with a row of the key is dropped -/
  complete : ∀ path e, tbl.deltaLog.Live path e →
    (∃ r ∈ (content (tbl.deltaLog.basePath ++ path)).rows, r.HasKey arrow c key) →
    ∃ found, (tbl.deltaLog.basePath ++ path, found) ∈ tbl.candidates arrow c key
  /-- an exact file has a single row, of the key -/
  exact : ∀ path, (path, .exact) ∈ tbl.candidates arrow c key →
    ∃ r, (content path).rows = [r] ∧ r.HasKey arrow c key
  /-- the rows of the key, when exact files are read with the others -/
  rows : ∀ files, findKeyFiles arrow read tbl key true none = some files →
    foundRows files = (tbl.deltaLog.liveRows content).filter (·.HasKey arrow c key)
  /-- the rows of the key, when exact files are read later -/
  laterRows : ∀ files files', findKeyFiles arrow read tbl key false none = some files →
    readKeyFiles read files = some files' →
    foundRows files' = (tbl.deltaLog.liveRows content).filter (·.HasKey arrow c key)

theorem mem_candidates_iff {path : ByteString} {found : KeyMatch} :
    (path, found) ∈ tbl.candidates arrow c key ↔ ∃ p e, tbl.deltaLog.Live p e ∧
      tbl.deltaLog.basePath ++ p = path ∧ classifyEntry arrow c key e = found ∧ found ≠ .none := by
  rw [TableStats.candidates, findFiles_classify, List.mem_filterMap]
  constructor
  · rintro ⟨⟨p, e⟩, hmem, h⟩
    split_ifs at h with hfound
    obtain ⟨rfl, rfl⟩ := Prod.mk.inj (Option.some.inj h)
    exact ⟨p, e, ⟨hmem, hfound.1⟩, rfl, rfl, hfound.2⟩
  · rintro ⟨p, e, ⟨hmem, hadd⟩, rfl, rfl, hne⟩
    exact ⟨(p, e), hmem, if_pos ⟨hadd, hne⟩⟩

/-! ## The rows of one file -/

section File

variable {data : DataTable σ ρ} {e : DeltaLogEntry} {path : ByteString}
  {created : List (ByteString × FileStats)}

theorem keyFileOf_rows {m : KeyMatcher σ} {readExact : Bool} {found : KeyMatch}
    (h : ¬(found = .exact ∧ readExact = false)) :
    (keyFileOf arrow m readExact path found data).toList.flatMap KeyFile.keyRows =
      data.rows.filter (·.matches arrow m) := by
  rw [← selectRows_rowsOf, keyFileOf, if_neg h]
  dsimp only
  split
  · next hempty =>
    have hlen := rowsOf_length arrow m data
    rw [List.isEmpty_iff.mp hempty, List.length_nil] at hlen
    rw [selectRows_rowsOf, List.eq_nil_of_length_eq_zero hlen.symm]
    rfl
  · exact List.append_nil _

/-- The found file of an entry contributes the rows of the key if it was read. -/
theorem keyFileAt_rows {readExact : Bool} (h : e.operation = .add → ValidFile arrow c data e)
    (hread : ¬(classifyEntry arrow c key e = .exact ∧ readExact = false)) :
    (keyFileAt arrow c key readExact created none path data e).toList.flatMap KeyFile.keyRows =
      (if e.operation = .add then data.rows else []).filter (·.HasKey arrow c key) := by
  unfold keyFileAt
  by_cases hadd : e.operation = .add
  · have hvalid := h hadd
    rw [if_pos hadd]
    by_cases hnone : classifyEntry arrow c key e = .none
    · rw [if_neg fun h ↦ h.2.2 hnone, hvalid.filter_hasKey hnone]
      rfl
    · rw [if_pos ⟨hadd, rfl, hnone⟩, keyFileOf_rows hread, hvalid.filter_matches hnone]
  · rw [if_neg hadd, if_neg fun h ↦ hadd h.1]
    rfl

/-- The file as it is after `read_key_files`. -/
def KeyFile.whole (content : ByteString → DataTable σ ρ) (f : KeyFile σ ρ) : KeyFile σ ρ :=
  match f.data with
  | some _ => f
  | none => { f with data := some (content f.path), rows := List.range (content f.path).numRows }

theorem readKeyFiles_eq (hread : ∀ path, ∀ data ∈ read path, data = content path)
    {files files' : List (KeyFile σ ρ)} (h : readKeyFiles read files = some files') :
    files' = files.map (KeyFile.whole content) := by
  unfold readKeyFiles at h
  induction files generalizing files' with
  | nil =>
    obtain rfl := Option.some.inj h
    rfl
  | cons f files ih =>
    rw [List.mapM_cons] at h
    obtain ⟨f', hf, h⟩ := Option.bind_eq_some_iff.mp h
    obtain ⟨rest, hrest, h⟩ := Option.bind_eq_some_iff.mp h
    obtain rfl := Option.some.inj h
    have hhead : f' = f.whole content := by
      unfold KeyFile.whole
      cases hdata : f.data with
      | some data =>
        rw [hdata] at hf
        exact (Option.some.inj hf).symm
      | none =>
        rw [hdata] at hf
        obtain ⟨data, hdata', rfl⟩ := Option.map_eq_some_iff.mp hf
        rw [hread _ data hdata']
    rw [List.map_cons, ← ih hrest, ← hhead]

theorem KeyFile.whole_keyFileAt {readExact : Bool}
    (hread : ¬(classifyEntry arrow c key e = .exact ∧ readExact = false)) {f : KeyFile σ ρ}
    (hf : f ∈ (keyFileAt arrow c key readExact created none path data e).toList) :
    f.whole content = f := by
  rw [Option.mem_toList, keyFileAt] at hf
  split at hf
  · rw [keyFileOf, if_neg hread] at hf
    dsimp only at hf
    split at hf
    · cases hf
    · obtain rfl := Option.some.inj hf
      rfl
  · cases hf

/-- Unless a null is shown as the key, this is so as well if exact files are read later. -/
theorem keyFileAt_whole_rows (h : e.operation = .add → ValidFile arrow c (content path) e)
    (hnull : e.operation = .add → ¬NullShownAsKey arrow c key (content path) e) :
    (keyFileAt arrow c key false created none path (content path) e).toList.flatMap
        (fun f ↦ (f.whole content).keyRows) =
      (if e.operation = .add then (content path).rows else []).filter (·.HasKey arrow c key) := by
  by_cases hexact : e.operation = .add ∧ classifyEntry arrow c key e = .exact
  · obtain ⟨hadd, hexact⟩ := hexact
    obtain ⟨r, hr, hkey⟩ := (h hadd).hasKey_of_exact hexact (hnull hadd)
    have hfile : keyFileAt arrow c key false created none path (content path) e =
        some { path := path, exact := true } := by
      rw [keyFileAt, if_pos ⟨hadd, rfl, by simp [hexact]⟩, keyFileOf, if_pos ⟨hexact, rfl⟩]
    have hall : selectRows (content path) (List.range (content path).numRows) = content path :=
      if_pos List.length_range
    rw [hfile, if_pos hadd, hr, List.filter_singleton, decide_eq_true hkey, cond_true]
    simp only [Option.toList_some, List.flatMap_singleton, KeyFile.whole, KeyFile.keyRows]
    rw [hall, hr]
  · by_cases hadd : e.operation = .add
    · have hread : ¬(classifyEntry arrow c key e = .exact ∧ false = false) := fun h ↦
        hexact ⟨hadd, h.1⟩
      refine Eq.trans (List.flatMap_congr fun f hf ↦ ?_) (keyFileAt_rows h hread)
      rw [KeyFile.whole_keyFileAt hread hf]
    · rw [keyFileAt, if_neg fun h ↦ hadd h.1, if_neg hadd]
      rfl

end File

/-! ## All files -/

theorem liveRows_filter (p : Row σ ρ → Bool) (log : DeltaLogManager) :
    (log.liveRows content).filter p = log.files.flatMap fun e ↦
      (if e.2.operation = .add then (content (log.basePath ++ e.1)).rows else []).filter p :=
  List.filter_flatMap

/-- **Key lookup** is complete and exact, unless a live file shows its only row, a null, as the
key. -/
theorem lookup_correct_iff (hcol : tbl.firstColumn = some c)
    (hread : ∀ path, ∀ data ∈ read path, data = content path)
    (hvalid : tbl.Valid arrow c content) :
    LookupCorrect arrow c key read content tbl ↔ ∀ path e, tbl.deltaLog.Live path e →
      ¬NullShownAsKey arrow c key (content (tbl.deltaLog.basePath ++ path)) e := by
  constructor
  · intro h path e hlive hnull
    obtain ⟨⟨r, hr, hk⟩, hexact⟩ := nullShownAsKey_iff.mp hnull
    have hmem : (tbl.deltaLog.basePath ++ path, .exact) ∈ tbl.candidates arrow c key :=
      mem_candidates_iff.mpr ⟨path, e, hlive, rfl, hexact, fun h ↦ nomatch h⟩
    obtain ⟨r', hr', v, hv, -⟩ := h.exact _ hmem
    obtain rfl := List.singleton_inj.mp (hr.symm.trans hr')
    cases hk.symm.trans hv
  · intro hnull
    have hfile : ∀ e ∈ tbl.deltaLog.files, e.2.operation = .add →
        ValidFile arrow c (content (tbl.deltaLog.basePath ++ e.1)) e.2 := fun e he hadd ↦
      hvalid e.1 e.2 ⟨he, hadd⟩
    refine ⟨?_, ?_, ?_, ?_⟩
    · rintro path e hlive ⟨r, hr, hkey⟩
      have hfound := (hvalid path e hlive).classify_ne_none hr hkey
      exact ⟨_, mem_candidates_iff.mpr ⟨path, e, hlive, rfl, rfl, hfound⟩⟩
    · intro path hmem
      obtain ⟨p, e, hlive, rfl, hexact, -⟩ := mem_candidates_iff.mp hmem
      exact (hvalid p e hlive).hasKey_of_exact hexact (hnull p e hlive)
    · intro files hfiles
      rw [foundRows, keyRows_rows, findKeyFiles_eq hcol hread hfiles, liveRows_filter,
        List.filterMap_eq_flatMap_toList, List.flatMap_assoc]
      exact List.flatMap_congr fun e he ↦ keyFileAt_rows (hfile e he) (by simp)
    · intro files files' hfiles hfiles'
      rw [foundRows, keyRows_rows, readKeyFiles_eq hread hfiles', List.flatMap_map,
        findKeyFiles_eq hcol hread hfiles, liveRows_filter, List.filterMap_eq_flatMap_toList,
        List.flatMap_assoc]
      exact List.flatMap_congr fun e he ↦ keyFileAt_whole_rows (hfile e he) fun hadd ↦
        hnull e.1 e.2 ⟨he, hadd⟩

/-! ## Tables with one file -/

/-- The table `b/` with the column `k` and the file `f`, whose statistics show the key `a` as
minimum and maximum. -/
def oneFileTable (numRecords : ℤ) : TableStats where
  deltaLog :=
    { basePath := ascii "b/"
      files := [(ascii "f",
        { operation := .add, min := [ascii "a"], max := [ascii "a"], minColumns := [ascii "k"],
          maxColumns := [ascii "k"], numRecords := numRecords })]
      nodup := List.nodup_singleton _ }
  schema := .ok (some { fields := [{ name := ascii "k", type := .string }] })

/-- Data files with the given keys, in a table without other columns. -/
def keyTable (keys : List (Option ByteString)) : DataTable Unit Unit :=
  ⟨[keys.map fun key ↦ ⟨key.map .text, ()⟩]⟩

/-- The column `k` -/
def sampleColumn : KeyColumn := { type := .string, column := ascii "k" }

theorem of_mem_values {keys : List (Option ByteString)} {v : Scalar Unit}
    (hv : v ∈ (keyTable keys).values) : ∃ k, some k ∈ keys ∧ v = .text k := by
  obtain ⟨r, hr, hv⟩ := List.mem_filterMap.mp hv
  simp only [keyTable, DataTable.rows, List.flatten_singleton, List.mem_map] at hr
  obtain ⟨key, hkey, rfl⟩ := hr
  obtain ⟨k, rfl, rfl⟩ := Option.map_eq_some_iff.mp hv
  exact ⟨k, hkey, rfl⟩

theorem oneFileTable_valid {numRecords : ℤ} {keys : List (Option ByteString)}
    (hnum : numRecords = keys.length) (hkeys : ∀ k, some k ∈ keys → k = ascii "a") :
    (oneFileTable numRecords).Valid sampleArrow sampleColumn fun _ ↦ keyTable keys := by
  rintro path e ⟨hmem, -⟩
  obtain ⟨rfl, rfl⟩ := Prod.mk.inj (List.mem_singleton.mp hmem)
  have hvalues : ∀ v ∈ (keyTable keys).values, v = .text (ascii "a") := by
    intro v hv
    obtain ⟨k, hk, rfl⟩ := of_mem_values hv
    rw [hkeys k hk]
  have htext : ∀ s, .text s ∈ (keyTable keys).values → s = ascii "a" := fun s hs ↦
    Scalar.text.inj (hvalues _ hs)
  refine ⟨fun v hv ↦ hvalues v hv ▸ trivial, fun _ ↦ ?_, ?_, ?_⟩
  · simp [hnum, keyTable, DataTable.numRows, DataTable.rows]
  · rintro name t hmem -
    obtain ⟨-, rfl⟩ := Prod.mk.inj (List.mem_singleton.mp hmem)
    exact fun s hs ↦ (htext s hs).ge
  · rintro name t hmem -
    obtain ⟨-, rfl⟩ := Prod.mk.inj (List.mem_singleton.mp hmem)
    exact .inl fun s hs ↦ (htext s hs).le

/-- A file with a row of the key and a null. -/
theorem lookup_correct_sample :
    LookupCorrect sampleArrow sampleColumn (ascii "a")
      (fun _ ↦ some (keyTable [some (ascii "a"), none]))
      (fun _ ↦ keyTable [some (ascii "a"), none]) (oneFileTable 2) := by
  refine (lookup_correct_iff rfl (fun _ data h ↦ (Option.some.inj h).symm)
    (oneFileTable_valid rfl (by simp))).mpr ?_
  rintro path e ⟨hmem, -⟩ ⟨-, hnum, -⟩
  obtain ⟨rfl, rfl⟩ := Prod.mk.inj (List.mem_singleton.mp hmem)
  cases hnum

/-- The only row of a file is null, and its minimum and maximum, which bound no value, are the key:
the file is reported exact. -/
theorem null_row_reported_exact :
    (oneFileTable 1).firstColumn = some sampleColumn ∧
      (oneFileTable 1).Valid sampleArrow sampleColumn (fun _ ↦ keyTable [none]) ∧
      ¬LookupCorrect sampleArrow sampleColumn (ascii "a") (fun _ ↦ some (keyTable [none]))
        (fun _ ↦ keyTable [none]) (oneFileTable 1) := by
  refine ⟨rfl, oneFileTable_valid rfl (by simp), fun h ↦ ?_⟩
  obtain ⟨r, hr, v, hv, -⟩ := h.exact (ascii "b/f") (by decide +kernel)
  obtain rfl := List.singleton_inj.mp hr
  cases hv

end LakeVilla.Keys

import LakeVilla.Conform.ConformToSchema
import LakeVilla.Schema.Stored

/-!
# Nulls of converted arrays

`Conforms` says of a value of the source where its nulls may stand, so that the converted value has
no null where the target type does not allow one. The conversion of an array neither adds nulls nor
takes them away, except for fields that the source does not have.
-/

namespace LakeVilla.Conform

open ByteString
open Schema (ArrowType FieldInfo Except.bind_eq_ok)
open ArrowArray (ChildrenValid childValues)

/-! ## Values that Arrow casts -/

mutual

/-- The value has no null where the type does not allow one; fields of structs are matched by
name. -/
def CastSatisfies : ArrowType → Value → Prop
  | .list f t, .list values | .largeList f t, .list values =>
    ∀ v ∈ values, Allowed f v ∧ CastSatisfies t v
  | .map keyField keys itemField items _, .list entries => ∀ e ∈ entries,
    match e with
    | .struct [(_, k), (_, v)] =>
      (Allowed keyField k ∧ CastSatisfies keys k) ∧ Allowed itemField v ∧ CastSatisfies items v
    | _ => True
  | .struct fields, .struct values => FieldsCastSatisfied fields values
  | _, _ => True

def FieldsCastSatisfied : List (FieldInfo × ArrowType) → List (ByteString × Value) → Prop
  | [], _ => True
  | (f, t) :: fields, values =>
    (match values.lookup f.name with
      | some v => Allowed f v ∧ CastSatisfies t v
      | none => f.nullable = true) ∧ FieldsCastSatisfied fields values

end

theorem castSatisfies_null (t : ArrowType) : CastSatisfies t .null := by
  cases t <;> simp [CastSatisfies]

theorem allowed_congr {f : FieldInfo} {v w : Value} (h : w.isNull = v.isNull) :
    Allowed f w ↔ Allowed f v := by
  rw [Allowed, Allowed, h]

theorem forall₂_forall_congr {α β : Type} {r : α → β → Prop} {p : α → Prop} {q : β → Prop}
    {xs : List α} {ys : List β} (h : List.Forall₂ r xs ys)
    (hpq : ∀ x y, r x y → (q y ↔ p x)) : (∀ y ∈ ys, q y) ↔ ∀ x ∈ xs, p x := by
  induction h with
  | nil => simp
  | @cons x y xs ys hxy _ ih => rw [List.forall_mem_cons, List.forall_mem_cons, hpq x y hxy, ih]

mutual

/-- What `Cast` makes of a value satisfies the type if and only if the value did. -/
theorem satisfies_of_keeps (t : ArrowType) {v w : Value} (h : Keeps t v w) :
    w.isNull = v.isNull ∧ (Satisfies t w ↔ CastSatisfies t v) := by
  cases t with
  | list f t | largeList f t =>
    rw [Keeps] at h
    rcases h with ⟨rfl, rfl⟩ | ⟨vs, ws, rfl, rfl, h⟩
    · exact ⟨rfl, iff_of_true (satisfies_null _) (castSatisfies_null _)⟩
    · refine ⟨rfl, ?_⟩
      rw [Satisfies, CastSatisfies]
      refine forall₂_forall_congr h fun v w hvw ↦ ?_
      obtain ⟨hnull, hiff⟩ := satisfies_of_keeps t hvw
      exact and_congr (allowed_congr hnull) hiff
  | map keyField keys itemField items keysSorted =>
    rw [Keeps] at h
    rcases h with ⟨rfl, rfl⟩ | ⟨vs, ws, rfl, rfl, h⟩
    · exact ⟨rfl, iff_of_true (satisfies_null _) (castSatisfies_null _)⟩
    · refine ⟨rfl, ?_⟩
      rw [Satisfies, CastSatisfies]
      refine forall₂_forall_congr h fun e e' he ↦ ?_
      rcases he with ⟨rfl, rfl⟩ | ⟨kn, k, xn, x, kn', k', xn', x', rfl, rfl, hk, hx⟩
      · exact Iff.rfl
      · obtain ⟨hknull, hkeys⟩ := satisfies_of_keeps keys hk
        obtain ⟨hxnull, hitems⟩ := satisfies_of_keeps items hx
        exact and_congr (and_congr (allowed_congr hknull) hkeys)
          (and_congr (allowed_congr hxnull) hitems)
  | struct fields =>
    rw [Keeps] at h
    rcases h with ⟨rfl, rfl⟩ | ⟨vs, ws, rfl, rfl, h⟩
    · exact ⟨rfl, iff_of_true (satisfies_null _) (castSatisfies_null _)⟩
    · refine ⟨rfl, ?_⟩
      rw [Satisfies, CastSatisfies]
      exact fieldsSatisfied_of_fieldsKept fields h
  | _ =>
    simp only [Keeps] at h
    exact ⟨h.symm, by simp [Satisfies, CastSatisfies]⟩

theorem fieldsSatisfied_of_fieldsKept (fields : List (FieldInfo × ArrowType))
    {vs ws : List (ByteString × Value)} (h : FieldsKept fields vs ws) :
    FieldsSatisfied fields ws ↔ FieldsCastSatisfied fields vs := by
  cases fields with
  | nil => simp [FieldsSatisfied, FieldsCastSatisfied]
  | cons field fields =>
    obtain ⟨f, t⟩ := field
    rw [FieldsKept] at h
    obtain ⟨w, ws', rfl, hw, h⟩ := h
    rw [FieldsSatisfied, FieldsCastSatisfied]
    refine and_congr ?_ (fieldsSatisfied_of_fieldsKept fields h)
    cases hlookup : vs.lookup f.name with
    | none =>
      rw [hlookup] at hw
      dsimp only at hw ⊢
      rw [hw]
      simp [Allowed, satisfies_null, Value.isNull]
    | some v =>
      rw [hlookup] at hw
      obtain ⟨hnull, hiff⟩ := satisfies_of_keeps t hw
      exact and_congr (allowed_congr hnull) hiff

end

/-! ## Values of the source -/

mutual

/-- The value of a source of type `s` has no null where `t` does not allow one. -/
def Conforms (A : Library) (physicalNames : Bool) (t s : ArrowType) (v : Value) : Prop :=
  if A.equals s t then Satisfies t v
  else
    match t with
    | .struct fields =>
      match s, v with
      | .struct sourceFields, .struct values =>
        FieldsConform A physicalNames sourceFields values fields
      | _, _ => CastSatisfies (.struct fields) v
    | .list f t =>
      match s, v with
      | .list _ s, .list values | .largeList _ s, .list values =>
        ∀ v ∈ values, Allowed f v ∧ Conforms A physicalNames t s v
      | _, _ => CastSatisfies (.list f t) v
    | .map keyField keys itemField items keysSorted =>
      match s, v with
      | .map _ sourceKeys _ sourceItems _, .list entries => ∀ e ∈ entries,
        match e with
        | .struct [(_, k), (_, v)] =>
          (Allowed keyField k ∧ Conforms A physicalNames keys sourceKeys k) ∧
            Allowed itemField v ∧ Conforms A physicalNames items sourceItems v
        | _ => True
      | _, _ => CastSatisfies (.map keyField keys itemField items keysSorted) v
    | t => CastSatisfies t v

/-- A field without a value in the source is null. -/
def FieldsConform (A : Library) (physicalNames : Bool)
    (sourceFields : List (FieldInfo × ArrowType)) (values : List (ByteString × Value)) :
    List (FieldInfo × ArrowType) → Prop
  | [] => True
  | (f, t) :: fields =>
    (match findField sourceFields (fileName f physicalNames) with
      | none => f.nullable = true
      | some i => ∀ g s n v, sourceFields[i]? = some (g, s) → values[i]? = some (n, v) →
        Allowed f v ∧ Conforms A physicalNames t s v) ∧
      FieldsConform A physicalNames sourceFields values fields

end

variable {A : Library} {physicalNames : Bool} {context : ByteString} {t s : ArrowType}
  {source a : ArrowArray}

theorem conforms_null : Conforms A physicalNames t s .null := by
  unfold Conforms
  split_ifs
  · exact satisfies_null t
  · cases t <;> cases s <;> exact castSatisfies_null _

theorem conforms_of_equals {v : Value} (h : A.equals s t = true) :
    Conforms A physicalNames t s v ↔ Satisfies t v := by
  unfold Conforms
  rw [if_pos h]

/-! ## Arrays -/

/-- The converted array has its nulls where the source has them, and satisfies the type wherever the
source has a value with the property. -/
structure Converts (t : ArrowType) (p : Value → Prop) (source a : ArrowArray) : Prop where
  length : a.length = source.length
  isNull : ∀ i < source.length, (a.value i).isNull = (source.value i).isNull
  satisfies : ∀ i < source.length, Satisfies t (a.value i) ↔ p (source.value i)

namespace Converts

variable {p q : Value → Prop}

theorem congr (h : Converts t p source a)
    (hpq : ∀ i < source.length, p (source.value i) ↔ q (source.value i)) :
    Converts t q source a :=
  ⟨h.length, h.isNull, fun i hi ↦ (h.satisfies i hi).trans (hpq i hi)⟩

theorem refl (source : ArrowArray) : Converts t (Satisfies t) source source :=
  ⟨rfl, fun _ _ ↦ rfl, fun _ _ ↦ Iff.rfl⟩

/-- A value that the field may hold is converted to one. -/
theorem allowed_and (h : Converts t p source a) {i : ℕ} (hi : i < source.length) (f : FieldInfo) :
    Allowed f (a.value i) ∧ Satisfies t (a.value i) ↔
      Allowed f (source.value i) ∧ p (source.value i) :=
  and_congr (allowed_congr (h.isNull i hi)) (h.satisfies i hi)

end Converts

theorem Library.Documented.castSafe (hA : A.Documented) (hvalid : source.Valid)
    (h : castSafe A context t source = .ok a) : Converts t (CastSatisfies t) source a := by
  unfold Conform.castSafe at h
  split at h
  · next a' hcast =>
    obtain rfl := Except.ok.inj h
    obtain ⟨hlength, hkeeps⟩ := hA.cast hvalid hcast
    exact ⟨hlength, fun i hi ↦ (satisfies_of_keeps t (hkeeps i hi)).1,
      fun i hi ↦ (satisfies_of_keeps t (hkeeps i hi)).2⟩
  · cases h

/-- An array of nulls becomes an array of nulls. -/
theorem Library.Documented.ofNulls (hA : A.Documented) {p : Value → Prop} (hp : p .null)
    (hnull : ∀ i < source.length, source.value i = .null)
    (h : A.makeArrayOfNull t source.length = .ok a) : Converts t p source a := by
  obtain ⟨hlength, hvalue⟩ := hA.makeArrayOfNull h
  refine ⟨hlength, fun i hi ↦ ?_, fun i hi ↦ ?_⟩
  · rw [hvalue i hi, hnull i hi]
  · rw [hvalue i hi, hnull i hi]
    exact iff_of_true (satisfies_null t) hp

theorem value_of_type_null (hvalid : source.Valid) (htype : source.type = .null) (i : ℕ) :
    source.value i = .null := by
  cases source with
  | plain type values =>
    obtain rfl : type = .null := htype
    rw [ArrowArray.value, List.getD_eq_getElem?_getD]
    cases hi : values[i]? with
    | none => rfl
    | some v => exact hvalid v (List.mem_of_getElem? hi)
  | struct => cases htype
  | list type length offset validity offsets child =>
    obtain rfl : type = .null := htype
    obtain ⟨-, helement, -⟩ := hvalid
    cases helement

/-! ### Timestamps -/

theorem convertValue_isNone {fromRate toRate : ℤ} {value value' : Option ℤ}
    (h : convertValue fromRate toRate context value = .ok value') :
    value'.isNone = value.isNone := by
  cases value with
  | none =>
    cases h
    rfl
  | some n =>
    change some <$> convertTimestamp fromRate toRate context n = .ok value' at h
    cases hn : convertTimestamp fromRate toRate context n with
    | error e =>
      rw [hn] at h
      cases h
    | ok n' =>
      rw [hn] at h
      cases h
      rfl

/-- Exactly the timestamps that were null are null. -/
theorem convertTimestamps_isNone {unit unit' : Schema.TimeUnit} {times times' : List (Option ℤ)}
    (h : convertTimestamps unit unit' context times = .ok times') :
    List.Forall₂ (fun x y ↦ y.isNone = x.isNone) times times' := by
  unfold convertTimestamps at h
  split_ifs at h
  · cases h
    exact List.forall₂_same.mpr fun _ _ ↦ rfl
  · exact (Keys.mapM_ok h).imp fun _ _ hxy ↦ convertValue_isNone hxy

theorem isNull_ofTime (time : Option ℤ) : (Value.ofTime time).isNull = time.isNone := by
  cases time <;> rfl

/-- A timestamp is null if it is no number. -/
theorem isNone_time {v : Value} (h : v = .null ∨ ∃ n, v = .scalar (.int n)) :
    v.time.isNone = v.isNull := by
  obtain rfl | ⟨n, rfl⟩ := h
  · rfl
  · rfl

theorem Library.Documented.timestamps (hA : A.Documented) (hvalid : source.Valid)
    {unit : Schema.TimeUnit} {timezone : ByteString}
    (h : conformTimestamps A context unit timezone source = .ok a) :
    Converts (.timestamp unit timezone) (CastSatisfies (.timestamp unit timezone)) source a := by
  unfold conformTimestamps at h
  split at h
  · next unit' timezone' values =>
    obtain ⟨times, htimes, hok⟩ := Except.bind_eq_ok.mp h
    cases hok
    have hnull := List.forall₂_iff_get.mp (convertTimestamps_isNone htimes)
    obtain ⟨hlength, hnull⟩ := hnull
    rw [List.length_map] at hlength
    refine ⟨by simp [ArrowArray.length, hlength], fun i hi ↦ ?_, fun i hi ↦ ?_⟩
    · have hi : i < values.length := hi
      have hi' : i < times.length := hlength ▸ hi
      have hvalue := hvalid (values[i]) (List.getElem_mem hi)
      have hnone := hnull i (by simpa using hi) hi'
      rw [List.get_eq_getElem, List.get_eq_getElem, List.getElem_map, isNone_time hvalue] at hnone
      simpa [ArrowArray.value, hi, hi', isNull_ofTime] using hnone
    · simp [Satisfies, CastSatisfies]
  · exact hA.castSafe hvalid h

/-! ### Structs -/

/-- What is known of a child of a struct. -/
theorem child_of_childrenValid {fields : List (FieldInfo × ArrowType)} {n : ℕ}
    {children : List ArrowArray} (h : ChildrenValid fields n children) {i : ℕ}
    {child : ArrowArray} (hchild : children[i]? = some child) :
    child.Valid ∧ n ≤ child.length ∧ ∃ g, fields[i]? = some (g, child.type) ∧
      ∀ k, (childValues fields children k)[i]? = some (g.name, child.value k) := by
  induction fields generalizing children i with
  | nil =>
    cases children with
    | nil => cases hchild
    | cons => exact h.elim
  | cons field fields ih =>
    obtain ⟨g, t⟩ := field
    cases children with
    | nil => exact h.elim
    | cons c children =>
      obtain ⟨hvalid, htype, hlength, h⟩ := h
      cases i with
      | zero =>
        cases hchild
        exact ⟨hvalid, hlength, g, by rw [htype]; rfl, fun _ ↦ rfl⟩
      | succ i => exact ih h hchild

theorem le_childLength {fields : List (FieldInfo × ArrowType)} {length offset : ℕ}
    {children : List ArrowArray} (h : ChildrenValid fields (offset + length) children) :
    offset + length ≤ childLength length offset children := by
  cases children with
  | nil => exact le_rfl
  | cons child children =>
    cases fields with
    | nil => exact h.elim
    | cons field fields => exact h.2.2.1

theorem structChild_ok {length : ℕ} {children : List ArrowArray}
    {convert : ArrowArray → Except Fault ArrowArray} {i : ℕ}
    (h : structChild A t length children convert (some i) = .ok a) :
    ∃ child, children[i]? = some child ∧ convert child = .ok a := by
  unfold structChild at h
  dsimp only at h
  split at h
  · next child hchild => exact ⟨child, hchild, h⟩
  · cases h

/-! ### Arrays by their type -/

theorem eq_struct_of_type (hvalid : source.Valid) {fields : List (FieldInfo × ArrowType)}
    (htype : source.type = .struct fields) : ∃ length offset validity children,
      source = .struct fields length offset validity children := by
  cases source with
  | plain type values =>
    obtain rfl : type = .struct fields := htype
    exact hvalid.elim
  | struct sourceFields length offset validity children =>
    obtain rfl := ArrowType.struct.inj htype
    exact ⟨length, offset, validity, children, rfl⟩
  | list type length offset validity offsets child =>
    obtain rfl : type = .struct fields := htype
    exact nomatch hvalid.2.1

theorem eq_list_of_type (hvalid : source.Valid)
    (helement : ArrowArray.elementType source.type = some s) :
    ∃ length offset validity offsets child,
      source = .list source.type length offset validity offsets child := by
  cases source with
  | plain type values =>
    cases type with
    | list | largeList | map => exact hvalid.elim
    | _ => cases helement
  | struct => cases helement
  | list type length offset validity offsets child => exact ⟨_, _, _, _, _, rfl⟩

/-- The entries of a map are structs of two fields. -/
theorem eq_map_of_type (hvalid : source.Valid) {keyField itemField : FieldInfo}
    {keys items : ArrowType} {keysSorted : Bool}
    (htype : source.type = .map keyField keys itemField items keysSorted) :
    ∃ length offset validity offsets entries entriesOffset entriesValidity key item,
      source = .list (.map keyField keys itemField items keysSorted) length offset validity offsets
        (.struct [(keyField, keys), (itemField, items)] entries entriesOffset entriesValidity
          [key, item]) := by
  have helement : ArrowArray.elementType source.type =
      some (.struct [(keyField, keys), (itemField, items)]) := by
    rw [htype]
    rfl
  obtain ⟨length, offset, validity, offsets, child, hsource⟩ := eq_list_of_type hvalid helement
  rw [htype] at hsource
  subst hsource
  obtain ⟨hchild, hchildType, -⟩ := hvalid
  obtain ⟨entries, entriesOffset, entriesValidity, children, rfl⟩ :=
    eq_struct_of_type hchild (Option.some.inj hchildType).symm
  match children, hchild with
  | [key, item], _ => exact ⟨_, _, _, _, _, _, _, key, item, rfl⟩
  | [], hchild | [_], hchild => exact nomatch hchild
  | _ :: _ :: _ :: _, hchild => exact nomatch hchild.2.2.2.2.2.2

/-- The list that is converted has the values of the source. -/
theorem Library.Documented.asList (hA : A.Documented) (hvalid : source.Valid)
    (h : asList A context source = some (.ok a)) :
    a.Valid ∧ a.length = source.length ∧ (∀ i < source.length, a.value i = source.value i) ∧
      ∃ f s, a.type = .list f s ∧ (source.type = .list f s ∨ source.type = .largeList f s) := by
  unfold Conform.asList at h
  split at h
  · next f s htype =>
    obtain rfl := Except.ok.inj (Option.some.inj h)
    exact ⟨hvalid, rfl, fun _ _ ↦ rfl, f, s, htype, .inl htype⟩
  · next f s htype =>
    have hcast : A.cast source (.list f s) = .ok a := by
      cases hcast : A.cast source (.list f s) with
      | error e =>
        rw [hcast] at h
        cases h
      | ok b =>
        rw [hcast] at h
        obtain rfl := Except.ok.inj (Option.some.inj h)
        rfl
    have helement : ArrowArray.elementType source.type = some s := by
      rw [htype]
      rfl
    obtain ⟨length, offset, validity, offsets, child, hsource⟩ := eq_list_of_type hvalid helement
    rw [htype] at hsource
    subst hsource
    obtain ⟨hvalid', htype', hlength, hvalue⟩ := hA.narrow hvalid hcast
    exact ⟨hvalid', hlength, hvalue, f, s, htype', .inr rfl⟩
  · cases h

theorem asList_eq_none (h : asList A context source = none) :
    (∀ f s, source.type ≠ .list f s) ∧ ∀ f s, source.type ≠ .largeList f s := by
  unfold Conform.asList at h
  split at h
  · cases h
  · cases h
  · next hlist hlarge => exact ⟨hlist, hlarge⟩

/-! ### `Conforms` by the types -/

theorem conforms_struct {fields sourceFields : List (FieldInfo × ArrowType)}
    {values : List (ByteString × Value)}
    (h : ¬A.equals (.struct sourceFields) (.struct fields) = true) :
    Conforms A physicalNames (.struct fields) (.struct sourceFields) (.struct values) ↔
      FieldsConform A physicalNames sourceFields values fields := by
  unfold Conforms
  rw [if_neg h]

theorem conforms_list {f : FieldInfo} {e : ArrowType} {values : List Value}
    (h : ¬A.equals s (.list f t) = true)
    (hs : (∃ g, s = .list g e) ∨ ∃ g, s = .largeList g e) :
    Conforms A physicalNames (.list f t) s (.list values) ↔
      ∀ v ∈ values, Allowed f v ∧ Conforms A physicalNames t e v := by
  conv_lhs => unfold Conforms; rw [if_neg h]
  obtain ⟨g, rfl⟩ | ⟨g, rfl⟩ := hs
  · exact Iff.rfl
  · exact Iff.rfl

theorem conforms_map {keyField itemField keyField' itemField' : FieldInfo}
    {keys items keys' items' : ArrowType} {keysSorted keysSorted' : Bool} {entries : List Value}
    (h : ¬A.equals (.map keyField' keys' itemField' items' keysSorted')
      (.map keyField keys itemField items keysSorted) = true) :
    Conforms A physicalNames (.map keyField keys itemField items keysSorted)
        (.map keyField' keys' itemField' items' keysSorted') (.list entries) ↔
      ∀ e ∈ entries,
        match e with
        | .struct [(_, k), (_, v)] =>
          (Allowed keyField k ∧ Conforms A physicalNames keys keys' k) ∧
            Allowed itemField v ∧ Conforms A physicalNames items items' v
        | _ => True := by
  conv_lhs => unfold Conforms; rw [if_neg h]

/-- A source that is not taken apart is cast. -/
theorem conforms_cast {v : Value} (h : ¬A.equals s t = true)
    (hstruct : ∀ fields sourceFields, t = .struct fields → s ≠ .struct sourceFields)
    (hlist : ∀ f e g e', t = .list f e → s ≠ .list g e' ∧ s ≠ .largeList g e')
    (hmap : ∀ f k g x b f' k' g' x' b', t = .map f k g x b → s ≠ .map f' k' g' x' b') :
    Conforms A physicalNames t s v ↔ CastSatisfies t v := by
  unfold Conforms
  rw [if_neg h]
  cases t with
  | struct fields =>
    dsimp only
    split
    · next sourceFields _ => exact absurd rfl (hstruct fields sourceFields rfl)
    · exact Iff.rfl
  | list f e =>
    dsimp only
    split
    · next g e' _ => exact absurd rfl (hlist f e g e' rfl).1
    · next g e' _ => exact absurd rfl (hlist f e g e' rfl).2
    · exact Iff.rfl
  | map f k g x b =>
    dsimp only
    split
    · next f' k' g' x' b' _ => exact absurd rfl (hmap f k g x b f' k' g' x' b' rfl)
    · exact Iff.rfl
  | _ => exact Iff.rfl

/-! ### The conversion -/

/-- Between two offsets the converted elements may be null where the elements of the source may. -/
theorem Converts.elements {p : Value → Prop} {child values : ArrowArray}
    (h : Converts t p child values) (f : FieldInfo) {lo hi : ℕ} (hhi : hi ≤ child.length) :
    (∀ v ∈ (List.range' lo (hi - lo)).map fun j ↦ values.value j,
        Allowed f v ∧ Satisfies t v) ↔
      ∀ v ∈ (List.range' lo (hi - lo)).map fun j ↦ child.value j, Allowed f v ∧ p v := by
  simp only [List.forall_mem_map]
  refine forall₂_congr fun j hj ↦ h.allowed_and ?_ f
  obtain ⟨hlo, hlt⟩ := List.mem_range'_1.mp hj
  omega

mutual

/-- **The conversion keeps the nulls of the source.** -/
theorem converts_conformArray (hA : A.Documented) (type : ArrowType) {context : ByteString}
    {source a : ArrowArray} (hvalid : source.Valid)
    (h : conformArray A physicalNames context type source = .ok a) :
    Converts type (Conforms A physicalNames type source.type) source a := by
  unfold conformArray at h
  split_ifs at h with hequals hnull
  · obtain rfl := Except.ok.inj h
    exact (Converts.refl source).congr fun _ _ ↦ (conforms_of_equals hequals).symm
  · have htype : source.type = .null := by
      cases hs : source.type with
      | null => rfl
      | _ => simp [hs] at hnull
    exact hA.ofNulls conforms_null (fun i _ ↦ value_of_type_null hvalid htype i) h
  · cases type with
    | timestamp unit timezone =>
      refine (hA.timestamps hvalid h).congr fun i _ ↦ (conforms_cast hequals ?_ ?_ ?_).symm
      all_goals intros; contradiction
    | struct fields =>
      dsimp only at h
      split at h
      · next sourceFields length offset validity children =>
        obtain ⟨converted, hconverted, hok⟩ := Except.bind_eq_ok.mp h
        cases hok
        refine ⟨rfl, fun i hi ↦ ?_, fun i hi ↦ ?_⟩
        · simp only [ArrowArray.value]
          split_ifs
          · rfl
          · rfl
        · simp only [ArrowArray.value]
          split_ifs
          · have hi : offset + i < offset + length := Nat.add_lt_add_left hi offset
            rw [Satisfies]
            exact (fieldsSatisfied_conformFields hA fields hvalid (le_childLength hvalid) hconverted
              hi).trans (conforms_struct hequals).symm
          · exact iff_of_true (satisfies_null _) conforms_null
      · next hsource =>
        refine (hA.castSafe hvalid h).congr fun i _ ↦ (conforms_cast hequals ?_ ?_ ?_).symm
        · intro _ sourceFields _ htype
          obtain ⟨length, offset, validity, children, rfl⟩ := eq_struct_of_type hvalid htype
          exact hsource _ _ _ _ _ rfl
        · intros; contradiction
        · intros; contradiction
    | list f t =>
      dsimp only at h
      split at h
      · next result hresult =>
        obtain ⟨b, hb, h⟩ := Except.bind_eq_ok.mp h
        obtain ⟨hb, hlength, hvalue, g, e, hbtype, htype⟩ := hA.asList hvalid (hb ▸ hresult)
        split at h
        · next type' length offset validity offsets child _ =>
          obtain ⟨values, hvalues, hok⟩ := Except.bind_eq_ok.mp h
          cases hok
          obtain rfl : type' = .list g e := hbtype
          have hlength : length = source.length := hlength
          obtain ⟨hchild, helement, hoffsets⟩ := hb
          have hconverts := converts_conformArray hA t hchild hvalues
          rw [← Option.some.inj helement] at hconverts
          refine ⟨hlength, fun i hi ↦ ?_, fun i hi ↦ ?_⟩
          · rw [← hvalue i hi]
            simp only [ArrowArray.value]
            split_ifs
            · rfl
            · rfl
          · rw [← hvalue i hi]
            simp only [ArrowArray.value]
            split_ifs
            · rw [Satisfies, conforms_list hequals (htype.imp (⟨g, ·⟩) (⟨g, ·⟩))]
              exact hconverts.elements f (hoffsets i (hlength ▸ hi))
            · exact iff_of_true (satisfies_null _) conforms_null
        · cases h
      · next hnone =>
        obtain ⟨hlist, hlarge⟩ := asList_eq_none hnone
        refine (hA.castSafe hvalid h).congr fun i _ ↦ (conforms_cast hequals ?_ ?_ ?_).symm
        · intros; contradiction
        · exact fun _ _ _ _ _ ↦ ⟨hlist _ _, hlarge _ _⟩
        · intros; contradiction
    | map keyField keys itemField items keysSorted =>
      dsimp only at h
      split at h
      · next length offset validity offsets sourceFields entries entriesOffset entriesValidity
          children =>
        obtain ⟨_, _, _, _, _, _, _, sourceKey, sourceItem, heq⟩ := eq_map_of_type hvalid rfl
        cases heq
        obtain ⟨key, hkey, h⟩ := Except.bind_eq_ok.mp h
        obtain ⟨item, hitem, hok⟩ := Except.bind_eq_ok.mp h
        cases hok
        obtain ⟨⟨hkeyValid, rfl, hkeyLength, hitemValid, rfl, hitemLength, -⟩, -, hoffsets⟩ := hvalid
        obtain ⟨_, ⟨⟩, hkey⟩ := structChild_ok (i := 0) hkey
        obtain ⟨_, ⟨⟩, hitem⟩ := structChild_ok (i := 1) hitem
        have hkeys := converts_conformArray hA keys hkeyValid hkey
        have hitems := converts_conformArray hA items hitemValid hitem
        refine ⟨rfl, fun i hi ↦ ?_, fun i hi ↦ ?_⟩
        · simp only [ArrowArray.value]
          split_ifs
          · rfl
          · rfl
        · have hoffset := hoffsets i hi
          simp only [ArrowArray.value, ArrowArray.type_list]
          split_ifs
          · rw [Satisfies, conforms_map hequals]
            simp only [List.forall_mem_map]
            refine forall₂_congr fun j hj ↦ ?_
            have hj : entriesOffset + j < entriesOffset + entries := by
              obtain ⟨hlo, hlt⟩ := List.mem_range'_1.mp hj
              change offsets.getD _ 0 ≤ entries at hoffset
              omega
            split_ifs
            · exact and_congr (hkeys.allowed_and (Nat.lt_of_lt_of_le hj hkeyLength) keyField)
                (hitems.allowed_and (Nat.lt_of_lt_of_le hj hitemLength) itemField)
            · exact Iff.rfl
          · exact iff_of_true (satisfies_null _) conforms_null
      · next hsource =>
        refine (hA.castSafe hvalid h).congr fun i _ ↦ (conforms_cast hequals ?_ ?_ ?_).symm
        · intros; contradiction
        · intros; contradiction
        · intro _ _ _ _ _ f' k' g' x' b' _ htype
          obtain ⟨length, offset, validity, offsets, entries, entriesOffset, entriesValidity, key,
            item, rfl⟩ := eq_map_of_type hvalid htype
          exact hsource _ _ _ _ _ _ _ _ _ _ _ _ _ _ rfl
    | _ =>
      refine (hA.castSafe hvalid h).congr fun i _ ↦ (conforms_cast hequals ?_ ?_ ?_).symm
      all_goals intros; contradiction

theorem fieldsSatisfied_conformFields (hA : A.Documented) (fields : List (FieldInfo × ArrowType))
    {context : ByteString} {sourceFields : List (FieldInfo × ArrowType)} {n length : ℕ}
    {children converted : List ArrowArray} (hvalid : ChildrenValid sourceFields n children)
    (hlength : n ≤ length)
    (h : conformFields A physicalNames context sourceFields length children fields = .ok converted)
    {k : ℕ} (hk : k < n) :
    FieldsSatisfied fields (childValues fields converted k) ↔
      FieldsConform A physicalNames sourceFields (childValues sourceFields children k) fields := by
  cases fields with
  | nil =>
    cases h
    simp [FieldsSatisfied, FieldsConform]
  | cons field fields =>
    obtain ⟨f, t⟩ := field
    rw [conformFields] at h
    obtain ⟨child, hchild, h⟩ := Except.bind_eq_ok.mp h
    obtain ⟨rest, hrest, hok⟩ := Except.bind_eq_ok.mp h
    cases hok
    rw [ArrowArray.childValues, FieldsSatisfied, FieldsConform]
    refine and_congr ?_ (fieldsSatisfied_conformFields hA fields hvalid hlength hrest hk)
    cases hindex : findField sourceFields (fileName f physicalNames) with
    | none =>
      rw [hindex] at hchild
      obtain ⟨-, hnull⟩ := hA.makeArrayOfNull hchild
      rw [hnull k (Nat.lt_of_lt_of_le hk hlength)]
      simp [Allowed, satisfies_null]
    | some i =>
      rw [hindex] at hchild
      obtain ⟨source, hsource, hconvert⟩ := structChild_ok hchild
      obtain ⟨hsourceValid, hn, g, hg, hvalue⟩ := child_of_childrenValid hvalid hsource
      have hconverts := converts_conformArray hA t hsourceValid hconvert
      rw [hconverts.allowed_and (Nat.lt_of_lt_of_le hk hn) f]
      dsimp only
      rw [hg, hvalue k]
      constructor
      · rintro h _ _ _ _ ⟨⟩ ⟨⟩
        exact h
      · exact fun h ↦ h _ _ _ _ rfl rfl

end

end LakeVilla.Conform

import LakeVilla.Checkpoint.NewestCheckpoint

/-!
# The newest complete checkpoint

Parts are counted and not collected, and their number is kept in 32 bits. The count is right for
files of the log directory with a number of parts that fits; it is wrong for a larger number, which
counts for the rest modulo `2 ^ 32`, and for files of a log directory within the log directory. A
name with a version that does not fit 64 bits throws.
-/

namespace LakeVilla.Checkpoint

open ByteString DeltaLog

/-! ## The counts -/

/-- The rest of a list from the last element with a property, all of it if there is none. -/
def fromLast {α : Type} (p : α → Bool) : List α → List α
  | [] => []
  | a :: l => if l.any p then fromLast p l else a :: l

theorem fromLast_of_any {α : Type} {p : α → Bool} {l : List α} (h : l.any p = false) :
    fromLast p l = l := by
  cases l with
  | nil => rfl
  | cons a l =>
    rw [List.any_cons, Bool.or_eq_false_iff] at h
    rw [fromLast, if_neg (Bool.not_eq_true _ ▸ h.2)]

theorem fromLast_append {α : Type} (p : α → Bool) (l : List α) (a : α) :
    fromLast p (l ++ [a]) = if p a then [a] else fromLast p l ++ [a] := by
  induction l with
  | nil =>
    rw [List.nil_append, fromLast_of_any (l := [])]
    · split_ifs <;> rfl
    · rfl
  | cons b l ih =>
    rw [List.cons_append, fromLast, fromLast, ih, List.any_append, List.any_cons, List.any_nil,
      Bool.or_false]
    by_cases ha : p a = true
    · simp [ha]
    · by_cases hl : l.any p = true
      · simp [ha, hl]
      · simp [ha, hl]

/-- The single file of a version -/
def isSingle (version : ℕ) (key : ByteString) : Bool := named key = some (version, .single)

/-- A name counts for the checkpoint of a version with a number of parts, which is compared in 32
bits. -/
def countsFor (version parts : ℕ) (key : ByteString) : Bool :=
  match named key with
  | some (w, .single) => w = version ∧ parts = 1
  | some (w, .part _ n) => w = version ∧ n % 2 ^ 32 = parts
  | none => false

/-- The names that count. The single file starts the count of one part anew. -/
def counted (keys : List ByteString) (version parts : ℕ) : ℕ :=
  (if parts = 1 then fromLast (isSingle version) keys else keys).countP (countsFor version parts)

/-- As many names count as there are parts, in 32 bits. -/
def FullCount (keys : List ByteString) (version parts : ℕ) : Prop :=
  0 < counted keys version parts ∧ counted keys version parts % 2 ^ 32 = parts

instance (keys : List ByteString) (version parts : ℕ) : Decidable (FullCount keys version parts) :=
  inferInstanceAs (Decidable (_ ∧ _))

theorem counted_append (keys : List ByteString) (key : ByteString) (version parts : ℕ) :
    counted (keys ++ [key]) version parts =
      if parts = 1 ∧ isSingle version key then 1
      else counted keys version parts + if countsFor version parts key then 1 else 0 := by
  unfold counted
  by_cases hparts : parts = 1
  · subst hparts
    rw [if_pos rfl, if_pos rfl, fromLast_append]
    by_cases hs : isSingle version key = true
    · have hname : named key = some (version, .single) := of_decide_eq_true hs
      have hcounts : countsFor version 1 key = true := by simp [countsFor, hname]
      simp [hs, hcounts]
    · rw [if_neg hs, List.countP_append]
      simp [hs, List.countP_cons]
  · rw [if_neg hparts, if_neg hparts, if_neg (fun h ↦ hparts h.1), List.countP_append]
    simp [List.countP_cons]

/-- What `found` says for a version and a number of parts -/
def entry (n : ℕ) : Option ℕ := if n = 0 then none else some (n % 2 ^ 32)

theorem entry_succ (n : ℕ) : some (((entry n).getD 0 + 1) % 2 ^ 32) = entry (n + 1) := by
  unfold entry
  rw [if_neg (Nat.succ_ne_zero n)]
  split_ifs with h
  · rw [h]
    rfl
  · rw [Option.getD_some, Nat.mod_add_mod]

/-- The step of the loop, as a change of the counts. -/
theorem lookup_countFile {found : Found} {keys : List ByteString} {key : ByteString}
    {version : ℕ} {file : CheckpointFile} {v m : ℕ} (hname : named key = some (version, file))
    (h : found.lookup ⟨v, m⟩ = entry (counted keys v m)) :
    (countFile found version file).lookup ⟨v, m⟩ = entry (counted (keys ++ [key]) v m) := by
  rw [counted_append]
  cases file with
  | single =>
    have hsingle : isSingle v key = true ↔ v = version := by
      simp [isSingle, hname, eq_comm]
    have hcounts : countsFor v m key = true ↔ v = version ∧ m = 1 := by
      rw [countsFor, hname]
      exact decide_eq_true_iff.trans (and_congr_left' eq_comm)
    rw [countFile, AssocList.lookup_insertOrAssign]
    simp only [VersionParts.mk.injEq, hsingle]
    by_cases hv : v = version ∧ m = 1
    · rw [if_pos hv, if_pos hv.symm]
      rfl
    · rw [if_neg hv, if_neg fun h ↦ hv h.symm, if_neg (mt hcounts.mp hv), Nat.add_zero, h]
  | part i n =>
    have hsingle : ¬isSingle v key = true := by simp [isSingle, hname]
    have hcounts : countsFor v m key = true ↔ v = version ∧ m = n % 2 ^ 32 := by
      rw [countsFor, hname]
      exact decide_eq_true_iff.trans (and_congr eq_comm eq_comm)
    rw [countFile, AssocList.lookup_insertOrAssign]
    simp only [VersionParts.mk.injEq, hsingle, Bool.false_eq_true, and_false, if_false]
    by_cases hv : v = version ∧ m = n % 2 ^ 32
    · rw [if_pos hv, if_pos (hcounts.mpr hv), ← hv.1, ← hv.2, h]
      exact entry_succ _
    · rw [if_neg hv, if_neg (mt hcounts.mp hv), Nat.add_zero, h]

theorem counted_append_of_ne {keys : List ByteString} {key : ByteString} {v : ℕ}
    (hname : ∀ file, named key ≠ some (v, file)) (m : ℕ) :
    counted (keys ++ [key]) v m = counted keys v m := by
  have hsingle : ¬isSingle v key = true := fun h ↦ hname _ (of_decide_eq_true h)
  have hcounts : ¬countsFor v m key = true := by
    intro h
    unfold countsFor at h
    cases hkey : named key with
    | none =>
      rw [hkey] at h
      cases h
    | some e =>
      obtain ⟨w, file⟩ := e
      rw [hkey] at h
      have hw : w = v := by
        cases file with
        | single => exact (of_decide_eq_true h).1
        | part _ _ => exact (of_decide_eq_true h).1
      exact hname file (hw ▸ hkey)
  rw [counted_append, if_neg fun h ↦ hsingle h.2, if_neg hcounts, Nat.add_zero]

theorem nodup_countFile {found : Found} (h : (found.map (·.1)).Nodup) (version : ℕ)
    (file : CheckpointFile) : ((countFile found version file).map (·.1)).Nodup := by
  cases file with
  | single => exact AssocList.nodup_insertOrAssign h _ _
  | part i n => exact AssocList.nodup_insertOrAssign h _ _

/-- The loop counts the names of every version up to the maximum. -/
theorem foldlM_countObject {keys : List ByteString} (hkeys : ∀ key ∈ keys, ¬TooLarge key)
    (maxVersion : ℕ) : ∃ found, keys.foldlM (countObject maxVersion) [] = .ok found ∧
      (found.map (·.1)).Nodup ∧ ∀ v m, found.lookup ⟨v, m⟩ =
        if v ≤ maxVersion then entry (counted keys v m) else none := by
  induction keys using List.reverseRecOn with
  | nil =>
    refine ⟨[], rfl, List.nodup_nil, fun v m ↦ ?_⟩
    have hzero : counted [] v m = 0 := by
      unfold counted fromLast
      split_ifs <;> rfl
    rw [hzero]
    exact (ite_self _).symm
  | append_singleton keys key ih =>
    obtain ⟨found, hfound, hnodup, hlookup⟩ := ih fun k hk ↦ hkeys k (List.mem_append_left _ hk)
    have hstep := countObject_ok (hkeys key (List.mem_append_right _ List.mem_cons_self))
      maxVersion found
    rw [List.foldlM_append, hfound]
    refine ⟨_, (congrArg (· >>= pure) hstep :), ?_⟩
    cases hname : named key with
    | none =>
      refine ⟨hnodup, fun v m ↦ ?_⟩
      rw [hlookup, counted_append_of_ne fun file h ↦ nomatch hname.symm.trans h]
    | some e =>
      obtain ⟨version, file⟩ := e
      dsimp only
      split_ifs with hmax
      · refine ⟨hnodup, fun v m ↦ ?_⟩
        rw [hlookup]
        split_ifs with hv
        · rw [counted_append_of_ne]
          intro file' h
          rw [hname] at h
          have hversion : version = v := congrArg Prod.fst (Option.some.inj h)
          omega
        · rfl
      · refine ⟨nodup_countFile hnodup _ _, fun v m ↦ ?_⟩
        split_ifs with hv
        · exact lookup_countFile hname ((hlookup v m).trans (if_pos hv))
        · have hne : v ≠ version := by omega
          have hother := (hlookup v m).trans (if_neg hv)
          cases file with
          | single =>
            rw [countFile, AssocList.lookup_insertOrAssign, if_neg, hother]
            exact fun h ↦ hne (congrArg VersionParts.version h)
          | part i n =>
            rw [countFile, AssocList.lookup_insertOrAssign, if_neg, hother]
            exact fun h ↦ hne (congrArg VersionParts.version h)

theorem foldlM_tooLarge {keys : List ByteString} {key : ByteString} (hkey : key ∈ keys)
    (hlarge : TooLarge key) (maxVersion : ℕ) (found : Found) :
    ∃ e, keys.foldlM (countObject maxVersion) found = .error e := by
  induction keys generalizing found with
  | nil => cases hkey
  | cons k keys ih =>
    rw [List.foldlM_cons]
    rcases List.mem_cons.mp hkey with rfl | hmem
    · rw [countObject_tooLarge hlarge]
      exact ⟨_, rfl⟩
    · cases hstep : countObject maxVersion found k with
      | error e => exact ⟨e, rfl⟩
      | ok found' => exact ih hmem found'

/-! ## The newest count -/

/-- An entry is full if its count is its number of parts. -/
def Full (e : VersionParts × ℕ) : Prop := e.2 = e.1.parts

/-- The versions ascend, so the last version that is taken is the greatest, with its least number of
parts. -/
theorem foldl_takeNewest {l : Found} (h : l.Pairwise fun a b ↦ keyLe a b = true) :
    (l.foldl takeNewest {} = {} ∧ ∀ e ∈ l, ¬Full e) ∨
      ∃ e ∈ l, Full e ∧
        l.foldl takeNewest {} = { version := some e.1.version, parts := e.1.parts } ∧
        ∀ e' ∈ l, Full e' → e'.1.version < e.1.version ∨
          e'.1.version = e.1.version ∧ e.1.parts ≤ e'.1.parts := by
  induction l using List.reverseRecOn with
  | nil => exact .inl ⟨rfl, fun _ he ↦ nomatch he⟩
  | append_singleton l a ih =>
    obtain ⟨hl, -, hla⟩ := List.pairwise_append.mp h
    have hle : ∀ e ∈ l, e.1.version < a.1.version ∨
        e.1.version = a.1.version ∧ e.1.parts ≤ a.1.parts := by
      intro e he
      simpa [keyLe] using hla e he a List.mem_cons_self
    rw [List.foldl_append, List.foldl_cons, List.foldl_nil]
    by_cases hfull : Full a
    · rcases ih hl with ⟨hnone, hnot⟩ | ⟨e, he, hefull, hfold, hmax⟩
      · refine .inr ⟨a, List.mem_append_right _ List.mem_cons_self, hfull, ?_, ?_⟩
        · rw [hnone, takeNewest, if_pos ⟨hfull, rfl⟩]
        · intro e' he' hfull'
          rcases List.mem_append.mp he' with he' | he'
          · exact absurd hfull' (hnot e' he')
          · exact .inr (by rw [List.mem_singleton.mp he']; exact ⟨rfl, le_rfl⟩)
      · by_cases hnewer : e.1.version < a.1.version
        · refine .inr ⟨a, List.mem_append_right _ List.mem_cons_self, hfull, ?_, ?_⟩
          · rw [hfold, takeNewest, if_pos ⟨hfull, decide_eq_true hnewer⟩]
          · intro e' he' hfull'
            rcases List.mem_append.mp he' with he' | he'
            · rcases hmax e' he' hfull' with hlt | ⟨heq, -⟩
              · exact .inl (hlt.trans hnewer)
              · exact .inl (heq ▸ hnewer)
            · exact .inr (by rw [List.mem_singleton.mp he']; exact ⟨rfl, le_rfl⟩)
        · -- The version has been taken, with fewer parts.
          refine .inr ⟨e, List.mem_append_left _ he, hefull, ?_, ?_⟩
          · rw [hfold, takeNewest, if_neg]
            exact fun h ↦ hnewer (of_decide_eq_true h.2)
          · intro e' he' hfull'
            rcases List.mem_append.mp he' with he' | he'
            · exact hmax e' he' hfull'
            · obtain rfl := List.mem_singleton.mp he'
              exact .inr (((hle e he).resolve_left hnewer).imp_left Eq.symm)
    · have hsame : takeNewest (l.foldl takeNewest {}) a = l.foldl takeNewest {} := by
        rw [takeNewest, if_neg fun h ↦ hfull h.1]
      rw [hsame]
      rcases ih hl with ⟨hnone, hnot⟩ | ⟨e, he, hefull, hfold, hmax⟩
      · refine .inl ⟨hnone, fun e he ↦ ?_⟩
        rcases List.mem_append.mp he with he | he
        · exact hnot e he
        · rwa [List.mem_singleton.mp he]
      · refine .inr ⟨e, List.mem_append_left _ he, hefull, hfold, fun e' he' hfull' ↦ ?_⟩
        rcases List.mem_append.mp he' with he' | he'
        · exact hmax e' he' hfull'
        · exact absurd (List.mem_singleton.mp he' ▸ hfull') hfull

/-! ## The newest checkpoint -/

/-- All files of a checkpoint are listed. -/
def Complete (basePath : ByteString) (keys : List ByteString) (version parts : ℕ) : Prop :=
  1 ≤ parts ∧ ∀ file ∈ checkpointFiles basePath version parts, file ∈ keys

instance (basePath : ByteString) (keys : List ByteString) (version parts : ℕ) :
    Decidable (Complete basePath keys version parts) :=
  inferInstanceAs (Decidable (_ ∧ ∀ file ∈ _, _))

theorem entry_eq_some {n k : ℕ} : entry n = some k ↔ 0 < n ∧ n % 2 ^ 32 = k := by
  unfold entry
  split_ifs with h
  · exact iff_of_false (fun h ↦ nomatch h) fun h' ↦ by omega
  · rw [Option.some.injEq]
    exact (and_iff_right (Nat.pos_of_ne_zero h)).symm

/-- What `newest_checkpoint` returns: the greatest version with a full count. -/
theorem newestCheckpoint_ok {keys : List ByteString} (hkeys : ∀ key ∈ keys, ¬TooLarge key)
    (maxVersion : ℕ) :
    (newestCheckpoint keys maxVersion = .ok {} ∧ ∀ v ≤ maxVersion, ∀ m, ¬FullCount keys v m) ∨
      ∃ v m, newestCheckpoint keys maxVersion = .ok { version := some v, parts := m } ∧
        v ≤ maxVersion ∧ FullCount keys v m ∧
        ∀ u ≤ maxVersion, ∀ m', FullCount keys u m' → u < v ∨ u = v ∧ m ≤ m' := by
  obtain ⟨found, hfound, hnodup, hlookup⟩ := foldlM_countObject hkeys maxVersion
  have hperm := List.mergeSort_perm found keyLe
  have hnewest : newestCheckpoint keys maxVersion =
      .ok ((found.mergeSort keyLe).foldl takeNewest {}) := by
    rw [newestCheckpoint, hfound]
    rfl
  -- The full entries are the full counts.
  have hfull : ∀ v m, ((⟨v, m⟩, m) : VersionParts × ℕ) ∈ found.mergeSort keyLe ↔
      v ≤ maxVersion ∧ FullCount keys v m := by
    intro v m
    rw [hperm.mem_iff, FullCount, ← entry_eq_some]
    constructor
    · intro hmem
      have h := AssocList.lookup_of_mem hnodup hmem
      rw [hlookup] at h
      split_ifs at h with hv
      exact ⟨hv, h⟩
    · rintro ⟨hv, hentry⟩
      exact AssocList.mem_of_lookup (((hlookup v m).trans (if_pos hv)).trans hentry)
  have hsorted : (found.mergeSort keyLe).Pairwise fun a b ↦ keyLe a b = true := by
    apply List.pairwise_mergeSort
    · intro a b c hab hbc
      simp only [keyLe, Bool.or_eq_true, Bool.and_eq_true, decide_eq_true_eq] at hab hbc ⊢
      omega
    · intro a b
      simp only [keyLe, Bool.or_eq_true, Bool.and_eq_true, decide_eq_true_eq]
      omega
  rw [hnewest]
  rcases foldl_takeNewest hsorted with ⟨hnone, hnot⟩ | ⟨⟨⟨v, m⟩, k⟩, he, hefull, hfold, hmax⟩
  · left
    rw [hnone]
    exact ⟨rfl, fun v hv m hm ↦ hnot _ ((hfull v m).mpr ⟨hv, hm⟩) rfl⟩
  · obtain rfl : k = m := hefull
    obtain ⟨hv, hcount⟩ := (hfull v k).mp he
    right
    refine ⟨v, k, by rw [hfold], hv, hcount, fun u hu m' hm' ↦ ?_⟩
    exact hmax _ ((hfull u m').mpr ⟨hu, hm'⟩) rfl

theorem newestCheckpoint_tooLarge {keys : List ByteString} {key : ByteString} (hkey : key ∈ keys)
    (h : TooLarge key) (maxVersion : ℕ) : ∃ e, newestCheckpoint keys maxVersion = .error e := by
  obtain ⟨e, he⟩ := foldlM_tooLarge hkey h maxVersion []
  rw [newestCheckpoint, he]
  exact ⟨e, rfl⟩

end LakeVilla.Checkpoint

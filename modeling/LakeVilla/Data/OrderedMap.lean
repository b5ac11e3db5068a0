import LakeVilla.Data.Bytes

/-!
# Ordered maps

A map as the list of its entries in the order of their keys, as `std::map` iterates over them. Keys
that are lists come in lexicographic order. The keys with a given prefix then follow each other, so
a loop that starts at the lower bound of the prefix and stops at the first other key finds all of
them (`withPrefix_eq`).
-/

structure OrderedMap (K V : Type) [LinearOrder K] where
  entries : List (K × V)
  sorted : entries.Pairwise fun a b ↦ a.1 < b.1

namespace OrderedMap

section Operations

variable {K V : Type} [LinearOrder K]

def empty : OrderedMap K V := ⟨[], .nil⟩

/-- `find` -/
def get (m : OrderedMap K V) (k : K) : Option V := (m.entries.find? fun e ↦ e.1 = k).map (·.2)

def insertEntry (k : K) (v : V) : List (K × V) → List (K × V)
  | [] => [(k, v)]
  | e :: l =>
    if k < e.1 then (k, v) :: e :: l
    else if k = e.1 then (k, v) :: l
    else e :: insertEntry k v l

theorem mem_insertEntry {k : K} {v : V} {l : List (K × V)} {e : K × V}
    (h : e ∈ insertEntry k v l) : e = (k, v) ∨ e ∈ l := by
  induction l with
  | nil => exact .inl (List.mem_singleton.mp h)
  | cons e₁ l ih =>
    unfold insertEntry at h
    split_ifs at h with hlt heq
    · exact List.mem_cons.mp h
    · exact (List.mem_cons.mp h).imp_right (List.mem_cons_of_mem _)
    · rcases List.mem_cons.mp h with rfl | h
      · exact .inr List.mem_cons_self
      · exact (ih h).imp_right (List.mem_cons_of_mem _)

theorem sorted_insertEntry {k : K} {v : V} {l : List (K × V)}
    (h : l.Pairwise fun a b ↦ a.1 < b.1) :
    (insertEntry k v l).Pairwise fun a b ↦ a.1 < b.1 := by
  induction l with
  | nil => exact List.pairwise_singleton _ _
  | cons e l ih =>
    obtain ⟨hhead, hl⟩ := List.pairwise_cons.mp h
    unfold insertEntry
    split_ifs with hlt heq
    · refine List.pairwise_cons.mpr ⟨fun e' he' ↦ ?_, h⟩
      rcases List.mem_cons.mp he' with rfl | he'
      · exact hlt
      · exact hlt.trans (hhead e' he')
    · exact List.pairwise_cons.mpr ⟨fun e' he' ↦ heq ▸ hhead e' he', hl⟩
    · refine List.pairwise_cons.mpr ⟨fun e' he' ↦ ?_, ih hl⟩
      rcases mem_insertEntry he' with rfl | he'
      · exact lt_of_le_of_ne (not_lt.mp hlt) (Ne.symm heq)
      · exact hhead e' he'

/-- `operator[]` with an assignment -/
def insert (m : OrderedMap K V) (k : K) (v : V) : OrderedMap K V :=
  ⟨insertEntry k v m.entries, sorted_insertEntry m.sorted⟩

def erase (m : OrderedMap K V) (k : K) : OrderedMap K V :=
  ⟨m.entries.filter (·.1 ≠ k), m.sorted.filter _⟩

/-- The entries from `lower_bound` on -/
def lowerBound (m : OrderedMap K V) (k : K) : List (K × V) := m.entries.dropWhile (·.1 < k)

variable {m : OrderedMap K V} {k k' : K} {v : V}

theorem get_insert [Decidable (k' = k)] :
    (m.insert k v).get k' = if k' = k then some v else m.get k' := by
  have hentries : ∀ l : List (K × V), ((insertEntry k v l).find? fun e ↦ e.1 = k') =
      if k' = k then some (k, v) else l.find? fun e ↦ e.1 = k' := by
    intro l
    induction l with
    | nil => by_cases hk : k' = k <;> simp [insertEntry, hk, eq_comm]
    | cons e l ih =>
      unfold insertEntry
      by_cases hlt : k < e.1
      · rw [if_pos hlt]
        by_cases hk : k' = k <;> simp [List.find?_cons, hk, eq_comm]
      · rw [if_neg hlt]
        by_cases heq : k = e.1
        · rw [if_pos heq]
          by_cases hk : k' = k
          · simp [hk]
          · simp [← heq, hk, eq_comm]
        · rw [if_neg heq, List.find?_cons, ih, List.find?_cons]
          by_cases hk : k' = k
          · simp [hk, Ne.symm heq]
          · simp only [if_neg hk]
  rw [get, insert, hentries]
  split_ifs <;> rfl

theorem get_erase [Decidable (k' = k)] :
    (m.erase k).get k' = if k' = k then none else m.get k' := by
  rw [get, erase, List.find?_filter]
  by_cases hk : k' = k
  · rw [if_pos hk, List.find?_eq_none.mpr fun e _ ↦ by simp [hk], Option.map_none]
  · rw [if_neg hk, get]
    congr 2
    funext e
    by_cases he : e.1 = k' <;> simp [he, hk]

theorem get_eq_some : m.get k = some v ↔ (k, v) ∈ m.entries := by
  have hentries : ∀ l : List (K × V), l.Pairwise (fun a b ↦ a.1 < b.1) →
      ((l.find? fun e ↦ e.1 = k) = some (k, v) ↔ (k, v) ∈ l) := by
    intro l hl
    induction l with
    | nil => simp
    | cons e l ih =>
      obtain ⟨hhead, hl⟩ := List.pairwise_cons.mp hl
      rw [List.find?_cons, List.mem_cons]
      by_cases he : e.1 = k
      · -- the keys behind `e` are greater
        have hnot : (k, v) ∉ l := fun h ↦ absurd (hhead _ h) (he ▸ lt_irrefl e.1)
        simp [he, hnot, eq_comm]
      · have hne : (k, v) ≠ e := fun h ↦ he (h ▸ rfl)
        simp [he, hne, ih hl]
  rw [← hentries m.entries m.sorted, get]
  constructor
  · intro h
    obtain ⟨e, he, hv⟩ := Option.map_eq_some_iff.mp h
    have hk : e.1 = k := by simpa using List.find?_some he
    rw [he, ← hk, ← hv]
  · intro h
    rw [h]
    rfl

theorem isSome_get : (m.get k).isSome ↔ ∃ e ∈ m.entries, e.1 = k := by
  constructor
  · intro h
    obtain ⟨v, hv⟩ := Option.isSome_iff_exists.mp h
    exact ⟨(k, v), get_eq_some.mp hv, rfl⟩
  · rintro ⟨e, he, rfl⟩
    rw [get_eq_some.mpr he]
    rfl

end Operations

section Prefixes

variable {α V : Type} [LinearOrder α]

/-- The loop from the lower bound of `p` while the keys have the prefix `p` -/
def withPrefix (m : OrderedMap (List α) V) (p : List α) : List (List α × V) :=
  (m.lowerBound p).takeWhile fun e ↦ p.isPrefixOf e.1

/-- No other key lies between two keys with the prefix, or between the prefix and one of them. -/
theorem takeWhile_dropWhile_eq {p : List α} {l : List (List α × V)}
    (h : l.Pairwise fun a b ↦ a.1 < b.1) :
    ((l.dropWhile fun e ↦ e.1 < p).takeWhile fun e ↦ p.isPrefixOf e.1) =
      l.filter fun e ↦ p.isPrefixOf e.1 := by
  induction l with
  | nil => rfl
  | cons e l ih =>
    obtain ⟨hhead, hl⟩ := List.pairwise_cons.mp h
    by_cases hlt : e.1 < p
    · have hnot : ¬p <+: e.1 := fun hp ↦ absurd hlt (not_lt.mpr (ByteString.le_of_isPrefix hp))
      rw [List.dropWhile_cons_of_pos (by simpa using hlt), ih hl,
        List.filter_cons_of_neg (by simpa using hnot)]
    · have hfrom : (l.dropWhile fun e ↦ e.1 < p) = l := by
        cases l with
        | nil => rfl
        | cons e' l =>
          have hafter := (not_lt.mp hlt).trans (hhead e' List.mem_cons_self).le
          exact List.dropWhile_cons_of_neg (by simpa using hafter)
      rw [List.dropWhile_cons_of_neg (by simpa using hlt)]
      by_cases hp : p <+: e.1
      · rw [List.takeWhile_cons_of_pos (by simpa using hp),
          List.filter_cons_of_pos (by simpa using hp), ← ih hl, hfrom]
      · rw [List.takeWhile_cons_of_neg (by simpa using hp), eq_comm, List.filter_eq_nil_iff]
        intro e' he' hp'
        rcases List.mem_cons.mp he' with rfl | he'
        · exact hp (by simpa using hp')
        · obtain ⟨y, hy⟩ : p <+: e'.1 := by simpa using hp'
          exact hp (ByteString.prefix_of_between (not_lt.mp hlt) (hy ▸ (hhead e' he').le))

theorem withPrefix_eq (m : OrderedMap (List α) V) (p : List α) :
    m.withPrefix p = m.entries.filter fun e ↦ p.isPrefixOf e.1 := by
  rw [← takeWhile_dropWhile_eq m.sorted, withPrefix, lowerBound]
  -- the comparisons differ in how they are decided
  congr! 2
  exact funext fun e ↦ decide_eq_decide.mpr Iff.rfl

end Prefixes

end OrderedMap

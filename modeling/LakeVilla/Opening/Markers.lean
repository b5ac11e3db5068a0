import LakeVilla.Spec.Opening
import LakeVilla.Transaction.State

/-!
# Running markers in the store

What a table's log shows to a transaction that opens it: the highest version, the running markers,
and whether all versions can be read. While all other transactions stand still, the store changes
only by the markers that the transaction places and gives up (`Alone`).
-/

namespace LakeVilla

namespace Store

variable (s : Store) (p : Table)

/-- The highest version of a table. -/
def highest : Option ℕ := (s.versions p).max?

/-- The transaction whose running marker a version holds. -/
def markerOf (v : ℕ) : Option TxnId :=
  match s.get (.version p v) with
  | some ⟨.marker txnid _, _, _⟩ => some txnid
  | _ => none

/-- The running markers in the first `n` versions. -/
def markersBelow (n : ℕ) : List TxnId := (List.range n).filterMap (s.markerOf p)

/-- The running markers of a table. -/
def running : List TxnId := ((s.highest p).map fun h ↦ s.markersBelow p (h + 1)).getD []

/-- The table has versions, and none is missing below the highest one. -/
def Gapless : Prop := ∃ h ∈ s.highest p, ∀ v ≤ h, (s.get (.version p v)).isSome = true

instance : DecidablePred s.Gapless := fun p ↦
  inferInstanceAs (Decidable (∃ h ∈ s.highest p, _))

variable {s p} {s' : Store} {h v : ℕ} {k : Key} {o : Object} {i : TxnId}

theorem highest_eq_some : s.highest p = some h ↔
    (s.get (.version p h)).isSome = true ∧ ∀ v, (s.get (.version p v)).isSome = true → v ≤ h := by
  rw [highest, List.max?_eq_some_iff]
  simp only [mem_versions]

theorem highest_eq_none : s.highest p = none ↔ ∀ v, s.get (.version p v) = none := by
  rw [highest, List.max?_eq_none_iff, List.eq_nil_iff_forall_not_mem]
  simp only [mem_versions, Option.not_isSome_iff_eq_none]

theorem highest_congr
    (heq : ∀ v, (s'.get (.version p v)).isSome = (s.get (.version p v)).isSome) :
    s'.highest p = s.highest p := by
  refine Option.ext fun h ↦ ?_
  rw [highest_eq_some, highest_eq_some]
  simp only [heq]

theorem running_of_highest (hh : s.highest p = some h) :
    s.running p = s.markersBelow p (h + 1) := by
  rw [running, hh]
  rfl

theorem markerOf_eq_some : s.markerOf p v = some i ↔
    ∃ o d, s.get (.version p v) = some o ∧ o.content = .marker i d := by
  unfold markerOf
  split
  · next txnid d _ _ hget =>
    rw [hget, Option.some.injEq]
    constructor
    · rintro rfl
      exact ⟨_, d, rfl, rfl⟩
    · rintro ⟨o, d', ho, hc⟩
      obtain rfl := Option.some.inj ho
      exact (Content.marker.inj hc).1
  · next hnot =>
    refine iff_of_false (fun h ↦ nomatch h) ?_
    rintro ⟨⟨c, e, ms⟩, d, ho, rfl⟩
    exact hnot _ _ _ _ ho

theorem markersBelow_succ (s : Store) (p : Table) (n : ℕ) :
    s.markersBelow p (n + 1) = s.markersBelow p n ++ (s.markerOf p n).toList := by
  rw [markersBelow, List.range_succ, List.filterMap_append]
  rfl

theorem markersBelow_congr {n : ℕ} (heq : ∀ v < n, s'.markerOf p v = s.markerOf p v) :
    s'.markersBelow p n = s.markersBelow p n :=
  List.filterMap_congr fun v hv ↦ heq v (List.mem_range.mp hv)

theorem get_eq_none_of_highest (hh : s.highest p = some h) :
    s.get (.version p (h + 1)) = none := by
  rw [← Option.not_isSome_iff_eq_none]
  intro hsome
  have hle := (highest_eq_some.mp hh).2 _ hsome
  omega

/-! ### Changes of one object -/

theorem get_isSome_of_update (hs : s'.get = Function.update s.get k (some o))
    (hk : (s.get k).isSome = true) (k' : Key) : (s'.get k').isSome = (s.get k').isSome := by
  rw [hs]
  by_cases hkk : k' = k
  · rw [hkk, Function.update_self, hk]
    rfl
  · rw [Function.update_of_ne hkk]

theorem markerOf_of_update_ne {c : Option Object} (hs : s'.get = Function.update s.get k c)
    (hne : Key.version p v ≠ k) : s'.markerOf p v = s.markerOf p v := by
  unfold markerOf
  rw [hs, Function.update_of_ne hne]

/-- What happens to other objects does not change a table. -/
theorem running_congr (heq : ∀ v, s'.get (.version p v) = s.get (.version p v)) :
    s'.running p = s.running p := by
  have hmarker : ∀ v, s'.markerOf p v = s.markerOf p v := fun v ↦ by rw [markerOf, markerOf, heq]
  have hhighest : s'.highest p = s.highest p := highest_congr fun v ↦ by rw [heq]
  unfold running
  rw [hhighest]
  congr 2
  exact funext fun h ↦ markersBelow_congr fun v _ ↦ hmarker v

theorem gapless_congr
    (heq : ∀ v, (s'.get (.version p v)).isSome = (s.get (.version p v)).isSome) :
    s'.Gapless p ↔ s.Gapless p := by
  unfold Gapless
  rw [highest_congr heq]
  simp only [heq]

section Place

variable (hs : s'.get = Function.update s.get (.version p (h + 1)) (some o))
include hs

theorem highest_place (hh : s.highest p = some h) : s'.highest p = some (h + 1) := by
  obtain ⟨-, hmax⟩ := highest_eq_some.mp hh
  rw [highest_eq_some, hs, Function.update_self]
  refine ⟨rfl, fun v hv ↦ ?_⟩
  by_contra hlt
  have hne : Key.version p v ≠ .version p (h + 1) := fun heq ↦
    hlt (Nat.le_of_eq (Key.version.inj heq).2)
  rw [Function.update_of_ne hne] at hv
  have hle := hmax v hv
  omega

theorem markersBelow_place (hh : s.highest p = some h) :
    s'.markersBelow p (h + 1) = s.running p := by
  rw [running_of_highest hh]
  refine markersBelow_congr fun v hv ↦ markerOf_of_update_ne hs fun heq ↦ ?_
  exact Nat.ne_of_lt hv (Key.version.inj heq).2

theorem gapless_place (hh : s.highest p = some h) : s'.Gapless p ↔ s.Gapless p := by
  have hbelow : ∀ v ≤ h, (s'.get (.version p v)).isSome = (s.get (.version p v)).isSome := by
    intro v hv
    rw [hs, Function.update_of_ne fun heq ↦ ?_]
    have hv' := (Key.version.inj heq).2
    omega
  unfold Gapless
  rw [highest_place hs hh, hh]
  simp only [Option.mem_some_iff, exists_eq_left']
  constructor
  · intro hall v hv
    exact (hbelow v hv).symm.trans (hall v (Nat.le_succ_of_le hv))
  · intro hall v hv
    obtain hlt | rfl := Nat.lt_or_eq_of_le hv
    · have hle := Nat.lt_succ_iff.mp hlt
      exact (hbelow v hle).trans (hall v hle)
    · rw [hs, Function.update_self]
      rfl

end Place

/-- A running marker that is replaced is no longer shown. -/
theorem markersBelow_release {n : ℕ} (hs : s'.get = Function.update s.get (.version p v) (some o))
    (hv : v < n) (hi : s.markerOf p v = some i) (ho : s'.markerOf p v = none) :
    (s.markersBelow p n).Perm (i :: s'.markersBelow p n) := by
  have hperm := List.perm_cons_erase (List.mem_range.mpr hv)
  have hrest : ((List.range n).erase v).filterMap (s'.markerOf p) =
      ((List.range n).erase v).filterMap (s.markerOf p) := by
    refine List.filterMap_congr fun u hu ↦ markerOf_of_update_ne hs fun heq ↦ ?_
    exact (List.nodup_range.mem_erase_iff.mp hu).1 (Key.version.inj heq).2
  have hold : (s.markersBelow p n).Perm (i :: ((List.range n).erase v).filterMap (s.markerOf p)) := by
    have h := hperm.filterMap (s.markerOf p)
    rwa [List.filterMap_cons_some hi] at h
  have hnew : (s'.markersBelow p n).Perm (((List.range n).erase v).filterMap (s.markerOf p)) := by
    have h := hperm.filterMap (s'.markerOf p)
    rwa [List.filterMap_cons_none ho, hrest] at h
  exact hold.trans (hnew.symm.cons i)

end Store

/-! ## The store of a transaction that runs alone -/

/-- The marker is valid and its object still is the one that transaction `i` placed. -/
def Marker.Running (i : TxnId) (s : Store) (mk : Marker) : Prop :=
  mk.valid = true ∧ ∃ o d, s.get mk.path = some o ∧ mk.etag = some o.etag ∧ o.content = .marker i d

/-- A change of a reserved version is no change of the other tables. -/
theorem Store.get_other {s s' : Store} {mk : Marker} {c : Option Object} {p : Table}
    (hs : s'.get = Function.update s.get mk.path c) (hp : p ≠ mk.table) (v : ℕ) :
    s'.get (.version p v) = s.get (.version p v) := by
  rw [hs, Marker.path, Function.update_of_ne fun heq ↦ hp (Key.version.inj heq).1]

/-- From the store `s₀` on only transaction `i` has changed the tables' logs; `mks` are the markers
that it holds. -/
structure Alone (i : TxnId) (s₀ s : Store) (mks : List Marker) : Prop where
  held : ∀ mk ∈ mks, mk.Running i s
  nodup : (mks.map Marker.path).Nodup
  running : ∀ p, (s.running p).Perm (Opening.seen s₀.running i (mks.map (·.table)) p)
  gapless : ∀ p, s.Gapless p ↔ s₀.Gapless p

namespace Alone

variable {i : TxnId} {s₀ s s' : Store} {mk : Marker} {mks mks' : List Marker} {o : Object}
variable {d : Option ℤ} {h : ℕ} {p : Table}

theorem refl (i : TxnId) (s : Store) : Alone i s s [] where
  held := by simp
  nodup := List.nodup_nil
  running p := by simp [Opening.seen]
  gapless _ := Iff.rfl

theorem perm (hs : Alone i s₀ s mks) (hp : mks.Perm mks') : Alone i s₀ s mks' where
  held mk hmk := hs.held mk (hp.mem_iff.mpr hmk)
  nodup := (hp.map _).nodup_iff.mp hs.nodup
  running p := by
    rw [← Opening.seen_congr (hp.map _)]
    exact hs.running p
  gapless := hs.gapless

theorem congr (hs : Alone i s₀ s mks) (heq : s'.get = s.get) : Alone i s₀ s' mks where
  held mk hmk := by
    rw [Marker.Running, heq]
    exact hs.held mk hmk
  nodup := hs.nodup
  running p := by
    rw [Store.running_congr fun v ↦ congrFun heq _]
    exact hs.running p
  gapless p := (Store.gapless_congr fun v ↦ by rw [heq]).trans (hs.gapless p)

/-- The highest version is reserved after the others. -/
theorem running_eq (hmk : mk.Running i s) (hh : s.highest mk.table = some mk.version) :
    s.running mk.table = s.markersBelow mk.table mk.version ++ [i] := by
  obtain ⟨-, o, d, hget, -, hc⟩ := hmk
  rw [Store.running_of_highest hh, Store.markersBelow_succ,
    Store.markerOf_eq_some.mpr ⟨o, d, hget, hc⟩]
  rfl

/-- A marker is placed after the highest version. -/
theorem place (hs : Alone i s₀ s mks) (hh : s.highest mk.table = some h)
    (hversion : mk.version = h + 1) (hput : s'.get = Function.update s.get mk.path (some o))
    (hc : o.content = .marker i d) (hvalid : mk.valid = true) (hetag : mk.etag = some o.etag) :
    Alone i s₀ s' (mk :: mks) := by
  have hpath : mk.path = .version mk.table (h + 1) := by rw [Marker.path, hversion]
  have hnew : s.get mk.path = none := hpath ▸ Store.get_eq_none_of_highest hh
  have hne : ∀ mk' ∈ mks, mk'.path ≠ mk.path := by
    intro mk' hmk' heq
    obtain ⟨-, o', d', hget, -⟩ := hs.held mk' hmk'
    rw [heq, hnew] at hget
    cases hget
  have hrunning : mk.Running i s' :=
    ⟨hvalid, o, d, by rw [hput, Function.update_self], hetag, hc⟩
  have hput' : s'.get = Function.update s.get (.version mk.table (h + 1)) (some o) := hpath ▸ hput
  refine ⟨fun mk' hmk' ↦ ?_, ?_, fun p ↦ ?_, fun p ↦ ?_⟩
  · obtain rfl | hmk' := List.mem_cons.mp hmk'
    · exact hrunning
    · obtain ⟨hv, o', d', hget, hrest⟩ := hs.held mk' hmk'
      refine ⟨hv, o', d', ?_, hrest⟩
      rw [hput, Function.update_of_ne (hne mk' hmk'), hget]
  · rw [List.map_cons, List.nodup_cons]
    refine ⟨fun hmem ↦ ?_, hs.nodup⟩
    obtain ⟨mk', hmk', heq⟩ := List.mem_map.mp hmem
    exact hne mk' hmk' heq
  · by_cases hp : p = mk.table
    · subst hp
      have hhigh : s'.highest mk.table = some mk.version := hversion ▸ Store.highest_place hput' hh
      rw [running_eq hrunning hhigh, hversion, Store.markersBelow_place hput' hh]
      refine ((hs.running mk.table).append_right [i]).trans ?_
      rw [Opening.seen, Opening.seen, List.map_cons, List.count_cons_self, List.replicate_succ',
        List.append_assoc]
    · rw [Store.running_congr (Store.get_other hput hp)]
      have hcount : Opening.seen s₀.running i ((mk :: mks).map (·.table)) p =
          Opening.seen s₀.running i (mks.map (·.table)) p := by
        rw [Opening.seen, List.map_cons, List.count_cons_of_ne fun heq ↦ hp heq.symm]
        rfl
      rw [hcount]
      exact hs.running p
  · by_cases hp : p = mk.table
    · subst hp
      exact (Store.gapless_place hput' hh).trans (hs.gapless _)
    · refine (Store.gapless_congr fun v ↦ ?_).trans (hs.gapless p)
      rw [Store.get_other hput hp]

/-- A marker is replaced by a commit. -/
theorem release (hs : Alone i s₀ s (mk :: mks))
    (hput : s'.get = Function.update s.get mk.path (some o))
    (hc : ∀ txnid d, o.content ≠ .marker txnid d) : Alone i s₀ s' mks := by
  obtain ⟨-, o₀, d, hget, -, hc₀⟩ := hs.held mk (List.mem_cons_self ..)
  have hsome : ∀ k, (s'.get k).isSome = (s.get k).isSome :=
    Store.get_isSome_of_update hput (by rw [hget]; rfl)
  obtain ⟨hnot, hnodup⟩ := List.nodup_cons.mp hs.nodup
  refine ⟨fun mk' hmk' ↦ ?_, hnodup, fun p ↦ ?_,
    fun p ↦ (Store.gapless_congr fun v ↦ hsome _).trans (hs.gapless p)⟩
  · obtain ⟨hv, o', d', hget', hrest⟩ := hs.held mk' (List.mem_cons_of_mem _ hmk')
    refine ⟨hv, o', d', ?_, hrest⟩
    have hne : mk'.path ≠ mk.path := fun heq ↦ hnot (heq ▸ List.mem_map_of_mem hmk')
    rw [hput, Function.update_of_ne hne, hget']
  · have hseen := hs.running p
    by_cases hp : p = mk.table
    · subst hp
      obtain ⟨h, hh⟩ : ∃ h, s.highest mk.table = some h := by
        cases hh : s.highest mk.table with
        | some h => exact ⟨h, rfl⟩
        | none => cases (Store.highest_eq_none.mp hh mk.version).symm.trans hget
      have hle : mk.version ≤ h := (Store.highest_eq_some.mp hh).2 _ (by
        rw [show s.get (.version mk.table mk.version) = some o₀ from hget]
        rfl)
      have hold : s.markerOf mk.table mk.version = some i :=
        Store.markerOf_eq_some.mpr ⟨o₀, d, hget, hc₀⟩
      have hnew : s'.markerOf mk.table mk.version = none := by
        rw [Option.eq_none_iff_forall_not_mem]
        intro txnid htxn
        obtain ⟨o', d', ho', hc'⟩ := Store.markerOf_eq_some.mp htxn
        have hself : s'.get mk.path = some o := by rw [hput, Function.update_self]
        obtain rfl := Option.some.inj (hself.symm.trans ho')
        exact hc _ _ hc'
      have hshown := Store.markersBelow_release hput (Nat.lt_succ_of_le hle) hold hnew
      rw [← Store.running_of_highest hh,
        ← Store.running_of_highest ((Store.highest_congr fun v ↦ hsome _).trans hh)] at hshown
      rw [Opening.seen, List.map_cons, List.count_cons_self, List.replicate_succ] at hseen
      exact ((hshown.symm.trans hseen).trans List.perm_middle).cons_inv
    · rw [Store.running_congr (Store.get_other hput hp)]
      rw [Opening.seen, List.map_cons, List.count_cons_of_ne fun heq ↦ hp heq.symm] at hseen
      exact hseen

/-- What a table shows below the marker that was placed last. -/
theorem below (hs : Alone i s₀ s (mk :: mks)) (hh : s.highest mk.table = some mk.version) :
    (s.markersBelow mk.table mk.version).Perm
      (Opening.seen s₀.running i (mks.map (·.table)) mk.table) := by
  have hseen := hs.running mk.table
  rw [running_eq (hs.held mk (List.mem_cons_self ..)) hh, Opening.seen, List.map_cons,
    List.count_cons_self, List.replicate_succ', ← List.append_assoc] at hseen
  exact (List.perm_append_right_iff [i]).mp hseen

end Alone

end LakeVilla

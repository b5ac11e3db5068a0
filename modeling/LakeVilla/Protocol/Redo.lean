import LakeVilla.Protocol.Wait
import LakeVilla.Protocol.Operate

/-!
# Executing deferred operations

At commit the deferred operations are executed on the newest snapshots (`redo`). When that turns out
to conflict with another commit, the transaction reads all versions below its reserved ones again
(`rebuildState`) and executes its operations once more. Either way the snapshots on which the
operations were executed contain everything that the transaction knows of.
-/

namespace LakeVilla

open Concurrency

/-! ## Operations -/

theorem Txn.Operated.grows {t t' : Txn} (h : t.Operated t') : t.Grows t' := by
  rw [h.eq]
  exact ⟨rfl, List.Subset.refl _, List.Subset.refl _, fun h ↦ h⟩

theorem Txn.Operated.paths {t t' : Txn} (h : t.Operated t') :
    t'.tables.map (·.basePath) = t.tables.map (·.basePath) := by
  have hts := h.tables
  generalize t.tables = ts at hts
  generalize t'.tables = ts' at hts
  induction hts with
  | nil => rfl
  | cons hab _ ih => rw [List.map_cons, List.map_cons, ih, hab.eq]

theorem Txn.Operated.usable {t t' : Txn} (h : t.Operated t') (hu : t'.Usable) : t.Usable := by
  refine ⟨?_, ?_⟩
  · rw [Txn.Distinct, ← h.paths]
    exact hu.distinct
  · have := hu.opened
    rw [h.eq] at this
    exact this

theorem Txn.Operated.idle {t t' : Txn} (h : t.Operated t') (ht : t.Idle) : t'.Idle := by
  intro x hx
  obtain ⟨y, hy, hxy⟩ := h.tables.exists_left hx
  rw [hxy.eq]
  dsimp only
  rw [hxy.versions]
  exact ht y hy

namespace Loading

variable {sem : Semantics TxnId Txn Response Store} {P : Protocol TxnId Txn Response Store}
variable {i : TxnId} {c : Config} {L L' : Bool → Txn → Store → Prop} {b b' : Bool}
variable {t t' : Txn} {s : Store}

/-- Operations were executed. -/
theorem operated (hg : Good sem P i c L b t s) (hop : t.Operated t')
    (hb : t.markers = true ∨ ∀ tbl ∈ t.tables, ∀ u ∈ tbl.deltaLog.versions, u < tbl.markerVersion)
    (hc : c.levels.l0 = false → ∀ tbl ∈ t.tables, tbl.committed = false)
    (hl : Regular sem i c → Truthful sem i → c.storageRetries ≠ 0 → t.Usable → L' b' t' s) :
    Good sem P i c L' b' t' s := by
  have hmem : ∀ {x}, x ∈ t'.tables → ∃ y ∈ t.tables, y.Operated x := hop.tables.exists_left
  have hm : t'.markers = t.markers := hop.grows.markers
  exact
    { sound :=
        { id := by rw [hop.eq]; exact hg.sound.id
          tables := fun x hx ↦ by
            obtain ⟨y, hy, hxy⟩ := hmem hx
            have hr := hg.sound.tables y hy
            rw [hm, hxy.eq]
            exact ⟨hr.marker, hr.before, hr.placed, hr.read⟩
          localLog := by rw [hop.eq]; exact hg.sound.localLog
          prevMarkers := by rw [hop.eq]; exact hg.sound.prevMarkers }
      cfg := by rw [hop.eq]; exact hg.cfg
      recalled := fun hd ↦ by
        have hrec := hg.recalled (by
          rw [Txn.DistinctWith, ← hop.paths]
          exact hd)
        have hprev : t'.prevMarkers = t.prevMarkers := by rw [hop.eq]
        refine ⟨fun hne ↦ hm ▸ hrec.markers (hprev ▸ hne), fun e he x hx hxe ↦ ?_, by simp,
          fun e he ↦ ?_⟩
        · obtain ⟨y, hy, hxy⟩ := hmem hx
          rw [hxy.eq] at hxe ⊢
          exact hrec.below e (hprev ▸ he) y hy hxe
        · rw [hop.paths]
          exact hrec.opened e (hprev ▸ he)
      uncommitted := fun hf x hx ↦ by
        obtain ⟨y, hy, hxy⟩ := hmem hx
        rw [hxy.eq]
        exact hg.uncommitted hf y hy
      tracks := fun hr hu a x ha hn ↦ by
        obtain ⟨y, hy, hxy⟩ := hop.tables.getElem?_left ha
        have ht := (hg.tracks hr (hop.usable hu) a y hy hn).mono hop.grows .refl
        have hv := hxy.versions
        rw [hxy.eq]
        refine ⟨ht.fresh, fun u hu ↦ ht.logged u (hv ▸ hu), fun u hu ↦ ?_, fun u hu ↦ ?_,
          fun hh u hu ↦ ht.checked hh u (hv ▸ hu)⟩
        · dsimp only at hu ⊢
          rw [hv] at hu
          rcases hb with hm' | hb
          · refine .inl ((ht.below u hu).resolve_right fun hf ↦ ?_)
            rw [hm, hm'] at hf
            cases hf
          · exact .inl (hb y (List.mem_of_getElem? hy) u hu)
        · have hcov := ht.covered u hu
          rw [← hv] at hcov
          exact hcov
      locally := fun hr htr hn hu ↦ hl hr htr hn (hop.usable hu)
      opened := by rw [hop.eq]; exact hg.opened
      owns :=
        { own := fun hr hor p v as ha hv ↦ by
            obtain ⟨y, hy, hp, hyc⟩ := hg.owns.own hr hor p v as ha hv
            obtain ⟨x, hx, hyx⟩ := hop.tables.exists_right hy
            refine ⟨x, hx, ?_⟩
            rw [hyx.eq]
            exact ⟨hp, hyc⟩
          written := fun hor x hx hxc _ ↦ by
            obtain ⟨y, hy, hyx⟩ := hmem hx
            rw [hyx.eq] at hxc
            have := hor.elim (fun h0 ↦ hc h0 y hy) fun hf ↦ hg.uncommitted hf y hy
            exact absurd hxc (by simp [this]) } }

end Loading

/-! ## A fresh start -/

/-- The table after a redo on its snapshot. -/
def TableStats.settle (rebase : Bool) (tbl : TableStats) : TableStats :=
  { tbl with
    concurrentChange := false, concurrentRemoves := []
    base := if rebase then tbl.deltaLog.versions else tbl.base }

theorem Txn.clearConcurrency_rebase (t : Txn) : t.clearConcurrency.rebase =
    { t with tables := t.tables.map (TableStats.settle t.hazards.isEmpty) } := by
  unfold Txn.rebase Txn.clearConcurrency
  dsimp only
  split
  · next h =>
    rw [List.map_map]
    refine congrArg (fun ts ↦ ({ t with tables := ts } : Txn)) (List.map_congr_left fun tbl _ ↦ ?_)
    simp [TableStats.settle, h]
  · next h =>
    refine congrArg (fun ts ↦ ({ t with tables := ts } : Txn)) (List.map_congr_left fun tbl _ ↦ ?_)
    simp [TableStats.settle, h]

theorem Txn.Usable.settle {t : Txn} (hu : t.clearConcurrency.rebase.Usable) : t.Usable := by
  rw [Txn.clearConcurrency_rebase] at hu
  refine ⟨?_, hu.opened⟩
  have hd := hu.distinct
  rw [Txn.Distinct, List.map_map] at hd
  exact hd

theorem Txn.clearConcurrency_idem (t : Txn) :
    t.clearConcurrency.clearConcurrency = t.clearConcurrency := by
  simp [Txn.clearConcurrency]

theorem Txn.Operated.settle {t t' : Txn} (h : t.Operated t') :
    t.clearConcurrency.rebase.Operated t'.clearConcurrency.rebase := by
  have hh : t'.hazards = t.hazards := by rw [h.eq]
  rw [Txn.clearConcurrency_rebase, Txn.clearConcurrency_rebase, hh]
  refine ⟨by rw [h.eq], ?_⟩
  dsimp only
  rw [List.forall₂_map_left_iff, List.forall₂_map_right_iff]
  refine h.tables.imp fun a b hab ↦ ⟨?_, hab.versions⟩
  rw [TableStats.settle, TableStats.settle, hab.versions, hab.eq]

/-- A table with a fresh snapshot of all versions below its reserved one. -/
structure Refreshed (P : Protocol TxnId Txn Response Store) (s₀ : Store) (t' : Txn) (s : Store)
    (a b : TableStats) : Prop where
  eq : b = { a with
    deltaLog := b.deltaLog, createdFiles := [], deletedFiles := [], committed := false,
    readVersion := a.markerVersion - 1 }
  replays : Replays s a.basePath b.deltaLog
  versions : ∀ u ∈ b.deltaLog.versions, u < a.markerVersion
  seen : ∀ u < a.markerVersion,
    Seen P t'.markers s a.basePath b.deltaLog.versions t'.prevMarkers u
  /-- what was final in store `s₀` is merged -/
  merged : ∀ u < a.markerVersion, (s₀.log a.basePath u).isSome → u ∈ b.deltaLog.versions

theorem Refreshed.mono {P : Protocol TxnId Txn Response Store} {t t' : Txn} {s₀ s s' : Store}
    {a b : TableStats} (h : Refreshed P s₀ t s a b) (ht : t.Grows t') (hs : Later s s') :
    Refreshed P s₀ t' s' a b where
  eq := h.eq
  replays := h.replays.mono hs
  versions := h.versions
  seen u hu := ht.markers ▸ (h.seen u hu).mono hs (List.Subset.refl _) ht.prevMarkers
  merged := h.merged

/-- The tables except `js` got fresh snapshots since store `s₀`. -/
structure Rebuilt (P : Protocol TxnId Txn Response Store) (s₀ : Store) (js : List ℕ) (t t' : Txn)
    (s : Store) : Prop where
  eq : t' = { t with
    tables := t'.tables, prevMarkers := t'.prevMarkers, relation := t'.relation,
    explicitLog := t'.explicitLog, hazards := t'.hazards }
  grows : t.Grows t'
  opened : .reopenFailed ∈ t'.hazards → .reopenFailed ∈ t.hazards
  remembered : ∀ e ∈ t'.prevMarkers, e ∈ t.prevMarkers ∨
    t.markers = true ∧ ∃ tbl ∈ t.tables, tbl.basePath = e.1 ∧ e.2 < tbl.markerVersion
  length : t'.tables.length = t.tables.length
  tables : ∀ j b, t'.tables[j]? = some b →
    ∃ a, t.tables[j]? = some a ∧ (Refreshed P s₀ t' s a b ∨ j ∈ js ∧ b = a)

namespace Rebuilt

variable {P : Protocol TxnId Txn Response Store} {js : List ℕ} {t t' : Txn} {s₀ s s' : Store}

theorem refl (t : Txn) : Rebuilt P s₀ (List.range t.tables.length) t t s where
  eq := rfl
  grows := .refl t
  opened h := h
  remembered _ he := .inl he
  length := rfl
  tables _ b hj := ⟨b, hj, .inr ⟨List.mem_range.mpr (List.getElem?_eq_some_iff.mp hj).1, rfl⟩⟩

theorem mono (h : Rebuilt P s₀ js t t' s) (hs : Later s s') : Rebuilt P s₀ js t t' s' where
  eq := h.eq
  grows := h.grows
  opened := h.opened
  remembered := h.remembered
  length := h.length
  tables j b hj := by
    obtain ⟨a, ha, hab⟩ := h.tables j b hj
    exact ⟨a, ha, hab.imp_left fun h' ↦ h'.mono (.refl t') hs⟩

/-- What a table keeps. -/
theorem kept (h : Rebuilt P s₀ js t t' s) {j : ℕ} {b : TableStats} (hj : t'.tables[j]? = some b) :
    ∃ a, t.tables[j]? = some a ∧ b.basePath = a.basePath ∧ b.markerVersion = a.markerVersion := by
  obtain ⟨a, ha, hab | ⟨-, rfl⟩⟩ := h.tables j b hj
  · exact ⟨a, ha, by rw [hab.eq], by rw [hab.eq]⟩
  · exact ⟨b, ha, rfl, rfl⟩

theorem paths (h : Rebuilt P s₀ js t t' s) :
    t'.tables.map (·.basePath) = t.tables.map (·.basePath) := by
  refine List.ext_getElem? fun j ↦ ?_
  rw [List.getElem?_map, List.getElem?_map]
  cases hj : t'.tables[j]? with
  | none =>
    rw [List.getElem?_eq_none_iff, h.length, ← List.getElem?_eq_none_iff] at hj
    rw [hj]
  | some b =>
    obtain ⟨a, ha, hp, -⟩ := h.kept hj
    rw [ha, Option.map_some, Option.map_some, hp]

theorem usable (h : Rebuilt P s₀ js t t' s) (hu : t'.Usable) : t.Usable :=
  ⟨by rw [Txn.Distinct, ← h.paths]; exact hu.distinct, fun hf ↦ hu.opened (h.grows.hazards hf)⟩

end Rebuilt

/-- The table up to data that the reservation of its version does not depend on. -/
structure TableStats.Behind (a b : TableStats) : Prop where
  basePath : b.basePath = a.basePath
  marker : b.marker = a.marker
  markerVersion : b.markerVersion = a.markerVersion
  readVersion : b.readVersion = a.readVersion ∨ b.readVersion = a.markerVersion - 1

theorem Sound.behind {i : TxnId} {t t' : Txn} {s : Store} (h : Sound i t s) (hwf : s.WF)
    (hid : t'.transactionId = t.transactionId) (hm : t'.markers = true) (hm' : t.markers = true)
    (ht : ∀ x ∈ t'.tables, ∃ y ∈ t.tables, y.Behind x) (hl : t'.localLog = t.localLog)
    (hp : ∀ e ∈ t'.prevMarkers, e ∈ t.prevMarkers ∨
      t.markers = true ∧ ∃ tbl ∈ t.tables, tbl.basePath = e.1 ∧ e.2 < tbl.markerVersion) :
    Sound i t' s where
  id := hid.trans h.id
  tables x hx := by
    obtain ⟨y, hy, hyx⟩ := ht x hx
    have hr := h.tables y hy
    refine ⟨?_, ?_, fun _ ↦ ?_, ?_⟩
    · rw [hyx.marker, hyx.basePath, hyx.markerVersion, hm, ← hm']
      exact hr.marker
    · rw [hyx.basePath, hyx.markerVersion]
      exact hr.before
    · rw [hyx.basePath, hyx.markerVersion]
      exact hr.placed (.inl hm')
    · rw [hyx.basePath]
      rcases hyx.readVersion with he | he <;> rw [he]
      · exact hr.read
      · exact hr.before
  localLog := hl ▸ h.localLog
  prevMarkers e he := by
    rcases hp e he with he | ⟨-, tbl, htbl, hpe, hlt⟩
    · exact h.prevMarkers e he
    · exact hwf.below (Nat.le_sub_one_of_lt hlt) (hpe ▸ (h.tables tbl htbl).before)

namespace Loading

variable {sem : Semantics TxnId Txn Response Store} {P : Protocol TxnId Txn Response Store}
variable {i : TxnId} {c : Config} {L L' : Bool → Txn → Store → Prop} {b b' : Bool}
variable {t t' t'' : Txn} {s₀ s : Store} {js : List ℕ}

/-- The snapshots are up to date, and the concurrent changes are forgotten. -/
theorem settle (hg : Good sem P i c L b t s) (hwf : s.WF) (hl0 : c.levels.l0 = true)
    (hr : Rebuilt P s₀ js t t' s)
    (hl : Regular sem i c → Truthful sem i → c.storageRetries ≠ 0 → t.Usable →
      L' b' t'.clearConcurrency.rebase s) :
    Good sem P i c L' b' t'.clearConcurrency.rebase s := by
  have hcfg : t'.cfg = c := hr.grows.cfg.trans hg.cfg
  have hm : t'.markers = true := by rw [Txn.markers, hcfg, Levels.markers, hl0, Bool.true_or]
  have hm₀ : t.markers = true := hr.grows.markers ▸ hm
  have hmem : ∀ {x}, x ∈ t'.clearConcurrency.rebase.tables →
      ∃ (j : ℕ) (a y : TableStats), t.tables[j]? = some a ∧ t'.tables[j]? = some y ∧
        x = y.settle t'.hazards.isEmpty ∧ (Refreshed P s₀ t' s a y ∨ y = a) := by
    intro x hx
    rw [Txn.clearConcurrency_rebase] at hx
    obtain ⟨y, hy, rfl⟩ := List.mem_map.mp hx
    obtain ⟨j, hj⟩ := List.getElem?_of_mem hy
    obtain ⟨a, ha, hab⟩ := hr.tables j y hj
    exact ⟨j, a, y, ha, hj, rfl, hab.imp_right And.right⟩
  have hpaths : t'.clearConcurrency.rebase.tables.map (·.basePath) =
      t.tables.map (·.basePath) := by
    rw [Txn.clearConcurrency_rebase, ← hr.paths, List.map_map]
    rfl
  have hu' : t'.clearConcurrency.rebase.Usable → t.Usable := fun hu ↦ by
    refine ⟨by rw [Txn.Distinct, ← hpaths]; exact hu.distinct, fun hf ↦ hu.opened ?_⟩
    rw [Txn.clearConcurrency_rebase]
    exact hr.grows.hazards hf
  have hprev : t'.clearConcurrency.rebase.prevMarkers = t'.prevMarkers := by
    rw [Txn.clearConcurrency_rebase]
  have hmk : t'.clearConcurrency.rebase.markers = t'.markers := by
    rw [Txn.clearConcurrency_rebase]
    rfl
  exact
    { sound :=
        { id := by
            rw [Txn.clearConcurrency_rebase, hr.eq]
            exact hg.sound.id
          tables := fun x hx ↦ by
            obtain ⟨j, a, y, ha, -, rfl, hay⟩ := hmem hx
            have hres := hg.sound.tables a (List.mem_of_getElem? ha)
            rw [hmk, hm]
            rw [hm₀] at hres
            rcases hay with hay | rfl
            · rw [hay.eq]
              exact ⟨hres.marker, hres.before, fun _ ↦ hres.placed (.inl rfl), hres.before⟩
            · exact ⟨hres.marker, hres.before, hres.placed, hres.read⟩
          localLog := by
            rw [Txn.clearConcurrency_rebase, hr.eq]
            exact hg.sound.localLog
          prevMarkers := fun e he ↦ by
            rw [hprev] at he
            rcases hr.remembered e he with he | ⟨-, tbl, htbl, hp, hlt⟩
            · exact hg.sound.prevMarkers e he
            · have hres := hg.sound.tables tbl htbl
              exact hwf.below (Nat.le_sub_one_of_lt hlt) (hp ▸ hres.before) }
      cfg := by
        rw [Txn.clearConcurrency_rebase]
        exact hcfg
      recalled := fun hd ↦ by
        have hd' : t.Distinct := by
          rw [Txn.Distinct, ← hpaths]
          exact hd.distinct
        have hrec := hg.recalled' hd'
        refine ⟨fun _ ↦ hmk.trans hm, fun e he x hx hxe ↦ ?_, by simp, fun e he ↦ ?_⟩
        · rw [hprev] at he
          obtain ⟨j, a, y, ha, hy, rfl, -⟩ := hmem hx
          obtain ⟨a', ha', hp, hmv⟩ := hr.kept hy
          obtain rfl := Option.some.inj (ha.symm.trans ha')
          have hxe' : a.basePath = e.1 := hp.symm.trans hxe
          show e.2 < y.markerVersion
          rw [hmv]
          rcases hr.remembered e he with he | ⟨-, tbl, htbl, hp', hlt⟩
          · exact hrec.below e he a (List.mem_of_getElem? ha) hxe'
          · obtain ⟨k, hk⟩ := List.getElem?_of_mem htbl
            obtain rfl := hd'.index_eq ha hk (hxe'.trans hp'.symm)
            rwa [Option.some.inj (ha.symm.trans hk)]
        · rw [hprev] at he
          rw [hpaths]
          rcases hr.remembered e he with he | ⟨-, tbl, htbl, hp', -⟩
          · exact hrec.opened e he
          · exact List.mem_append_left _ (List.mem_map.mpr ⟨tbl, htbl, hp'⟩)
      uncommitted := fun hf x hx ↦ by
        obtain ⟨j, a, y, ha, -, rfl, hay⟩ := hmem hx
        rcases hay with hay | rfl
        · rw [hay.eq]
          rfl
        · exact hg.uncommitted hf y (List.mem_of_getElem? ha)
      tracks := fun hreg hu k x hx hn ↦ by
        have hgr : t'.Grows t'.clearConcurrency.rebase := by
          rw [Txn.clearConcurrency_rebase]
          exact ⟨rfl, List.Subset.refl _, List.Subset.refl _, fun h ↦ h⟩
        have hhaz : t'.clearConcurrency.rebase.hazards = t'.hazards := by
          rw [Txn.clearConcurrency_rebase]
        have hbase : ∀ y : TableStats, t'.clearConcurrency.rebase.hazards = [] →
            (y.settle t'.hazards.isEmpty).base = y.deltaLog.versions := fun y hh ↦ by
          rw [hhaz] at hh
          simp [TableStats.settle, hh]
        rw [Txn.clearConcurrency_rebase, List.getElem?_map, Option.map_eq_some_iff] at hx
        obtain ⟨y, hy, rfl⟩ := hx
        obtain ⟨a, ha, hay⟩ := hr.tables k y hy
        have ht := (hg.tracks hreg (hu' hu) k a ha (by simp)).mono (hr.grows.trans hgr) .refl
        rcases hay with hay | ⟨-, rfl⟩
        · have hseen := (hay.mono hgr .refl).seen
          refine ⟨fun h₁ _ ↦ ?_, fun u hu ↦ ?_, fun u hu ↦ .inl ?_, fun u hu ↦ .inl ?_,
            fun hh u hu ↦ .inl (hbase y hh ▸ hu)⟩
          · have hc := hg.uncommitted (hreg.firm hl0) a (List.mem_of_getElem? ha)
            rw [hay.eq]
            exact ht.fresh h₁ hc
          · have := hay.replays.logged u hu
            rw [hay.eq]
            exact this
          · have := hay.versions u hu
            rw [hay.eq]
            exact this
          · have hu' : u < a.markerVersion := by
              rw [hay.eq] at hu
              exact hu
            have := hseen u hu'
            rw [hay.eq]
            exact this
        · exact ⟨ht.fresh, ht.logged, ht.below, ht.covered, fun hh u hu ↦ .inl (hbase y hh ▸ hu)⟩
      locally := fun hreg htr hn hu ↦ hl hreg htr hn (hu' hu)
      opened := fun htr hn hf ↦ hg.opened htr hn (hr.opened (by
        rw [Txn.clearConcurrency_rebase] at hf
        exact hf))
      owns :=
        { own := fun hre hor p v as has hv ↦ by
            have hf : Firm sem i := hor.resolve_left (by simp [hl0])
            obtain ⟨y, hy, -, hyc⟩ := hg.owns.own hre hor p v as has hv
            exact absurd hyc (by simp [hg.uncommitted hf y hy])
          written := fun hor x hx hxc _ ↦ by
            have hf : Firm sem i := hor.resolve_left (by simp [hl0])
            obtain ⟨j, a, y, ha, -, rfl, hay⟩ := hmem hx
            rcases hay with hay | rfl
            · rw [hay.eq] at hxc
              cases hxc
            · exact absurd hxc (by
                simp [TableStats.settle, hg.uncommitted hf y (List.mem_of_getElem? ha)]) } }

theorem tracked (hg : Good sem P i c L b t s) (hr : Regular sem i c) (hu : t.Usable) :
    ∀ tbl ∈ t.tables, Tracks P i t s tbl := fun tbl htbl ↦
  have ⟨j, hj⟩ := List.getElem?_of_mem htbl
  hg.tracks hr hu j tbl hj (by simp)

/-- The deferred operations are executed on up-to-date snapshots. -/
theorem executed (hg : Good sem P i c L b t s) (hwf : s.WF) (hl0 : c.levels.l0 = true)
    (hr : Rebuilt P s₀ js t t' s)
    (hop : t'.clearConcurrency.rebase.Operated t''.clearConcurrency.rebase)
    (hl : Regular sem i c → Truthful sem i → c.storageRetries ≠ 0 → t.Usable →
      L' b' t''.clearConcurrency.rebase s) :
    Good sem P i c L' b' t''.clearConcurrency.rebase s := by
  have hg' : Good sem P i c (fun _ _ _ ↦ True) b t'.clearConcurrency.rebase s :=
    hg.settle hwf hl0 hr fun _ _ _ _ ↦ trivial
  have hm : t'.clearConcurrency.rebase.markers = true := by
    rw [Txn.markers, hg'.cfg, Levels.markers, hl0, Bool.true_or]
  refine hg'.operated hop (.inl hm) (fun h ↦ absurd hl0 (by simp [h]))
    fun hreg htr hn hu ↦ hl hreg htr hn ?_
  exact hr.usable hu.settle

end Loading

/-- A predicate on the operations that the protocol, the operations and their redo keep. -/
structure Operable (P : Protocol TxnId Txn Response Store) (i : TxnId)
    (L : Bool → Txn → Store → Prop) : Prop extends Local P i L where
  operate : ∀ {t s op}, L false t s → t.Idle → Sound i t s →
    (∀ tbl ∈ t.tables, Tracks P i t s tbl) → L false (t.operate op) s
  redo : ∀ {t s}, L false t s → Sound i t s → (∀ tbl ∈ t.tables, Tracks P i t s tbl) →
    Caught P t s → t.canRedo = true → L true t.redo.2.clearConcurrency.rebase s
  rebuild : ∀ {t t' s₀ s}, L true t s → Sound i t s → (∀ tbl ∈ t.tables, Tracks P i t s tbl) →
    Caught P t s₀ → Later s₀ s → t.canRedo = true → Rebuilt P s₀ [] t t' s →
    L true t'.clearConcurrency.redo.2.clearConcurrency.rebase s

/-! ## Reading all versions again -/

namespace Disciplined

variable {sem : Semantics TxnId Txn Response Store} {P : Protocol TxnId Txn Response Store}
variable {i : TxnId} {c : Config} {L : Bool → Txn → Store → Prop} {b : Bool}
variable {t t₀ : Txn} {s₀ s : Store} {p : Table}

theorem parseAll (D : Disciplined sem P) (n : ℕ) {v : ℕ} {dl : DeltaLogManager} (hi : P.inv s)
    (hdl : Replays s p dl) {Q : Option DeltaLogManager → Txn → Store → Prop}
    (hnone : ∀ vs t' s', QuietLater i s s' → P.inv s' → vs ⊆ List.range (v + n) →
      Parsed p vs t t' → t'.localLog = t.localLog → Q none t' s')
    (h : ∀ dl' vs t' s', QuietLater i s s' → P.inv s' → vs ⊆ List.range (v + n) →
      Parsed p vs t t' → t'.localLog = t.localLog → Replays s' p dl' →
      dl.versions ⊆ dl'.versions → (∀ u ∈ dl'.versions, u ∈ dl.versions ∨ u < v + n) →
      (∀ u, v ≤ u → u < v + n → Seen P t.markers s' p dl'.versions t'.prevMarkers u) →
      (∀ u, v ≤ u → u < v + n → (s.log p u).isSome → u ∈ dl'.versions) → Q (some dl') t' s') :
    Client.wp sem P i (Tx.parseAll p n v dl) t Q s := by
  induction n generalizing t s v dl with
  | zero =>
    refine Client.wp_pure fun s' hs hi' ↦ h dl [] t s' (D.rely hs) hi' (by simp) .refl rfl
      (hdl.mono (D.rely hs).later) (List.Subset.refl _) (fun u hu ↦ .inl hu) (fun u h₁ h₂ ↦ ?_)
      fun u h₁ h₂ ↦ ?_
    · omega
    · omega
  | succ n ih =>
    unfold Tx.parseAll
    refine Client.wp_bind hi (D.parseVersion hi (fun _ ↦ rfl) (by simp) ?_ ?_)
    · intro s₁ s₂ h₁ _ _ h₂ hi₂
      exact Client.wp_pure fun s₃ h₃ hi₃ ↦
        hnone [] t s₃ (h₁.trans (h₂.trans (D.rely h₃))) hi₃ (by simp) .refl rfl
    · intro dl₁ dep t₁ s₁ h₁ hi₁ hp hfin
      obtain ⟨vs, hvs, hpar⟩ := hp.parsed
      have hrange : v + 1 + n = v + (n + 1) := by omega
      have hvs' : ∀ {vs'}, vs' ⊆ List.range (v + 1 + n) → vs ++ vs' ⊆ List.range (v + (n + 1)) := by
        intro vs' hvs' u hu
        rcases List.mem_append.mp hu with hu | hu
        · have := List.mem_singleton.mp (hvs hu)
          exact List.mem_range.mpr (by omega)
        · exact hrange ▸ hvs' hu
      have hdl₁ : Replays s₁ p dl₁ := by
        rcases hp.deltaLog with rfl | ⟨as, has, rfl⟩
        · exact hdl.mono h₁.later
        · exact (hdl.mono h₁.later).apply has
      have hsub : dl.versions ⊆ dl₁.versions ∧ ∀ u ∈ dl₁.versions, u ∈ dl.versions ∨ u = v := by
        rcases hp.deltaLog with rfl | ⟨as, has, rfl⟩
        · exact ⟨List.Subset.refl _, fun u hu ↦ .inl hu⟩
        · exact ⟨List.subset_cons_self _ _, fun u hu ↦ (List.mem_cons.mp hu).symm⟩
      refine ih hi₁ hdl₁ ?_ ?_
      · intro vs' t' s' hs' hi' hvs'' hpar' hl
        exact hnone (vs ++ vs') t' s' (h₁.trans hs') hi' (hvs' hvs'') (hpar.trans hpar')
          (hl.trans hp.localLog)
      · intro dl' vs' t' s' hs' hi' hvs'' hpar' hl hrep hsub' hver hseen hmerged
        refine h dl' (vs ++ vs') t' s' (h₁.trans hs') hi' (hvs' hvs'') (hpar.trans hpar')
          (hl.trans hp.localLog) hrep (List.Subset.trans hsub.1 hsub') (fun u hu ↦ ?_)
          (fun u hvu hun ↦ ?_)
          fun u hvu hun hlog ↦ ?_
        · rcases hver u hu with hu | hu
          · exact (hsub.2 u hu).imp_right fun he ↦ by omega
          · exact .inr (by omega)
        · rcases Nat.eq_or_lt_of_le hvu with rfl | hlt
          · exact hp.seen.mono hs'.later hsub'
              (hpar'.prevMarkers ▸ List.subset_append_left _ _)
          · exact hpar.markers_eq ▸ hseen u hlt (by omega)
        · rcases Nat.eq_or_lt_of_le hvu with rfl | hlt
          · exact hsub' (hfin rfl hlog)
          · obtain ⟨as, has⟩ := Option.isSome_iff_exists.mp hlog
            exact hmerged u hlt (by omega) (by simp [h₁.later.log_mono has])

theorem rebuildTables (D : Disciplined sem P) (hL : Local P i L) (js : List ℕ)
    (hlt : ∀ j ∈ js, j < t₀.tables.length) (hg : Good sem P i c L b t₀ s)
    (hl0 : c.levels.l0 = true) (hr : Rebuilt P s₀ js t₀ t s) (hs₀ : Later s₀ s) (hi : P.inv s)
    {Q : Bool → Txn → Store → Prop}
    (hfalse : ∀ t' s', QuietLater i s s' → P.inv s' → Sound i t' s' → Q false t' s')
    (htrue : ∀ t' s', QuietLater i s s' → P.inv s' → Rebuilt P s₀ [] t₀ t' s' → Q true t' s') :
    Client.wp sem P i (Tx.rebuildTables js) t Q s := by
  induction js generalizing t s with
  | nil =>
    exact Client.wp_pure fun s' hs hi' ↦
      htrue t s' (D.rely hs) hi' (hr.mono (D.rely hs).later)
  | cons j js ih =>
    have hm₀ : t₀.markers = true := by
      rw [Txn.markers, hg.cfg, Levels.markers, hl0, Bool.true_or]
    unfold Tx.rebuildTables
    refine Client.wp_get_bind ?_
    split
    · next hj =>
      rw [List.getElem?_eq_none_iff, hr.length] at hj
      exact absurd (hlt j List.mem_cons_self) (Nat.not_lt.mpr hj)
    · next tbl hj =>
      obtain ⟨a, ha, hab⟩ := hr.tables j tbl hj
      obtain ⟨hp, hmv, hmk, hclear⟩ : tbl.basePath = a.basePath ∧
          tbl.markerVersion = a.markerVersion ∧ tbl.marker = a.marker ∧ ∀ dl : DeltaLogManager,
            ({ tbl with
              deltaLog := dl, createdFiles := [], deletedFiles := [], committed := false,
              readVersion := tbl.markerVersion - 1 } : TableStats) =
            { a with
              deltaLog := dl, createdFiles := [], deletedFiles := [], committed := false,
              readVersion := a.markerVersion - 1 } := by
        rcases hab with hab | ⟨-, rfl⟩
        · rw [hab.eq]
          exact ⟨rfl, rfl, rfl, fun _ ↦ rfl⟩
        · exact ⟨rfl, rfl, rfl, fun _ ↦ rfl⟩
      have hid : t.transactionId = t₀.transactionId ∧ t.localLog = t₀.localLog := by
        rw [hr.eq]
        exact ⟨rfl, rfl⟩
      let clear : TableStats → TableStats := fun tbl ↦
        { tbl with deltaLog := {}, createdFiles := [], deletedFiles := [], committed := false }
      have hgrow : t₀.Grows (t.modifyTable j clear) := hr.grows.trans (.modifyTable t j clear)
      -- what is remembered while the versions of the table are read
      have hrem : ∀ {vs t₁}, vs ⊆ List.range (0 + tbl.markerVersion) →
          Parsed tbl.basePath vs (t.modifyTable j clear) t₁ → ∀ e ∈ t₁.prevMarkers,
          e ∈ t₀.prevMarkers ∨ t₀.markers = true ∧
            ∃ tbl ∈ t₀.tables, tbl.basePath = e.1 ∧ e.2 < tbl.markerVersion := by
        intro vs t₁ hvs hpar e he
        rw [hpar.prevMarkers, List.mem_append, List.mem_map] at he
        rcases he with he | ⟨u, hu, rfl⟩
        · exact hr.remembered e he
        · have hlt := List.mem_range.mp (hvs hu)
          exact .inr ⟨hm₀, a, List.mem_of_getElem? ha, hp.symm, by dsimp only; omega⟩
      refine Client.wp_modify_bind (Client.wp_bind hi (D.parseAll _ hi .empty ?_ ?_))
      · intro vs t₁ s₁ h₁ hi₁ hvs hpar hl
        refine Client.wp_pure fun s₂ h₂ hi₂ ↦ hfalse t₁ s₂ (h₁.trans (D.rely h₂)) hi₂ ?_
        have hs : QuietLater i s s₂ := h₁.trans (D.rely h₂)
        refine (hg.sound.mono hs.later).behind (D.wf hi₂) ?_ ?_ hm₀ (fun x hx ↦ ?_) ?_
          (hrem hvs hpar)
        · exact hpar.id.trans hid.1
        · exact hpar.markers_eq.trans (hr.grows.markers.trans hm₀)
        · rw [hpar.tables] at hx
          rcases List.mem_modify hx with hx | ⟨y, hy, rfl⟩
          · obtain ⟨k, hk⟩ := List.getElem?_of_mem hx
            obtain ⟨y, hy, hyx⟩ := hr.tables k x hk
            refine ⟨y, List.mem_of_getElem? hy, ?_⟩
            rcases hyx with hyx | ⟨-, rfl⟩
            · rw [hyx.eq]
              exact ⟨rfl, rfl, rfl, .inr rfl⟩
            · exact ⟨rfl, rfl, rfl, .inl rfl⟩
          · obtain rfl := Option.some.inj (hj.symm.trans hy)
            refine ⟨a, List.mem_of_getElem? ha, hp, hmk, hmv, ?_⟩
            rcases hab with hab | ⟨-, rfl⟩
            · rw [hab.eq]
              exact .inr rfl
            · exact .inl rfl
        · exact hl.trans hid.2
      · intro dl vs t₁ s₁ h₁ hi₁ hvs hpar hl hrep _ hver hseen hmerged
        refine Client.wp_modify_bind (ih (fun k hk ↦ hlt k (List.mem_cons_of_mem _ hk))
          (hg.mono hL h₁) ?_ (hs₀.trans h₁.later) hi₁ (fun t' s' hs' ↦ hfalse t' s' (h₁.trans hs'))
          fun t' s' hs' ↦ htrue t' s' (h₁.trans hs'))
        have hpar : Parsed tbl.basePath vs (t.modifyTable j clear) t₁ := hpar
        have hremembered := hrem hvs hpar
        have hgr₁ : t₁.Grows (t₁.modifyTable j fun tbl ↦
            { tbl with deltaLog := dl, readVersion := tbl.markerVersion - 1 }) := .modifyTable ..
        refine ⟨?_, hgrow.trans (hpar.grows.trans hgr₁), fun hf ↦ hr.opened (hpar.opened hf),
          hremembered, ?_, fun k x hx ↦ ?_⟩
        · have hl : t₁.localLog = t.localLog := hl
          rw [hpar.eq, hl, hr.eq]
          rfl
        · show (t₁.tables.modify j _).length = _
          rw [List.length_modify, hpar.tables]
          exact (List.length_modify ..).trans hr.length
        · rcases List.getElem?_modify_eq_some hx with ⟨rfl, y, hy, rfl⟩ | ⟨hne, hx'⟩
          · rw [hpar.tables] at hy
            rcases List.getElem?_modify_eq_some hy with ⟨-, z, hz, rfl⟩ | ⟨hf, -⟩
            · obtain rfl := Option.some.inj (hj.symm.trans hz)
              refine ⟨a, ha, .inl ⟨hclear dl, hp ▸ hrep, fun u hu ↦ ?_, fun u hu ↦ ?_,
                fun u hu hlog ↦ ?_⟩⟩
              · rcases hver u hu with hu | hu
                · cases hu
                · omega
              · rw [← hp]
                exact hgr₁.markers ▸ hpar.markers_eq ▸
                  hseen u (Nat.zero_le u) (by omega)
              · obtain ⟨as, has⟩ := Option.isSome_iff_exists.mp hlog
                refine hmerged u (Nat.zero_le u) (by omega) ?_
                simp [hp, hs₀.log_mono has]
            · exact absurd rfl hf
          · rw [hpar.tables] at hx'
            rcases List.getElem?_modify_eq_some hx' with ⟨hf, -⟩ | ⟨-, hx''⟩
            · exact absurd hf hne
            · obtain ⟨y, hy, hyx⟩ := hr.tables k x hx''
              refine ⟨y, hy, ?_⟩
              rcases hyx with hyx | ⟨hk, rfl⟩
              · refine .inl (hyx.mono ?_ h₁.later)
                exact (Txn.Grows.modifyTable t j clear).trans (hpar.grows.trans hgr₁)
              · exact .inr ⟨(List.mem_cons.mp hk).resolve_left hne, rfl⟩

theorem rebuildState (D : Disciplined sem P) (hL : Local P i L) (hg : Good sem P i c L b t s)
    (hl0 : c.levels.l0 = true) (hi : P.inv s) {Q : Bool → Txn → Store → Prop}
    (hfalse : ∀ t' s', QuietLater i s s' → P.inv s' → Sound i t' s' → Q false t' s')
    (htrue : ∀ t' s', QuietLater i s s' → P.inv s' → Rebuilt P s [] t t' s' →
      Q true t'.clearConcurrency s') :
    Client.wp sem P i Tx.rebuildState t Q s := by
  refine Client.wp_get_bind (Client.wp_bind hi (D.rebuildTables hL _
    (fun j hj ↦ List.mem_range.mp hj) hg hl0 (.refl t) .refl hi ?_ ?_))
  · intro t' s' hs hi' hsound
    exact Client.wp_pure fun s₁ h₁ hi₁ ↦
      hfalse t' s₁ (hs.trans (D.rely h₁)) hi₁ (hsound.mono (D.rely h₁).later)
  · intro t' s' hs hi' hr
    exact Client.wp_modify_bind (Client.wp_pure fun s₁ h₁ hi₁ ↦
      htrue t' s₁ (hs.trans (D.rely h₁)) hi₁ (hr.mono (D.rely h₁).later))

end Disciplined

/-! ## Conflicts -/

/-- Nothing stands in the way of writing: the versions below the reserved ones are final, no
conflict was found, and deferred operations are executed. -/
structure Clear (sem : Semantics TxnId Txn Response Store) (P : Protocol TxnId Txn Response Store)
    (i : TxnId) (c : Config) (b : Bool) (t : Txn) (s : Store) : Prop where
  caught : Regular sem i c → t.Usable → Caught P t s
  conflict : t.conflict = false
  redone : t.canRedo = true → b = true

theorem Clear.mono {sem : Semantics TxnId Txn Response Store}
    {P : Protocol TxnId Txn Response Store} {i : TxnId} {c : Config} {b : Bool} {t : Txn}
    {s s' : Store} (h : Clear sem P i c b t s) (hs : Later s s') :
    Clear sem P i c b t s' :=
  ⟨fun hr hu ↦ (h.caught hr hu).mono hs, h.conflict, h.redone⟩

/-- Without concurrent changes there is no conflict. -/
theorem Txn.clearConcurrency_conflict (t : Txn) :
    t.clearConcurrency.rebase.conflict = false := by
  have hw : t.clearConcurrency.rebase.hasWriteConflict = false := by
    rw [Txn.clearConcurrency_rebase, Txn.hasWriteConflict, List.any_map, List.any_eq_false]
    intro tbl _
    simp [TableStats.settle]
  have hr : t.clearConcurrency.rebase.hasReadConflict = false := by
    rw [Txn.clearConcurrency_rebase, Txn.hasReadConflict, List.any_map, List.any_eq_false]
    intro tbl _
    simp [TableStats.settle]
  unfold Txn.conflict
  split <;> simp [hw, hr]

theorem Caught.of_tables {P : Protocol TxnId Txn Response Store} {t t' : Txn} {s : Store}
    (h : Caught P t s) (hm : t'.markers = t.markers)
    (ht : ∀ x ∈ t'.tables, ∃ y ∈ t.tables, x.basePath = y.basePath ∧
      x.markerVersion = y.markerVersion ∧ x.deltaLog.versions = y.deltaLog.versions) :
    Caught P t' s := by
  intro x hx u hu
  obtain ⟨y, hy, hp, hmv, hv⟩ := ht x hx
  rw [hp, hv, hm]
  exact h y hy u (hmv ▸ hu)

theorem Caught.settle {P : Protocol TxnId Txn Response Store} {t : Txn} {s : Store}
    (h : Caught P t s) : Caught P t.clearConcurrency.rebase s := by
  rw [Txn.clearConcurrency_rebase]
  refine h.of_tables rfl fun x hx ↦ ?_
  obtain ⟨y, hy, rfl⟩ := List.mem_map.mp hx
  exact ⟨y, hy, rfl, rfl, rfl⟩

theorem Caught.operated {P : Protocol TxnId Txn Response Store} {t t' : Txn} {s : Store}
    (h : Caught P t s) (hop : t.Operated t') : Caught P t' s := by
  refine h.of_tables hop.grows.markers fun x hx ↦ ?_
  obtain ⟨y, hy, hyx⟩ := hop.tables.exists_left hx
  refine ⟨y, hy, ?_⟩
  rw [hyx.versions, hyx.eq]
  exact ⟨rfl, rfl, rfl⟩

/-- All versions below the reserved ones are in the new snapshots. -/
theorem Rebuilt.caught {P : Protocol TxnId Txn Response Store} {i : TxnId} {t t' : Txn}
    {s₀ s : Store} (hr : Rebuilt P s₀ [] t t' s) (hc : Caught P t s₀) (hm : t.markers = true)
    (ht : ∀ tbl ∈ t.tables, Tracks P i t s₀ tbl) : Caught P t' s := by
  intro x hx u hu
  obtain ⟨j, hj⟩ := List.getElem?_of_mem hx
  obtain ⟨a, ha, hab⟩ := hr.tables j x hj
  have hab := hab.resolve_right (by simp)
  have ha := List.mem_of_getElem? ha
  have hp : x.basePath = a.basePath ∧ x.markerVersion = a.markerVersion := by
    rw [hab.eq]
    exact ⟨rfl, rfl⟩
  rw [hp.2] at hu
  refine .inl (.inl (hab.merged u hu ?_))
  rcases hc a ha u hu with (h | h | h) | h
  · obtain ⟨as, has⟩ := (ht a ha).logged u h
    simp [has]
  · cases h
  · exact absurd hm (by simp [h.1])
  · simp [h]

namespace Disciplined

variable {sem : Semantics TxnId Txn Response Store} {P : Protocol TxnId Txn Response Store}
variable {i : TxnId} {c : Config} {L : Bool → Txn → Store → Prop} {b : Bool}
variable {t : Txn} {s : Store} {st : Tx.CommitState}

/-- A redo that is executed on up-to-date snapshots leads to a state without conflicts. -/
theorem redoRound (D : Disciplined sem P) (hL : Local P i L) {t₀ : Txn}
    (hg : Good sem P i c L true t₀.clearConcurrency.rebase s)
    (hc : Regular sem i c → t₀.clearConcurrency.rebase.Usable →
      Caught P t₀.clearConcurrency.rebase s)
    (ht : t₀ = t.redo.2) {Q : Tx.CommitState → Txn → Store → Prop}
    (h : ∀ st' t' s', QuietLater i s s' → P.inv s' → st'.redoDone = true →
      Good sem P i c L true t' s' → Clear sem P i c true t' s' → Q st' t' s') :
    Client.wp sem P i (Tx.redoRound st) t Q s := by
  subst ht
  refine Client.wp_modify_bind (Client.wp_pure fun s' hs hi' ↦ ?_)
  exact h _ _ s' (D.rely hs) hi' rfl (hg.mono hL (D.rely hs))
    ⟨fun hreg hu ↦ (hc hreg hu).mono (D.rely hs).later, Txn.clearConcurrency_conflict _,
      fun _ ↦ rfl⟩

theorem redoAgain (D : Disciplined sem P) (hL : Operable P i L)
    (hg : Good sem P i c L true t s) (hc : Regular sem i c → t.Usable → Caught P t s)
    (hredo : t.canRedo = true) (hi : P.inv s) {Q : Option Tx.CommitState → Txn → Store → Prop}
    (hnone : ∀ t' s', QuietLater i s s' → P.inv s' → Q none t' s')
    (hsome : ∀ st' t' s', QuietLater i s s' → P.inv s' → st'.redoDone = true →
      Good sem P i c L true t' s' → Clear sem P i c true t' s' → Q (some st') t' s') :
    Client.wp sem P i (Tx.redoAgain st) t Q s := by
  have hl0 : c.levels.l0 = true := by
    rw [← hg.cfg]
    exact (Bool.and_eq_true_iff.mp hredo).2
  have hm : t.markers = true := by
    rw [Txn.markers, hg.cfg, Levels.markers, hl0, Bool.true_or]
  have habort : ∀ t₁ s₁, QuietLater i s s₁ → P.inv s₁ → Sound i t₁ s₁ →
      Client.wp sem P i (do Tx.abort false; pure none : Tx (Option Tx.CommitState)) t₁ Q s₁ :=
    fun t₁ s₁ h₁ hi₁ hsound ↦
      Client.wp_bind hi₁ (D.abort false hsound hi₁ fun t₂ s₂ h₂ hi₂ _ _ ↦
        Client.wp_pure fun s₃ h₃ hi₃ ↦ hnone t₂ s₃ (h₁.trans (h₂.trans (D.rely h₃))) hi₃)
  refine Client.wp_get_bind (Client.wp_ite (fun _ ↦ habort t s .refl hi hg.sound) fun _ ↦ ?_)
  refine Client.wp_bind hi (D.rebuildState hL.toLocal hg hl0 hi ?_ ?_)
  · exact fun t₁ s₁ h₁ hi₁ hsound ↦ habort t₁ s₁ h₁ hi₁ hsound
  · intro t₁ s₁ h₁ hi₁ hr
    have hg₁ := hg.mono hL.toLocal h₁
    have hop : t₁.clearConcurrency.rebase.Operated
        t₁.clearConcurrency.redo.2.clearConcurrency.rebase := by
      have := t₁.clearConcurrency.redo_operated.settle
      rwa [Txn.clearConcurrency_idem] at this
    refine Client.wp_bind hi₁ (D.redoRound (c := c) hL.toLocal ?_ (fun hreg hu ↦ ?_) rfl
      fun st' t' s' hs' hi' hst hg' hcl ↦ Client.wp_pure fun s₂ h₂ hi₂ ↦ ?_)
    · exact hg₁.executed (D.wf hi₁) hl0 hr hop fun hreg htr hn hu ↦
        hL.rebuild (hg₁.locally hreg htr hn hu) hg₁.sound (hg₁.tracked hreg hu) (hc hreg hu)
          h₁.later hredo hr
    · have hu₁ : t.Usable := hr.usable (hop.usable hu).settle
      exact ((hr.caught (hc hreg hu₁) hm (hg.tracked hreg hu₁)).settle).operated hop
    · exact hsome st' t' s₂ (h₁.trans (hs'.trans (D.rely h₂))) hi₂ hst
        (hg'.mono hL.toLocal (D.rely h₂)) (hcl.mono (D.rely h₂).later)

/-- Conflicts are found, and deferred operations are executed. -/
theorem resolveConflicts (D : Disciplined sem P) (hL : Operable P i L)
    (hg : Good sem P i c L st.redoDone t s)
    (hc : Regular sem i c → t.Usable → Caught P t s) (hi : P.inv s)
    {Q : Option Tx.CommitState → Txn → Store → Prop}
    (hnone : ∀ t' s', QuietLater i s s' → P.inv s' → Q none t' s')
    (hsome : ∀ st' t' s', QuietLater i s s' → P.inv s' → Good sem P i c L st'.redoDone t' s' →
      Clear sem P i c st'.redoDone t' s' → Q (some st') t' s') :
    Client.wp sem P i (Tx.resolveConflicts st) t Q s := by
  have hkeep : t.conflict = false → (t.canRedo = true → st.redoDone = true) →
      Client.wp sem P i (pure (some st) : Tx (Option Tx.CommitState)) t Q s := fun hcf hd ↦
    Client.wp_pure fun s' hs hi' ↦ hsome st t s' (D.rely hs) hi' (hg.mono hL.toLocal (D.rely hs))
      ⟨fun hreg hu ↦ (hc hreg hu).mono (D.rely hs).later, hcf, hd⟩
  refine Client.wp_get_bind (Client.wp_ite (fun hredo ↦ ?_) fun hredo ↦ ?_)
  · refine Client.wp_ite (fun hd ↦ Client.wp_ite (fun _ ↦ ?_) fun hcf ↦ ?_) fun hd ↦ ?_
    · rw [hd] at hg
      refine D.redoAgain hL hg hc hredo hi hnone fun st' t' s' hs' hi' hst hg' hcl ↦ ?_
      exact hsome st' t' s' hs' hi' (hst ▸ hg') (hst ▸ hcl)
    · exact hkeep (by simpa using hcf) fun _ ↦ hd
    · have hl0 : c.levels.l0 = true := by
        rw [← hg.cfg]
        exact (Bool.and_eq_true_iff.mp hredo).2
      have hop := t.redo_operated
      have hd : st.redoDone = false := by simpa using hd
      rw [hd] at hg
      refine Client.wp_bind hi (D.redoRound (c := c) hL.toLocal ?_ (fun hreg hu ↦ ?_) rfl
        fun st' t' s' hs' hi' hst hg' hcl ↦ Client.wp_pure fun s₂ h₂ hi₂ ↦ ?_)
      · have hr : Rebuilt P s (List.range t.tables.length) t t s := .refl t
        exact hg.executed (D.wf hi) hl0 hr hop.settle fun hreg htr hn hu ↦
          hL.redo (hg.locally hreg htr hn hu) hg.sound (hg.tracked hreg hu) (hc hreg hu) hredo
      · have hu₁ : t.Usable := (hop.settle.usable hu).settle
        exact (hc hreg hu₁).settle.operated hop.settle
      · exact hsome st' t' s₂ (hs'.trans (D.rely h₂)) hi₂
          (hst ▸ hg'.mono hL.toLocal (D.rely h₂)) (hst ▸ hcl.mono (D.rely h₂).later)
  · refine Client.wp_ite (fun _ ↦ ?_) fun hcf ↦ hkeep (by simpa using hcf) fun h ↦ absurd h hredo
    exact Client.wp_bind hi (D.abort false hg.sound hi fun t₂ s₂ h₂ hi₂ _ _ ↦
      Client.wp_pure fun s₃ h₃ hi₃ ↦ hnone t₂ s₃ (h₂.trans (D.rely h₃)) hi₃)

end Disciplined

end LakeVilla

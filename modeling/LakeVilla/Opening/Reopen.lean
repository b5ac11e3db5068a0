import LakeVilla.Opening.Load

/-!
# Opening tables again alone

`reopenTables` loads every table again. It returns if the tables show no transaction twice, and goes
on forever otherwise: in the next round they show the same transactions again.
-/

namespace LakeVilla.Opening

open Concurrency

variable {i : TxnId} {D : Prop} {t : Txn} {s s₀ : Store} {mks : List Marker}

/-- Each table holds its own marker if `again`, and none otherwise. -/
def HeldAs (again : Bool) (tbls : List TableStats) : Prop :=
  ∀ tbl ∈ tbls, tbl.held.map (·.table) = if again then [tbl.basePath] else []

theorem HeldAs.heldBy {again : Bool} {tbls : List TableStats} (h : HeldAs again tbls) :
    (heldBy tbls).map (·.table) = if again then tbls.map (·.basePath) else [] := by
  induction tbls with
  | nil => cases again <;> rfl
  | cons tbl tbls ih =>
    have htbl := h tbl (List.mem_cons_self ..)
    have htbls := ih fun tbl' h' ↦ h tbl' (List.mem_cons_of_mem _ h')
    rw [heldBy_cons, List.map_append, htbl, htbls]
    cases again <;> rfl

theorem HeldAs.append {again : Bool} {tbls tbls' : List TableStats} (h : HeldAs again tbls)
    (h' : HeldAs again tbls') : HeldAs again (tbls ++ tbls') := fun tbl htbl ↦
  (List.mem_append.mp htbl).elim (h tbl) (h' tbl)

theorem HeldAs.giveUp (tbls : List TableStats) :
    HeldAs false (tbls.map TableStats.giveUp) := by
  intro tbl htbl
  obtain ⟨tbl, -, rfl⟩ := List.mem_map.mp htbl
  rw [TableStats.held_giveUp]
  rfl

/-- The tables were loaded again; `seen` are the transactions that they have shown. -/
structure Reloaded (i : TxnId) (s₀ : Store) (mks : List Marker) (t : Txn)
    (before rest : List TableStats) (seen : List TxnId) (t' : Txn) (s : Store)
    (rest' : List TableStats) : Prop where
  cfg : t'.cfg = t.cfg
  transactionId : t'.transactionId = t.transactionId
  tables : t'.tables = before ++ rest'
  paths : rest'.map (·.basePath) = rest.map (·.basePath)
  held : HeldAs true rest'
  alone : Alone i s₀ s (heldBy rest' ++ mks)
  relation : t'.relation.Perm (seen ++ t.relation)

theorem loadTables {fuel : ℕ} {dep again : Bool} {before rest : List TableStats}
    (hfuel : D ∨ 0 < fuel) (hid : t.transactionId = i) (hl1 : t.cfg.levels.l1 = true)
    (hl2 : t.cfg.levels.l2 = false) (ht : t.tables = before ++ rest) (hheld : HeldAs again rest)
    (hloads : ∀ tbl ∈ rest, Loads t.cfg s₀ tbl.basePath) (hs : Alone i s₀ s (heldBy rest ++ mks))
    {Q : Option Bool → Txn → Store → Prop}
    (h : ∀ dep' t' s' rest', Reloaded i s₀ mks t before rest (seenAgain s₀.running i again
        (mks.map (·.table)) (rest.map (·.basePath))) t' s' rest' →
      (dep' = true ↔ dep = true ∨ ¬Fresh t.relation (seenAgain s₀.running i again
        (mks.map (·.table)) (rest.map (·.basePath)))) → Q (some dep') t' s') :
    Client.solo (served false) i D (Tx.loadTables fuel (List.range' before.length rest.length) dep)
      t Q s := by
  induction rest generalizing t s before mks dep with
  | nil =>
    refine Client.solo_pure (h dep t s [] ⟨rfl, rfl, ht, rfl, nofun, hs, .refl _⟩ ?_)
    simp [seenAgain]
  | cons tbl rest ih =>
    have hj : t.tables[before.length]? = some tbl := by rw [ht, List.getElem?_append_cons]
    have hrest : HeldAs again rest := fun tbl' h' ↦ hheld tbl' (List.mem_cons_of_mem _ h')
    rw [heldBy_cons, List.append_assoc] at hs
    refine Client.solo_get_bind ?_
    rw [hj]
    refine Client.solo_bind (loadTable hfuel hid hl1 hl2 hs
      (fun _ tbl' mk dep' t' s' hpath hmk htable hs' hreg hdep ↦ ?_)
      fun hnot ↦ absurd (hloads tbl (List.mem_cons_self ..)) hnot)
    -- what the table has shown is the head of `seenAgain`
    have hshown : seen s₀.running i ((heldBy rest ++ mks).map (·.table)) tbl.basePath =
        seen s₀.running i (mks.map (·.table) ++
          if again then rest.map (·.basePath) else []) tbl.basePath := by
      rw [List.map_append, hrest.heldBy]
      exact seen_congr List.perm_append_comm
    rw [hshown] at hreg hdep
    have hmodify : t'.tables.modify before.length (fun _ ↦ tbl') = before ++ tbl' :: rest := by
      rw [hreg.tables, ht, List.modify_append_cons]
    refine Client.solo_bind (Client.solo_modify ?_)
    rw [if_pos rfl]
    have hlen : before.length + 1 = (before ++ [tbl']).length := by simp
    change Client.solo _ _ _ (Tx.loadTables fuel (List.range' (before.length + 1) rest.length) dep')
      _ _ _
    rw [hlen]
    refine ih (hreg.transactionId.trans hid) (hreg.cfg ▸ hl1) (hreg.cfg ▸ hl2) (by simp [hmodify])
      hrest (fun tbl₂ h₂ ↦ hreg.cfg ▸ hloads tbl₂ (List.mem_cons_of_mem _ h₂))
      (hs'.perm List.perm_middle.symm) fun dep'' t'' s'' rest' hl hdep' ↦ ?_
    rw [List.map_cons, htable] at hl hdep'
    refine h dep'' t'' s'' (tbl' :: rest') ⟨hl.cfg.trans hreg.cfg,
      hl.transactionId.trans hreg.transactionId, by simp [hl.tables], by simp [hl.paths, hpath],
      ?_, ?_, ?_⟩ ?_
    · intro tbl₂ h₂
      obtain rfl | h₂ := List.mem_cons.mp h₂
      · rw [hmk, List.map_singleton, htable, hpath]
        rfl
      · exact hl.held tbl₂ h₂
    · rw [heldBy_cons, hmk]
      exact hl.alone.perm List.perm_middle
    · refine hl.relation.trans ((hreg.relation.append_left _).trans ?_)
      rw [← List.append_assoc]
      exact List.perm_append_comm.append_right _
    · rw [hdep', hdep, or_assoc, fresh_congr hreg.relation (.refl _), ← not_and_or, ← fresh_append]
      rfl

/-! ## The loops -/

/-- All tables were opened again; `seen` are the transactions that they have shown. -/
structure Reopened (i : TxnId) (s₀ : Store) (mks : List Marker) (t : Txn) (seen : List TxnId)
    (t' : Txn) (s : Store) : Prop where
  cfg : t'.cfg = t.cfg
  transactionId : t'.transactionId = t.transactionId
  paths : t'.tables.map (·.basePath) = t.tables.map (·.basePath)
  held : HeldAs true t'.tables
  alone : Alone i s₀ s (heldBy t'.tables ++ mks)
  relation : t'.relation.Perm seen

theorem parseGlobalSnapshots (hl2 : t.cfg.levels.l2 = false) {Q : Unit → Txn → Store → Prop}
    (h : Q () t s) : Client.solo (served false) i D Tx.parseGlobalSnapshots t Q s := by
  refine Client.solo_get_bind ?_
  rw [hl2]
  exact Client.solo_pure h

theorem resetSnapshots (hl2 : t.cfg.levels.l2 = false) {Q : Unit → Txn → Store → Prop}
    (h : Q () { t with relation := [] } s) :
    Client.solo (served false) i D Tx.resetSnapshots t Q s := by
  have ht : { t with relation := [], localLog := if t.cfg.levels.l2 then [] else t.localLog } =
      { t with relation := [] } := by rw [hl2]; rfl
  refine Client.solo_modify_bind ?_
  rw [ht]
  exact parseGlobalSnapshots (t := { t with relation := [] }) hl2 h

/-- **Opening again.** A round in which no transaction is seen twice is the last one. -/
theorem reopenTables {fuel : ℕ} {again retry : Bool}
    (hD : D ∨ 1 < fuel ∧ (seenAgain s₀.running i again (mks.map (·.table))
      (t.tables.map (·.basePath))).Nodup)
    (hid : t.transactionId = i) (hl1 : t.cfg.levels.l1 = true) (hl2 : t.cfg.levels.l2 = false)
    (hheld : HeldAs again t.tables) (hloads : ∀ p ∈ t.tables.map (·.basePath), Loads t.cfg s₀ p)
    (hs : Alone i s₀ s (heldBy t.tables ++ mks)) {Q : Bool → Txn → Store → Prop}
    (h : (seenAgain s₀.running i again (mks.map (·.table)) (t.tables.map (·.basePath))).Nodup →
      ∀ t' s', Reopened i s₀ mks t (seenAgain s₀.running i again (mks.map (·.table))
        (t.tables.map (·.basePath))) t' s' → Q true t' s') :
    Client.solo (served false) i D (Tx.reopenTables fuel retry) t Q s := by
  induction fuel generalizing t s again retry with
  | zero => exact Client.solo_diverge (hD.resolve_right fun h ↦ Nat.not_lt_zero _ h.1)
  | succ fuel ih =>
    refine Client.solo_bind (resetSnapshots hl2 (Client.solo_get_bind ?_))
    rw [List.range_eq_range']
    have hfuel : D ∨ 0 < fuel := hD.imp_right fun h ↦ Nat.lt_of_succ_lt_succ h.1
    refine Client.solo_bind (loadTables (t := { t with relation := [] }) hfuel hid hl1 hl2
      (List.nil_append _).symm hheld (fun tbl htbl ↦ hloads _ (List.mem_map_of_mem htbl)) hs
      fun dep' t' s' rest' hl hdep ↦ ?_)
    obtain rfl : t'.tables = rest' := hl.tables
    rw [fresh_nil_left] at hdep
    cases dep' with
    | false =>
      have hnodup := not_not.mp fun hn ↦ Bool.false_ne_true (hdep.mpr (.inr hn))
      refine Client.solo_pure (h hnodup t' s' ⟨hl.cfg, hl.transactionId, hl.paths, hl.held,
        hl.alone, ?_⟩)
      simpa using hl.relation
    | true =>
      -- the next round sees the same transactions again
      have hagain := (hdep.mp rfl).resolve_left Bool.false_ne_true
      refine ih (hD.imp_right fun h ↦ absurd h.2 hagain) (hl.transactionId.trans hid)
        (hl.cfg ▸ hl1) (hl.cfg ▸ hl2) hl.held ?_ hl.alone fun hnodup ↦ ?_
      · rw [hl.paths]
        exact hl.cfg ▸ hloads
      · rw [hl.paths] at hnodup
        exact absurd hnodup (not_nodup_again hagain)

/-- The loop of `openTableV2`: the tables have given up their markers, the new one has not. -/
theorem reopenUntilFixed {fuel : ℕ}
    (hD : D ∨ 2 < fuel ∧ (seenAgain s₀.running i false (mks.map (·.table))
      (t.tables.map (·.basePath))).Nodup)
    (hid : t.transactionId = i) (hl1 : t.cfg.levels.l1 = true) (hl2 : t.cfg.levels.l2 = false)
    (hloads : ∀ p ∈ t.tables.map (·.basePath), Loads t.cfg s₀ p)
    (hs : Alone i s₀ s (heldBy t.tables ++ mks)) {Q : Unit → Txn → Store → Prop}
    (h : (seenAgain s₀.running i false (mks.map (·.table)) (t.tables.map (·.basePath))).Nodup →
      ∀ t' s', Reopened i s₀ mks t (seenAgain s₀.running i false (mks.map (·.table))
        (t.tables.map (·.basePath))) t' s' → Q () t' s') :
    Client.solo (served false) i D (Tx.reopenUntilFixed fuel) t Q s := by
  cases fuel with
  | zero => exact Client.solo_diverge (hD.resolve_right fun h ↦ Nat.not_lt_zero _ h.1)
  | succ fuel =>
    have hm : t.markers = true := by simp [Txn.markers, Levels.markers, hl1]
    refine Client.solo_bind (abort hm hs fun s₁ sublog hs₁ ↦ ?_)
    have hpaths : (t.tables.map TableStats.giveUp).map (·.basePath) = t.tables.map (·.basePath) := by
      simp
    have hs₁' : Alone i s₀ s₁ (heldBy (t.tables.map TableStats.giveUp) ++ mks) := by
      rw [heldBy_giveUp]
      exact hs₁
    refine Client.solo_bind (reopenTables
      (t := { t with tables := t.tables.map TableStats.giveUp, sublog := sublog })
      (hpaths ▸ hD.imp_right fun h ↦ ⟨Nat.lt_of_succ_lt_succ h.1, h.2⟩) hid hl1 hl2
      (HeldAs.giveUp t.tables) (hpaths ▸ hloads) hs₁' fun hnodup t' s' hr ↦ ?_)
    rw [hpaths] at hnodup hr
    exact Client.solo_pure (h hnodup t' s'
      ⟨hr.cfg, hr.transactionId, hr.paths.trans hpaths, hr.held, hr.alone, hr.relation⟩)

end LakeVilla.Opening

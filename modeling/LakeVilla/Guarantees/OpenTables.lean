import LakeVilla.Opening.Reopen
import LakeVilla.Transaction.System

/-!
# Opening tables comes to an end

A level-1 transaction opens tables while all other transactions have stopped. It returns if and only
if no table shows a transaction that is registered already while the tables opened before show one
twice (`Opening.Ends`). Nothing replaces the running markers of a stopped transaction while tables
are opened, so two of them in the opened tables are seen again in every round.
-/

namespace LakeVilla

open Concurrency Opening

/-! ## The tables of a transaction -/

namespace Tx

/-- `open_new_table` for one table after the other, until one cannot be opened. -/
def openNewTables (fuel : ℕ) : List Table → Tx Bool
  | [] => pure true
  | p :: ps => do
    if ← openNewTable fuel p then openNewTables fuel ps else pure false

end Tx

/-! ## Opening one table -/

/-- The transaction has opened tables, and the transactions whose markers it saw are registered. -/
structure Opened (i : TxnId) (c : Config) (s₀ : Store) (opened : List Table)
    (registered : List TxnId) (t : Txn) (s : Store) : Prop where
  cfg : t.cfg = c
  transactionId : t.transactionId = i
  paths : t.tables.map (·.basePath) = opened
  held : HeldAs true t.tables
  alone : Alone i s₀ s (heldBy t.tables)
  relation : t.relation.Perm registered
  loads : ∀ p ∈ opened, Loads c s₀ p

section Open

variable {i : TxnId} {c : Config} {s₀ s : Store} {opened : List Table} {registered : List TxnId}
variable {t : Txn} {p : Table} {D : Prop} {fuel : ℕ}

theorem Opened.initial (i : TxnId) (c : Config) (s : Store) :
    Opened i c s [] [] { cfg := c, transactionId := i } s where
  cfg := rfl
  transactionId := rfl
  paths := rfl
  held := nofun
  alone := .refl i s
  relation := .refl _
  loads := nofun

/-- The tables show what `Opening.seen` says. -/
theorem Opened.heldBy (h : Opened i c s₀ opened registered t s) :
    (heldBy t.tables).map (·.table) = opened := by
  rw [h.held.heldBy, if_pos rfl, h.paths]

theorem openTableV2 (ho : Opened i c s₀ opened registered t s) (hl1 : c.levels.l1 = true)
    (hl2 : c.levels.l2 = false)
    (hD : D ∨ 2 < fuel ∧
      (Loads c s₀ p → (opening s₀.running i opened registered p).isSome = true))
    {Q : Option TableStats → Txn → Store → Prop}
    (hok : Loads c s₀ p → ∀ tbl t' s', ∀ registered' ∈ opening s₀.running i opened registered p,
      Opened i c s₀ (opened ++ [p]) registered' { t' with tables := t'.tables ++ [tbl] } s' →
      Q (some tbl) t' s')
    (hfail : ¬Loads c s₀ p → ∀ registered' t' s', Opened i c s₀ opened registered' t' s' →
      Q none t' s') :
    Client.solo (served false) i D (Tx.openTableV2 fuel p) t Q s := by
  have hfuel : D ∨ 0 < fuel := hD.imp_right fun h ↦ Nat.lt_of_le_of_lt (Nat.zero_le 2) h.1
  obtain rfl := ho.cfg
  have hs : Alone i s₀ s (TableStats.held { basePath := p } ++ heldBy t.tables) := ho.alone
  refine Client.solo_bind (loadTable hfuel ho.transactionId hl1 hl2 hs ?_ ?_)
  · intro hload tbl mk dep' t' s' hpath hmk htable hs hreg hdep
    rw [ho.heldBy] at hreg hdep
    rw [fresh_congr ho.relation (.refl _)] at hdep
    have hloads : ∀ q ∈ opened ++ [p], Loads t.cfg s₀ q := fun q hq ↦
      (List.mem_append.mp hq).elim (ho.loads q) fun hq ↦ List.mem_singleton.mp hq ▸ hload
    have htbl : HeldAs true [tbl] := fun tbl' htbl' ↦ by
      rw [List.mem_singleton.mp htbl', hmk, List.map_singleton, htable, hpath]
      rfl
    cases dep' with
    | false =>
      have hfresh := not_not.mp fun hn ↦ Bool.false_ne_true (hdep.mpr (.inr hn))
      refine Client.solo_pure (hok hload tbl t' s' (seen s₀.running i opened p ++ registered)
        (if_pos hfresh) ⟨hreg.cfg, hreg.transactionId.trans ho.transactionId, ?_, ?_, ?_, ?_, hloads⟩)
      · simp [hreg.tables, ho.paths, hpath]
      · rw [hreg.tables]
        exact ho.held.append htbl
      · rw [hreg.tables, heldBy_append, heldBy_cons, hmk, heldBy_nil, List.append_nil]
        exact hs.perm (List.perm_append_singleton mk _).symm
      · exact hreg.relation.trans (ho.relation.append_left _)
    | true =>
      have hnot := (hdep.mp rfl).resolve_left Bool.false_ne_true
      have hpaths : t'.tables.map (·.basePath) = opened := by rw [hreg.tables, ho.paths]
      have hmks : [mk].map (·.table) = [p] := congrArg (fun q ↦ [q]) htable
      have hopening : opening s₀.running i opened registered p =
          if (seenAgain s₀.running i false [p] opened).Nodup then
            some (seenAgain s₀.running i false [p] opened) else none := if_neg hnot
      have hs' : Alone i s₀ s' (heldBy t'.tables ++ [mk]) := by
        rw [hreg.tables]
        exact hs.perm (List.perm_append_singleton mk _).symm
      refine Client.solo_bind (reopenUntilFixed ?_ (hreg.transactionId.trans ho.transactionId)
        (hreg.cfg ▸ hl1) (hreg.cfg ▸ hl2) ?_ hs' fun hnodup t₂ s₂ hr ↦ ?_)
      · rw [hpaths, hmks]
        refine hD.imp_right fun h ↦ ⟨h.1, ?_⟩
        have hsome := h.2 hload
        rw [hopening] at hsome
        by_contra hn
        rw [if_neg hn] at hsome
        cases hsome
      · rw [hpaths, hreg.cfg]
        exact ho.loads
      · rw [hpaths, hmks] at hnodup hr
        refine Client.solo_pure (hok hload tbl t₂ s₂ (seenAgain s₀.running i false [p] opened) ?_
          ⟨hr.cfg.trans hreg.cfg, ?_, ?_, hr.held.append htbl, ?_, hr.relation, hloads⟩)
        · rw [hopening]
          exact if_pos hnodup
        · exact hr.transactionId.trans (hreg.transactionId.trans ho.transactionId)
        · simp [hr.paths, hpaths, hpath]
        · rw [heldBy_append, heldBy_cons, hmk]
          exact hr.alone
  · intro hload tbl dep' t' s' seen hpath hmarker hs hreg
    have hopened : ∀ s₁, Alone i s₀ s₁ (heldBy t.tables) →
        Opened i t.cfg s₀ opened (seen ++ registered) t' s₁ := by
      intro s₁ hs₁
      refine ⟨hreg.cfg, hreg.transactionId.trans ho.transactionId, ?_, ?_, ?_, ?_, ho.loads⟩
      · rw [hreg.tables, ho.paths]
      · rw [hreg.tables]
        exact ho.held
      · rw [hreg.tables]
        exact hs₁
      · exact hreg.relation.trans (ho.relation.append_left _)
    refine Client.solo_bind ?_
    refine Client.solo_get_bind ?_
    have hm : t'.markers = true := by simp [Txn.markers, Levels.markers, hreg.cfg, hl1]
    rw [hm]
    cases hmk : tbl.marker with
    | none =>
      rw [TableStats.held_of_none hmk] at hs
      exact Client.solo_pure (Client.solo_pure (hfail hload _ t' s' (hopened s' hs)))
    | some mk =>
      have hvalid : mk.valid = true := (hmarker mk hmk).resolve_left (by simp)
      rw [TableStats.held_of_valid hmk hvalid] at hs
      refine Client.solo_bind (write fun s₁ o ho' hput ↦ Client.solo_pure (Client.solo_pure ?_))
      have hs₁ := hs.release hput fun txnid d hc ↦ by cases ho'.symm.trans hc
      exact hfail hload _ t' s₁ (hopened s₁ hs₁)

/-- A table that cannot be loaded is tried again and given up. -/
theorem openAttempts (hload : ¬Loads c s₀ p) (ho : Opened i c s₀ opened registered t s)
    (hl1 : c.levels.l1 = true) (hl2 : c.levels.l2 = false) (hfuel : D ∨ 2 < fuel) (n : ℕ)
    {Q : Bool → Txn → Store → Prop} (h : ∀ t' s', Q false t' s') :
    Client.solo (served false) i D (Tx.openAttempts fuel p n) t Q s := by
  induction n generalizing t s registered with
  | zero =>
    have hm : t.markers = true := by simp [Txn.markers, Levels.markers, ho.cfg, hl1]
    have hs : Alone i s₀ s (heldBy t.tables ++ []) := (List.append_nil _).symm ▸ ho.alone
    exact Client.solo_bind (abort hm hs fun s' sublog _ ↦ Client.solo_pure (h _ s'))
  | succ n ih =>
    refine Client.solo_bind (openTableV2 ho hl1 hl2
      (hfuel.imp_right fun hf ↦ ⟨hf, fun hl ↦ absurd hl hload⟩) (fun hl ↦ absurd hl hload)
      fun _ registered' t' s' ho' ↦ ih ho')

theorem openNewTable (ho : Opened i c s₀ opened registered t s) (hl1 : c.levels.l1 = true)
    (hl2 : c.levels.l2 = false)
    (hD : D ∨ 2 < fuel ∧
      (Loads c s₀ p → (opening s₀.running i opened registered p).isSome = true))
    {Q : Bool → Txn → Store → Prop}
    (hok : Loads c s₀ p → ∀ registered' ∈ opening s₀.running i opened registered p, ∀ t' s',
      Opened i c s₀ (opened ++ [p]) registered' t' s' → Q true t' s')
    (hfail : ¬Loads c s₀ p → ∀ t' s', Q false t' s') :
    Client.solo (served false) i D (Tx.openNewTable fuel p) t Q s := by
  by_cases hload : Loads c s₀ p
  · refine Client.solo_bind (openTableV2 ho hl1 hl2 hD (fun _ tbl t' s' registered' hr ho' ↦ ?_)
      fun hnot ↦ absurd hload hnot)
    exact Client.solo_modify_bind (Client.solo_pure (hok hload registered' hr _ s' ho'))
  · exact openAttempts hload ho hl1 hl2 (hD.imp_right And.left) 5 (hfail hload)

theorem beginAttempts (hload : ¬Loads c s₀ p) (ho : Opened i c s₀ opened registered t s)
    (hl1 : c.levels.l1 = true) (hl2 : c.levels.l2 = false) (hfuel : D ∨ 2 < fuel) (n : ℕ)
    {Q : Bool → Txn → Store → Prop} (h : ∀ t' s', Q false t' s') :
    Client.solo (served false) i D (Tx.beginAttempts fuel p n) t Q s := by
  induction n generalizing t s registered with
  | zero => exact Client.solo_pure (h t s)
  | succ n ih =>
    have hl2' : t.cfg.levels.l2 = false := ho.cfg ▸ hl2
    refine Client.solo_bind (Client.solo_bind (parseGlobalSnapshots hl2' ?_))
    exact Client.solo_bind (openTableV2 ho hl1 hl2
      (hfuel.imp_right fun hf ↦ ⟨hf, fun hl ↦ absurd hl hload⟩) (fun hl ↦ absurd hl hload)
      fun _ registered' t' s' ho' ↦ Client.solo_pure (ih ho'))

theorem beginTransaction (ho : Opened i c s₀ opened registered t s) (hl1 : c.levels.l1 = true)
    (hl2 : c.levels.l2 = false)
    (hD : D ∨ 2 < fuel ∧
      (Loads c s₀ p → (opening s₀.running i opened registered p).isSome = true))
    {Q : Bool → Txn → Store → Prop}
    (hok : Loads c s₀ p → ∀ registered' ∈ opening s₀.running i opened registered p, ∀ t' s',
      Opened i c s₀ (opened ++ [p]) registered' t' s' → Q true t' s')
    (hfail : ¬Loads c s₀ p → ∀ t' s', Q false t' s') :
    Client.solo (served false) i D (Tx.beginTransaction fuel p) t Q s := by
  by_cases hload : Loads c s₀ p
  · have hl2' : t.cfg.levels.l2 = false := ho.cfg ▸ hl2
    refine Client.solo_bind (Client.solo_bind (parseGlobalSnapshots hl2' ?_))
    refine Client.solo_bind (openTableV2 ho hl1 hl2 hD (fun _ tbl t' s' registered' hr ho' ↦ ?_)
      fun hnot ↦ absurd hload hnot)
    exact Client.solo_modify_bind (Client.solo_pure
      (Client.solo_pure (hok hload registered' hr _ s' ho')))
  · exact beginAttempts hload ho hl1 hl2 (hD.imp_right And.left) 5 (hfail hload)

/-! ## All tables -/

/-- Opening further tables returns if it comes to an end, and only then. -/
theorem openNewTables {ps : List Table} (ho : Opened i c s₀ opened registered t s)
    (hl1 : c.levels.l1 = true) (hl2 : c.levels.l2 = false) (hfuel : 2 < fuel) :
    Client.solo (served false) i (¬Ends s₀.running i (Loads c s₀) opened registered ps)
      (Tx.openNewTables fuel ps) t
      (fun _ _ _ ↦ Ends s₀.running i (Loads c s₀) opened registered ps) s := by
  induction ps generalizing t s opened registered with
  | nil => exact Client.solo_pure trivial
  | cons p ps ih =>
    refine Client.solo_bind (openNewTable ho hl1 hl2 ?_ (fun hload registered' hr t' s' ho' ↦ ?_)
      fun hload t' s' ↦ Client.solo_pure fun h ↦ absurd h hload)
    · exact or_iff_not_imp_left.mpr fun hends ↦ ⟨hfuel, isSome_of_ends (not_not.mp hends)⟩
    · rw [if_pos rfl, ends_cons hload hr]
      exact ih ho'

end Open

end LakeVilla

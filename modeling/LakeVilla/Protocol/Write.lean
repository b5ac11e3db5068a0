import LakeVilla.Protocol.Redo
import LakeVilla.Protocol.Global

/-!
# Writing the tables

A commit replaces the marker of each changed table, or claims its absent version, with the table's
actions. A protocol says for this one kind of step what it has to satisfy (`Committing`); everything
else that a transaction does is quiet. An attempt whose response is lost may have been successful;
then the version holds the transaction's own commit, and a later attempt cannot replace it again.
-/

namespace LakeVilla

open Concurrency

/-- What a transaction knows when it writes table `j`. -/
structure Ready (sem : Semantics TxnId Txn Response Store) (P : Protocol TxnId Txn Response Store)
    (i : TxnId) (c : Config) (L : Bool → Txn → Store → Prop) (b : Bool) (t : Txn) (s : Store)
    (j : ℕ) (tbl : TableStats) : Prop where
  known : Known sem P i c L b [] [] t s
  clear : Clear sem P i c b t s
  table : t.tables[j]? = some tbl
  pending : tbl.pending = true

/-- The step from `s` to `s'` writes the commit of a table. -/
structure Commits (i : TxnId) (t : Txn) (tbl : TableStats) (s s' : Store) : Prop where
  put : s' = s.put (.version tbl.basePath tbl.markerVersion) (buildCommitLog t tbl)
  marker : t.markers = true → ∃ o d,
    s.get (.version tbl.basePath tbl.markerVersion) = some o ∧ o.content = .marker i d
  absent : t.markers = false → s.get (.version tbl.basePath tbl.markerVersion) = none

/-- The protocol allows the commits of client `i`. -/
structure Committing (sem : Semantics TxnId Txn Response Store)
    (P : Protocol TxnId Txn Response Store) (i : TxnId) (c : Config)
    (L : Bool → Txn → Store → Prop) : Prop where
  commit : ∀ {b t k s₀ r s' ms j tbl}, P.inv s₀ → sem i t k s₀ r s' → k.isCommit = true →
    Ready sem P i c L b t (s₀.wait ms) j tbl → Commits i t tbl (s₀.wait ms) s' → s'.WF →
    Fenced i (s₀.wait ms) s' → P.inv s' ∧ P.guar i t k s₀ r s'

namespace Ready

variable {sem : Semantics TxnId Txn Response Store} {P : Protocol TxnId Txn Response Store}
variable {i : TxnId} {c : Config} {L : Bool → Txn → Store → Prop} {b : Bool} {t : Txn}
variable {s s' : Store} {j : ℕ} {tbl : TableStats}

theorem mono (hL : Local P i L) (h : Ready sem P i c L b t s j tbl) (hs : QuietLater i s s') :
    Ready sem P i c L b t s' j tbl :=
  ⟨h.known.mono hL hs, h.clear.mono hs.later, h.table, h.pending⟩

theorem uncommitted (h : Ready sem P i c L b t s j tbl) : tbl.committed = false := by
  simpa using (Bool.and_eq_true_iff.mp h.pending).1

theorem reserved (h : Ready sem P i c L b t s j tbl) : Reserved i t.markers s tbl :=
  h.known.sound.tables tbl (List.mem_of_getElem? h.table)

end Ready

namespace Commits

variable {i : TxnId} {t : Txn} {tbl : TableStats} {s s' : Store}

theorem moves (h : Commits i t tbl s s') (hid : t.transactionId = i) :
    Moves i ((s.get (.version tbl.basePath tbl.markerVersion)).map (·.content))
      (buildCommitLog t tbl) := by
  cases hm : t.markers with
  | true =>
    obtain ⟨o, d, ho, hc⟩ := h.marker hm
    rw [ho, Option.map_some, hc]
    exact .commit d _ (.inl (congrArg some hid))
  | false =>
    rw [h.absent hm]
    exact .claim _ (.inl (congrArg some hid))

theorem fenced (h : Commits i t tbl s s') (hid : t.transactionId = i) : Fenced i s s' := by
  rw [h.put]
  exact .put (h.moves hid)

theorem wf (h : Commits i t tbl s s') (hid : t.transactionId = i) (hs : s.WF)
    (hb : s.Exists tbl.basePath (tbl.markerVersion - 1)) : s'.WF := by
  rw [h.put]
  exact hs.put (h.moves hid) hb

theorem holds (h : Commits i t tbl s s') (hid : t.transactionId = i) :
    s'.Holds i tbl.basePath tbl.markerVersion tbl.actions := by
  rw [h.put]
  exact ⟨_, _, Store.get_put_self .., rfl, congrArg some hid, rfl⟩

end Commits

/-- What happens while a table is written: nothing else than the write, if it takes effect. -/
inductive Effect (i : TxnId) (t : Txn) (tbl : TableStats) (s s' : Store) : Prop
  | none (h : QuietLater i s s')
  | commit (s₁ s₂ : Store) (h₁ : QuietLater i s s₁) (h : Commits i t tbl s₁ s₂)
    (h₂ : QuietLater i s₂ s')

namespace Effect

variable {i : TxnId} {t : Txn} {tbl : TableStats} {s s' s'' : Store}

theorem later (h : Effect i t tbl s s') (hid : t.transactionId = i) : Later s s' := by
  cases h with
  | none h => exact h.later
  | commit s₁ s₂ h₁ h h₂ => exact h₁.later.trans ((Later.single (h.fenced hid)).trans h₂.later)

theorem trans (h : Effect i t tbl s s') (hs : QuietLater i s' s'') : Effect i t tbl s s'' := by
  cases h with
  | none h => exact .none (h.trans hs)
  | commit s₁ s₂ h₁ h h₂ => exact .commit s₁ s₂ h₁ h (h₂.trans hs)

theorem after (hs : QuietLater i s s') (h : Effect i t tbl s' s'') : Effect i t tbl s s'' := by
  cases h with
  | none h => exact .none (hs.trans h)
  | commit s₁ s₂ h₁ h h₂ => exact .commit s₁ s₂ (hs.trans h₁) h h₂

/-- A commit without actions is quiet. -/
theorem quiet (h : Effect i t tbl s s') (hid : t.transactionId = i) (ha : tbl.actions = []) :
    QuietLater i s s' := by
  cases h with
  | none h => exact h
  | commit s₁ s₂ h₁ h h₂ =>
    refine h₁.trans (.trans (.single (.inr ⟨h.fenced hid, ?_⟩)) h₂)
    rw [h.put]
    exact .put (.inr ⟨_, rfl, ha⟩)

/-- New own commits that have actions are in the version that was written. -/
theorem holds_back (h : Effect i t tbl s s') {p : Table} {v : ℕ} {as : List Action}
    (ha : as ≠ []) (hv : s'.Holds i p v as) :
    s.Holds i p v as ∨ p = tbl.basePath ∧ v = tbl.markerVersion := by
  cases h with
  | none h => exact .inl (h.holds_back ha hv)
  | commit s₁ s₂ h₁ h h₂ =>
    obtain ⟨o, c, ho, hc, hi, has⟩ := h₂.holds_back ha hv
    rw [h.put] at ho
    by_cases hk : Key.version p v = .version tbl.basePath tbl.markerVersion
    · exact .inr (by simpa using hk)
    · rw [Store.get_put_of_ne _ _ hk] at ho
      exact .inl (h₁.holds_back ha ⟨o, c, ho, hc, hi, has⟩)

/-- The marker of another version stays as it is. -/
theorem marker_open (h : Effect i t tbl s s') {mk : Marker} (hm : mk.Open i s)
    (hne : (mk.table, mk.version) ≠ (tbl.basePath, tbl.markerVersion)) : mk.Open i s' := by
  cases h with
  | none h => exact hm.mono h
  | commit s₁ s₂ h₁ h h₂ =>
    refine Marker.Open.mono ?_ h₂
    have hget : s₂.get mk.path = s₁.get mk.path := by
      rw [h.put]
      refine Store.get_put_of_ne _ _ fun hk ↦ hne ?_
      rw [Marker.path] at hk
      simpa using hk
    rcases hm.mono h₁ with ⟨o, d, ho, he, hc⟩ | hl
    · exact .inl ⟨o, d, hget.trans ho, he, hc⟩
    · obtain ⟨o, c, ho, hc, hca⟩ := Store.log_eq_some.mp hl
      exact .inr (Store.log_eq_some.mpr ⟨o, c, hget.trans ho, hc, hca⟩)

end Effect

/-! ## The written table -/

/-- The table was written. -/
def TableStats.write (mk : Marker) (tbl : TableStats) : TableStats :=
  { tbl with marker := some mk.setInvalid, committed := true }

theorem TableStats.write_moved (mk : Marker) (tbl : TableStats) : tbl.Moved (tbl.write mk) := rfl

theorem Txn.write_conflict (t : Txn) (j : ℕ) (mk : Marker) :
    (t.modifyTable j (TableStats.write mk)).conflict = t.conflict := by
  have h₁ : (t.modifyTable j (TableStats.write mk)).hasReadConflict = t.hasReadConflict :=
    List.any_modify_eq _ fun _ ↦ rfl
  have h₂ : (t.modifyTable j (TableStats.write mk)).hasWriteConflict = t.hasWriteConflict :=
    List.any_modify_eq _ fun _ ↦ rfl
  rw [Txn.conflict, Txn.conflict, h₁, h₂]
  rfl

namespace Ready

variable {sem : Semantics TxnId Txn Response Store} {P : Protocol TxnId Txn Response Store}
variable {i : TxnId} {c : Config} {L : Bool → Txn → Store → Prop} {b : Bool} {t : Txn}
variable {s s' : Store} {j : ℕ} {tbl : TableStats} {mk : Marker}

theorem write_paths (j : ℕ) (mk : Marker) (t : Txn) :
    (t.modifyTable j (TableStats.write mk)).tables.map (·.basePath) =
      t.tables.map (·.basePath) :=
  List.map_modify_eq _ fun _ _ ↦ rfl

theorem write_known (hL : Local P i L) (h : Ready sem P i c L b t s j tbl)
    (hmk : tbl.marker = some mk) (he : Effect i t tbl s s')
    (hlog : s'.log tbl.basePath tbl.markerVersion = some tbl.actions)
    (hv : tbl.actions ≠ [] → s'.Holds i tbl.basePath tbl.markerVersion tbl.actions) :
    Known sem P i c L b [] [] (t.modifyTable j (TableStats.write mk)) s' := by
  have hk := h.known
  have hl := he.later hk.sound.id
  have hgr : t.Grows (t.modifyTable j (TableStats.write mk)) := .modifyTable ..
  have hpaths := write_paths j mk t
  have hu : (t.modifyTable j (TableStats.write mk)).Usable → t.Usable := fun hu ↦
    ⟨by rw [Txn.Distinct, ← hpaths]; exact hu.distinct, hu.opened⟩
  have hmem : ∀ {x}, x ∈ (t.modifyTable j (TableStats.write mk)).tables →
      x ∈ t.tables ∨ x = tbl.write mk := by
    intro x hx
    refine (List.mem_modify hx).imp_right ?_
    rintro ⟨y, hy, rfl⟩
    rw [Option.some.inj (h.table.symm.trans hy)]
  have hframe : t.Frame (t.modifyTable j (TableStats.write mk)) :=
    ⟨rfl, List.forall₂_modify TableStats.Moved.refl fun a _ ↦ a.write_moved mk, .inl rfl,
      List.Subset.refl _⟩
  exact
    { sound :=
        { id := hk.sound.id
          tables := fun x hx ↦ by
            rcases hmem hx with hx | rfl
            · exact (hk.sound.tables x hx).mono hl
            · have hr := (Unmarked.mk rfl (.inr ⟨mk, hmk, rfl⟩) :
                Unmarked tbl { tbl with marker := some mk.setInvalid }).reserved
                (h.reserved.mono hl)
              exact ⟨hr.marker, hr.before, fun _ ↦ Store.exists_of_log hlog, hr.read⟩
          localLog := fun e he' ↦ hl.exists_mono (hk.sound.localLog e he')
          prevMarkers := fun e he' ↦ hl.exists_mono (hk.sound.prevMarkers e he') }
      cfg := hk.cfg
      recalled := fun hd ↦ by
        have hrec := hk.recalled (by
          rw [Txn.DistinctWith, ← hpaths]
          exact hd)
        refine ⟨hrec.markers, fun e he' x hx hxe ↦ ?_, by simp, fun e he' ↦ ?_⟩
        · rcases hmem hx with hx | rfl
          · exact hrec.below e he' x hx hxe
          · exact hrec.below e he' tbl (List.mem_of_getElem? h.table) hxe
        · rw [hpaths]
          exact hrec.opened e he'
      tracks := fun hr hu' a x ha hn ↦ by
        -- the reservations of the other tables are not touched
        have hold : ∀ {y}, t.tables[a]? = some y → (t.markers = true → x.committed = false →
            ∃ mk, x.marker = some mk ∧ mk.valid = true ∧ mk.Open i s') →
            y.deltaLog = x.deltaLog → y.basePath = x.basePath →
            y.markerVersion = x.markerVersion → y.base = x.base →
            y.concurrentRemoves = x.concurrentRemoves → y.concurrentChange = x.concurrentChange →
            Tracks P i (t.modifyTable j (TableStats.write mk)) s' x := by
          intro y hy hfresh h₁ h₂ h₃ h₅ h₆ h₇
          have ht := hk.tracks hr (hu hu') a y hy hn
          refine ⟨hfresh, fun u hu ↦ ?_, fun u hu ↦ ?_, fun u hlt ↦ ?_, fun hh u hu ↦ ?_⟩
          · obtain ⟨as, has⟩ := ht.logged u (h₁ ▸ hu)
            exact ⟨as, h₂ ▸ hl.log_mono has⟩
          · exact h₃ ▸ ht.below u (h₁ ▸ hu)
          · rw [← h₁, ← h₂]
            exact (ht.covered u (h₃ ▸ hlt)).imp
              (fun h' ↦ h'.mono hl (List.Subset.refl _) (List.Subset.refl _)) hl.log_mono
          · rw [← h₂, ← h₅, ← h₆, ← h₇]
            refine (ht.checked hh u (h₁ ▸ hu)).imp_right fun hc as has ↦ ?_
            obtain ⟨as', has'⟩ := ht.logged u (h₁ ▸ hu)
            obtain rfl := Option.some.inj ((hl.log_mono has').symm.trans has)
            exact hc as' has'
        rcases List.getElem?_modify_eq_some ha with ⟨rfl, y, hy, rfl⟩ | ⟨hne, ha'⟩
        · exact hold hy (fun _ hf ↦ by cases hf) rfl rfl rfl rfl rfl rfl
        · refine hold ha' (fun hm hc ↦ ?_) rfl rfl rfl rfl rfl rfl
          obtain ⟨mk', hmk', hval, ho⟩ := (hk.tracks hr (hu hu') a x ha' hn).fresh hm hc
          obtain ⟨mk'', hmk'', hmt, -, -⟩ := (hk.sound.tables x (List.mem_of_getElem? ha')).marker
          obtain rfl := Option.some.inj (hmk'.symm.trans hmk'')
          refine ⟨mk', hmk', hval, he.marker_open ho fun hpq ↦ hne ?_⟩
          refine (hu hu').distinct.index_eq ha' h.table ?_
          rw [← hmt]
          exact congrArg Prod.fst hpq
      locally := fun hr htr hn hu' ↦ hL.frame (hL.later (hk.locally hr htr hn (hu hu')) hl) hframe
      opened := hk.opened
      owns :=
        { own := fun hr hor p v as ha hv' ↦ by
            rcases he.holds_back ha hv' with hold | ⟨rfl, rfl⟩
            · obtain ⟨y, hy, hp, hyc⟩ := hk.owns.own hr hor p v as ha hold
              obtain ⟨a, hya⟩ := List.getElem?_of_mem hy
              by_cases haj : a = j
              · subst haj
                obtain rfl := Option.some.inj (h.table.symm.trans hya)
                exact absurd hyc (by simp [h.uncommitted])
              · refine ⟨y, List.mem_of_getElem? (i := a) ?_, hp, hyc⟩
                show (t.tables.modify j _)[a]? = some y
                simp [hya, Ne.symm haj]
            · refine ⟨tbl.write mk, List.mem_of_getElem? (i := j) ?_, rfl, rfl⟩
              show (t.tables.modify j _)[j]? = _
              rw [List.getElem?_modify_eq, h.table]
              rfl
          written := fun hor x hx hxc ha ↦ by
            rcases hmem hx with hx | rfl
            · obtain ⟨v, hv'⟩ := hk.owns.written hor x hx hxc ha
              exact ⟨v, hl.holds_mono ha hv'⟩
            · exact ⟨tbl.markerVersion, hv ha⟩ } }

theorem write_clear (h : Ready sem P i c L b t s j tbl) (he : Effect i t tbl s s') (mk : Marker) :
    Clear sem P i c b (t.modifyTable j (TableStats.write mk)) s' where
  caught hr hu := by
    have hu' : t.Usable := ⟨by rw [Txn.Distinct, ← write_paths j mk t]; exact hu.distinct,
      hu.opened⟩
    refine ((h.clear.caught hr hu').mono (he.later h.known.sound.id)).of_tables rfl fun x hx ↦ ?_
    rcases List.mem_modify hx with hx | ⟨y, hy, rfl⟩
    · exact ⟨x, hx, rfl, rfl, rfl⟩
    · exact ⟨y, List.mem_of_getElem? hy, rfl, rfl, rfl⟩
  conflict := (t.write_conflict j mk).trans h.clear.conflict
  redone := h.clear.redone

end Ready

/-- An attempt took effect, but the transaction does not know. -/
theorem Known.dirty {sem : Semantics TxnId Txn Response Store}
    {P : Protocol TxnId Txn Response Store} {i : TxnId} {c : Config}
    {L : Bool → Txn → Store → Prop} {b : Bool} {t : Txn} {s s' : Store}
    (hk : Known sem P i c L b [] [] t s) (hs : Later s s') (hr : ¬ Reliable sem i)
    (hre : ¬ Rereads sem i) : Known sem P i c L b [] [] t s' where
  sound := hk.sound.mono hs
  cfg := hk.cfg
  recalled := hk.recalled
  tracks hreg := absurd hreg.toReliable hr
  locally hreg := absurd hreg.toReliable hr
  opened := hk.opened
  owns :=
    { own := fun h ↦ absurd h hre
      written := fun hor x hx hxc ha ↦
        have ⟨v, hv⟩ := hk.owns.written hor x hx hxc ha
        ⟨v, hs.holds_mono ha hv⟩ }

/-! ## Attempts -/

/-- The commit of a table was written by a call that succeeded. -/
def Wrote (sem : Semantics TxnId Txn Response Store) (i : TxnId) (t : Txn) (tbl : TableStats)
    (s s' : Store) : Prop :=
  ∃ k r s₁ s₂, QuietLater i s s₁ ∧ Acted sem i t k s₁ r s₂ ∧ k.isCommit = true ∧
    k.succeeded r = true ∧ Commits i t tbl s₁ s₂ ∧ QuietLater i s₂ s'

theorem Wrote.effect {sem : Semantics TxnId Txn Response Store} {i : TxnId} {t : Txn}
    {tbl : TableStats} {s s' : Store} (h : Wrote sem i t tbl s s') : Effect i t tbl s s' :=
  have ⟨_, _, s₁, s₂, h₁, _, _, _, hc, h₂⟩ := h
  .commit s₁ s₂ h₁ hc h₂

theorem Wrote.mono {sem : Semantics TxnId Txn Response Store} {i : TxnId} {t : Txn}
    {tbl : TableStats} {s s' s'' : Store} (h : Wrote sem i t tbl s s')
    (hs : QuietLater i s' s'') : Wrote sem i t tbl s s'' :=
  have ⟨k, r, s₁, s₂, h₁, ha, hk, hr, hc, h₂⟩ := h
  ⟨k, r, s₁, s₂, h₁, ha, hk, hr, hc, h₂.trans hs⟩

theorem Wrote.after {sem : Semantics TxnId Txn Response Store} {i : TxnId} {t : Txn}
    {tbl : TableStats} {s s' s'' : Store} (h : Wrote sem i t tbl s' s'')
    (hs : QuietLater i s s') : Wrote sem i t tbl s s'' :=
  have ⟨k, r, s₁, s₂, h₁, ha, hk, hr, hc, h₂⟩ := h
  ⟨k, r, s₁, s₂, hs.trans h₁, ha, hk, hr, hc, h₂⟩

theorem Wrote.log {sem : Semantics TxnId Txn Response Store} {i : TxnId} {t : Txn}
    {tbl : TableStats} {s s' : Store} (h : Wrote sem i t tbl s s') :
    s'.log tbl.basePath tbl.markerVersion = some tbl.actions :=
  have ⟨_, _, _, _, _, _, _, _, hc, h₂⟩ := h
  h₂.later.log_mono (by rw [hc.put]; exact Store.log_of_get (Store.get_put_self ..) rfl)

theorem Wrote.holds {sem : Semantics TxnId Txn Response Store} {i : TxnId} {t : Txn}
    {tbl : TableStats} {s s' : Store} (h : Wrote sem i t tbl s s') (hid : t.transactionId = i)
    (ha : tbl.actions ≠ []) : s'.Holds i tbl.basePath tbl.markerVersion tbl.actions :=
  have ⟨_, _, _, _, _, _, _, _, hc, h₂⟩ := h
  h₂.later.holds_mono ha (hc.holds hid)

/-- The version was taken over, or claimed by another transaction. -/
structure Refused (sem : Semantics TxnId Txn Response Store) (i : TxnId) (c : Config) (t : Txn)
    (tbl : TableStats) (s' : Store) : Prop where
  taken : Regular sem i c → t.Usable → t.markers = true →
    s'.log tbl.basePath tbl.markerVersion = some []
  firm : Firm sem i → t.torn = false

theorem Refused.mono {sem : Semantics TxnId Txn Response Store} {i : TxnId} {c : Config} {t : Txn}
    {tbl : TableStats} {s s' : Store} (h : Refused sem i c t tbl s) (hs : Later s s') :
    Refused sem i c t tbl s' :=
  ⟨fun hr hu hm ↦ hs.log_mono (h.taken hr hu hm), h.firm⟩

namespace Disciplined

variable {sem : Semantics TxnId Txn Response Store} {P : Protocol TxnId Txn Response Store}
variable {i : TxnId} {c : Config} {L : Bool → Txn → Store → Prop} {b : Bool}
variable {t : Txn} {s : Store} {j : ℕ} {tbl : TableStats} {mk : Marker}

/-- An attempt from a state in which the version is not written yet. -/
theorem writeLog (D : Disciplined sem P) (hL : Local P i L) (C : Committing sem P i c L)
    (h : Ready sem P i c L b t s j tbl) (hmk : tbl.marker = some mk) (hi : P.inv s)
    {Q : WriteStatus → Txn → Store → Prop}
    (hok : ∀ s', P.inv s' → Wrote sem i t tbl s s' → Q .ok t s')
    (herror : ∀ s', P.inv s' → ¬ Reliable sem i → (Firm sem i → t.torn = false) →
      Effect i t tbl s s' → Q .error t s')
    (hrefused : ∀ r s', r ≠ .ok → r ≠ .error → QuietLater i s s' → P.inv s' →
      Refused sem i c t tbl s' → Q r t s') :
    Client.wp sem P i (Tx.writeLog mk (buildCommitLog t tbl)) t Q s := by
  have hid := h.known.sound.id
  obtain ⟨mk', hmk', hmt, hmv, hheld⟩ := h.reserved.marker
  obtain rfl := Option.some.inj (hmk.symm.trans hmk')
  have hpath : mk.path = .version tbl.basePath tbl.markerVersion := by
    rw [Marker.path, hmt, hmv]
  -- one call, with or without an effect
  have hcall : ∀ {k : Call} {r : Response k} {s₁ s₂ : Store} {d : Choice}, k.isCommit = true →
      QuietLater i s (s₁.wait d.delay) → P.inv s₁ → sem i t k s₁ r s₂ →
      (s₂ = s₁.wait d.delay ∨ Commits i t tbl (s₁.wait d.delay) s₂) →
      P.inv s₂ ∧ P.guar i t k s₁ r s₂ := by
    intro k r s₁ s₂ d hk h₁ hi₁ hs hput
    rcases hput with rfl | hput
    · refine D.quiet_wait hi₁ hs ?_
      rintro rfl
      cases hk
    · have hr := h.mono hL h₁
      exact C.commit hi₁ hs hk hr hput (hput.wf hid ((D.wf hi₁).wait _) hr.reserved.before)
        (hput.fenced hid)
  unfold Tx.writeLog
  refine Client.wp_get_bind ?_
  split
  · next he hm =>
    obtain ⟨e, he', -⟩ := hheld.etag he
    rw [hm] at he'
    cases he'
  · next etag hm he =>
    rw [hpath]
    refine Client.wp_perform fun s₁ h₁ hi₁ r s₂ hs ↦ ?_
    obtain ⟨d, hd⟩ := D.served hs
    have h₁' := (D.rely h₁).trans (Disciplined.quietLater_wait i s₁ d.delay)
    have hcommits : (∃ o, (s₁.wait d.delay).get (.version tbl.basePath tbl.markerVersion) = some o ∧
        o.etag = etag) → s₂ = (s₁.wait d.delay).put (.version tbl.basePath tbl.markerVersion)
          (buildCommitLog t tbl) → Commits i t tbl (s₁.wait d.delay) s₂ := by
      rintro ⟨o, ho, hoe⟩ hput
      obtain ⟨e, he', hle, hmarker⟩ := (hheld.mono h₁'.later).etag hm
      obtain rfl := Option.some.inj (he.symm.trans he')
      rw [hpath] at hmarker
      obtain ⟨dl, hdl⟩ := hmarker o ho hoe
      exact ⟨hput, fun _ ↦ ⟨o, dl, ho, hdl⟩, fun hf ↦ absurd hm (by simp [hf])⟩
    have hfirm : r ≠ .ok → Firm sem i → t.torn = false := by
      intro hr hf
      by_contra htorn
      have := hf t _ s₁ r s₂ hs rfl (by simpa using htorn)
      exact hr (by simpa [Call.succeeded] using this)
    rcases answer_writeIfMatch hd with ⟨rfl, ho, hput⟩ | ⟨rfl, hno, hput⟩ | ⟨rfl, hfault, hput⟩
    · have hc := hcommits ho hput
      obtain ⟨hi₂, hg⟩ := hcall rfl h₁' hi₁ hs (.inr hc)
      exact ⟨hi₂, hg, fun s₃ h₃ hi₃ ↦ hok s₃ hi₃ ⟨_, _, _, s₂, h₁',
        ⟨(D.wf hi₁).wait _, s₁, d, hs, rfl, hd⟩, rfl, rfl, hc, D.rely h₃⟩⟩
    · obtain ⟨hi₂, hg⟩ := hcall rfl h₁' hi₁ hs (.inl hput)
      refine ⟨hi₂, hg, fun s₃ h₃ hi₃ ↦ ?_⟩
      have h₂₃ := D.rely h₃
      refine hrefused _ s₃ (by simp) (by simp) (h₁'.trans (hput ▸ h₂₃)) hi₃
        ⟨fun hr hu _ ↦ ?_, hfirm (by simp)⟩
      obtain ⟨mk₀, hmk₀, -, hopen⟩ := ((h.known.mono hL h₁').tracks hr hu j tbl h.table
        (by simp)).fresh hm h.uncommitted
      obtain rfl := Option.some.inj (hmk.symm.trans hmk₀)
      refine h₂₃.later.log_mono (hput ▸ ?_)
      rcases hopen with ⟨o, dl, ho, he', -⟩ | hl
      · rw [hpath] at ho
        exact absurd (Option.some.inj (he'.symm.trans he)) (hno o ho)
      · exact hmt ▸ hmv ▸ hl
    · have hc : s₂ = s₁.wait d.delay ∨ Commits i t tbl (s₁.wait d.delay) s₂ :=
        hput.imp_right fun h ↦ hcommits h.1 h.2
      obtain ⟨hi₂, hg⟩ := hcall rfl h₁' hi₁ hs hc
      refine ⟨hi₂, hg, fun s₃ h₃ hi₃ ↦ ?_⟩
      have h₂₃ := D.rely h₃
      refine herror s₃ hi₃ (fun hr ↦ absurd rfl (hr.writeIfMatch hs)) (hfirm (by simp)) ?_
      rcases hc with rfl | hc
      · exact .none (h₁'.trans h₂₃)
      · exact .commit _ s₂ h₁' hc h₂₃
  · next hm =>
    rw [hpath]
    refine Client.wp_bind hi (Client.wp_perform fun s₁ h₁ hi₁ r s₂ hs ↦ ?_)
    obtain ⟨d, hd⟩ := D.served hs
    obtain ⟨r, etag⟩ := r
    have h₁' := (D.rely h₁).trans (Disciplined.quietLater_wait i s₁ d.delay)
    have hcommits : (s₁.wait d.delay).get (.version tbl.basePath tbl.markerVersion) = none →
        s₂ = (s₁.wait d.delay).put (.version tbl.basePath tbl.markerVersion)
          (buildCommitLog t tbl) → Commits i t tbl (s₁.wait d.delay) s₂ := fun hn hput ↦
      ⟨hput, fun hf ↦ absurd hm (by simp [hf]), fun _ ↦ hn⟩
    have hfirm : r ≠ .ok → Firm sem i → t.torn = false := by
      intro hr hf
      by_contra htorn
      have := hf t _ s₁ _ s₂ hs rfl (by simpa using htorn)
      exact hr (by simpa [Call.succeeded] using this)
    rcases answer_writeAtomic hd with ⟨rfl, -, hn, hput⟩ | ⟨rfl, -, hput⟩ | ⟨rfl, hfault, hput⟩
    · have hc := hcommits hn hput
      obtain ⟨hi₂, hg⟩ := hcall rfl h₁' hi₁ hs (.inr hc)
      refine ⟨hi₂, hg, fun s₃ h₃ hi₃ ↦ Client.wp_pure fun s₄ h₄ hi₄ ↦ hok s₄ hi₄ ?_⟩
      exact ⟨_, _, _, s₂, h₁', ⟨(D.wf hi₁).wait _, s₁, d, hs, rfl, hd⟩, rfl, rfl, hc,
        (D.rely h₃).trans (D.rely h₄)⟩
    · obtain ⟨hi₂, hg⟩ := hcall rfl h₁' hi₁ hs (.inl hput)
      refine ⟨hi₂, hg, fun s₃ h₃ hi₃ ↦ Client.wp_pure fun s₄ h₄ hi₄ ↦ ?_⟩
      have h₂₄ := (D.rely h₃).trans (D.rely h₄)
      exact hrefused _ s₄ (by simp) (by simp) (h₁'.trans (hput ▸ h₂₄)) hi₄
        ⟨fun _ _ hf ↦ absurd hm (by simp [hf]), hfirm (by simp)⟩
    · have hc : s₂ = s₁.wait d.delay ∨ Commits i t tbl (s₁.wait d.delay) s₂ :=
        hput.imp_right fun h ↦ hcommits h.1 h.2
      obtain ⟨hi₂, hg⟩ := hcall rfl h₁' hi₁ hs hc
      refine ⟨hi₂, hg, fun s₃ h₃ hi₃ ↦ Client.wp_pure fun s₄ h₄ hi₄ ↦ ?_⟩
      have h₂₄ := (D.rely h₃).trans (D.rely h₄)
      refine herror s₄ hi₄ (fun hr ↦ absurd rfl (hr.writeAtomic hs)) (hfirm (by simp)) ?_
      rcases hc with rfl | hc
      · exact .none (h₁'.trans h₂₄)
      · exact .commit _ s₂ h₁' hc h₂₄

/-- An attempt on a version that is written already. -/
theorem writeLog_again (D : Disciplined sem P) (hres : Reserved i t.markers s tbl)
    (hmk : tbl.marker = some mk) (hlog : (s.log tbl.basePath tbl.markerVersion).isSome)
    (hi : P.inv s) {log : Content} {Q : WriteStatus → Txn → Store → Prop}
    (h : ∀ r s', r ≠ .ok → QuietLater i s s' → P.inv s' → Q r t s') :
    Client.wp sem P i (Tx.writeLog mk log) t Q s := by
  obtain ⟨mk', hmk', hmt, hmv, hheld⟩ := hres.marker
  obtain rfl := Option.some.inj (hmk.symm.trans hmk')
  have hpath : mk.path = .version tbl.basePath tbl.markerVersion := by
    rw [Marker.path, hmt, hmv]
  obtain ⟨as, has⟩ := Option.isSome_iff_exists.mp hlog
  unfold Tx.writeLog
  refine Client.wp_get_bind ?_
  split
  · next he hm =>
    obtain ⟨e, he', -⟩ := hheld.etag he
    rw [hm] at he'
    cases he'
  · next etag hm he =>
    rw [hpath]
    refine Client.wp_perform fun s₁ h₁ hi₁ r s₂ hs ↦ ?_
    obtain ⟨d, hd⟩ := D.served hs
    have h₁' := (D.rely h₁).trans (Disciplined.quietLater_wait i s₁ d.delay)
    -- the version holds a commit, and the ETag is that of a marker
    have hno : ¬ ∃ o, (s₁.wait d.delay).get (.version tbl.basePath tbl.markerVersion) = some o ∧
        o.etag = etag := by
      rintro ⟨o, ho, hoe⟩
      obtain ⟨e, he', -, hmarker⟩ := (hheld.mono h₁'.later).etag hm
      obtain rfl := Option.some.inj (he.symm.trans he')
      rw [hpath] at hmarker
      obtain ⟨dl, hdl⟩ := hmarker o ho hoe
      obtain ⟨o', c, ho', hc, -⟩ := Store.log_eq_some.mp (h₁'.later.log_mono has)
      rw [Option.some.inj (ho.symm.trans ho'), hc] at hdl
      cases hdl
    obtain ⟨hr, hput⟩ : r ≠ .ok ∧ s₂ = s₁.wait d.delay := by
      rcases answer_writeIfMatch hd with ⟨-, ho, -⟩ | ⟨rfl, -, hput⟩ | ⟨rfl, -, hput | ⟨ho, -⟩⟩
      · exact absurd ho hno
      · exact ⟨by simp, hput⟩
      · exact ⟨by simp, hput⟩
      · exact absurd ho hno
    subst hput
    obtain ⟨hi₂, hg⟩ := D.quiet_wait hi₁ hs
    exact ⟨hi₂, hg, fun s₃ h₃ hi₃ ↦ h r s₃ hr (h₁'.trans (D.rely h₃)) hi₃⟩
  · next hm =>
    rw [hpath]
    refine Client.wp_bind hi (Client.wp_perform fun s₁ h₁ hi₁ r s₂ hs ↦ ?_)
    obtain ⟨d, hd⟩ := D.served hs
    obtain ⟨r, etag⟩ := r
    have h₁' := (D.rely h₁).trans (Disciplined.quietLater_wait i s₁ d.delay)
    have hno : (s₁.wait d.delay).get (.version tbl.basePath tbl.markerVersion) ≠ none := by
      have := Store.exists_of_log (h₁'.later.log_mono has)
      exact fun hn ↦ by simp [Store.Exists, hn] at this
    obtain ⟨hr, hput⟩ : r ≠ .ok ∧ s₂ = s₁.wait d.delay := by
      rcases answer_writeAtomic hd with ⟨-, -, hn, -⟩ | ⟨rfl, -, hput⟩ | ⟨rfl, -, hput | ⟨hn, -⟩⟩
      · exact absurd hn hno
      · exact ⟨by simp, hput⟩
      · exact ⟨by simp, hput⟩
      · exact absurd hn hno
    subst hput
    obtain ⟨hi₂, hg⟩ := D.quiet_wait hi₁ hs
    exact ⟨hi₂, hg, fun s₃ h₃ hi₃ ↦ Client.wp_pure fun s₄ h₄ hi₄ ↦ h r s₄ hr
      (h₁'.trans ((D.rely h₃).trans (D.rely h₄))) hi₄⟩

theorem writtenByUs (D : Disciplined sem P) (log : Content) (uncertain : Bool) (hi : P.inv s)
    {Q : Bool → Txn → Store → Prop}
    (htrue : ∀ s₁ s' o, QuietLater i s s₁ → s₁.get mk.path = some o → o.content = log →
      QuietLater i s₁ s' → P.inv s' → uncertain = true → Q true t s')
    (hfalse : ∀ s₁ s' r, QuietLater i s s₁ →
      (uncertain = true → Asked sem i t (.read mk.path) s₁ r) →
      (∀ o, r = some o → o.content ≠ log) → QuietLater i s₁ s' → P.inv s' → Q false t s') :
    Client.wp sem P i (Tx.writtenByUs mk log uncertain) t Q s := by
  unfold Tx.writtenByUs
  refine Client.wp_ite (fun hu ↦ ?_) fun hu ↦ ?_
  · refine Client.wp_bind hi (D.ask (fun _ _ ↦ rfl) fun r s₁ s₂ h₁ _ ha h₂ hi₂ ↦ ?_)
    cases r with
    | none =>
      exact Client.wp_pure fun s₃ h₃ hi₃ ↦ hfalse s₁ s₃ none h₁ (fun _ ↦ ha) (by simp)
        (h₂.trans (D.rely h₃)) hi₃
    | some o =>
      refine Client.wp_pure fun s₃ h₃ hi₃ ↦ ?_
      have h₂₃ := h₂.trans (D.rely h₃)
      by_cases hc : o.content = log
      · simpa [hc] using htrue s₁ s₃ o h₁ ha.read hc h₂₃ hi₃ hu
      · simpa [hc] using hfalse s₁ s₃ (some o) h₁ (fun _ ↦ ha)
          (fun o' ho' ↦ Option.some.inj ho' ▸ hc) h₂₃ hi₃
  · exact Client.wp_pure fun s₁ h₁ hi₁ ↦ hfalse s s₁ none .refl (fun h ↦ absurd h hu) (by simp)
      (D.rely h₁) hi₁

/-- Nothing was written, or the transaction cannot know better. -/
def Unwritten (sem : Semantics TxnId Txn Response Store) (i : TxnId) (s s' : Store) : Prop :=
  QuietLater i s s' ∨ Later s s' ∧ ¬ Reliable sem i ∧ ¬ Rereads sem i

theorem Unwritten.mono {s s' s'' : Store} (h : Unwritten sem i s s') (hs : QuietLater i s' s'') :
    Unwritten sem i s s'' :=
  h.imp (fun hq ↦ hq.trans hs) fun ⟨h₁, h₂⟩ ↦ ⟨h₁.trans hs.later, h₂⟩

/-- The commit of a table was written. -/
structure Succeeded (sem : Semantics TxnId Txn Response Store) (i : TxnId) (t : Txn)
    (tbl : TableStats) (s s' : Store) : Prop where
  effect : Effect i t tbl s s'
  log : s'.log tbl.basePath tbl.markerVersion = some tbl.actions
  holds : tbl.actions ≠ [] → s'.Holds i tbl.basePath tbl.markerVersion tbl.actions
  wrote : Reliable sem i → Wrote sem i t tbl s s'

/-- An earlier attempt was successful. -/
structure Landed (t : Txn) (tbl : TableStats) (s : Store) : Prop where
  log : s.log tbl.basePath tbl.markerVersion = some tbl.actions
  content : tbl.actions ≠ [] → ∃ o, s.get (.version tbl.basePath tbl.markerVersion) = some o ∧
    o.content = buildCommitLog t tbl

theorem Landed.mono {s s' : Store} (h : Landed t tbl s) (hs : Later s s') : Landed t tbl s' where
  log := hs.log_mono h.log
  content ha :=
    have ⟨o, ho, hc⟩ := h.content ha
    ⟨o, hs.get_mono ho hc ha, hc⟩

theorem Landed.of_commits {s s' : Store} (h : Commits i t tbl s s') : Landed t tbl s' := by
  have hget : s'.get (.version tbl.basePath tbl.markerVersion) =
      some ⟨buildCommitLog t tbl, s.nextEtag + 1, s.clock⟩ := by
    rw [h.put, Store.get_put_self]
  exact ⟨Store.log_of_get hget rfl, fun _ ↦ ⟨_, hget, rfl⟩⟩

theorem writeCommitAttempts (D : Disciplined sem P) (hL : Local P i L) (C : Committing sem P i c L)
    {s₀ : Store} (h : Ready sem P i c L b t s₀ j tbl) (hmk : tbl.marker = some mk) (n : ℕ)
    {uncertain : Bool} (hi : P.inv s)
    (hs : QuietLater i s₀ s ∧ (uncertain = true → ¬ Reliable sem i) ∨
      Effect i t tbl s₀ s ∧ Landed t tbl s ∧ uncertain = true ∧ ¬ Reliable sem i ∧
        (Firm sem i → t.torn = false))
    {Q : Tx.CommitWrite → Txn → Store → Prop}
    (hok : ∀ s', P.inv s' → Succeeded sem i t tbl s₀ s' →
      Q .ok (t.modifyTable j fun tbl ↦ { tbl with marker := some mk.setInvalid }) s')
    (hlost : ∀ s', P.inv s' → t.markers = true → Unwritten sem i s₀ s' → Refused sem i c t tbl s' →
      Q .lost (t.modifyTable j fun tbl ↦ { tbl with marker := some mk.setInvalid }) s')
    (htaken : ∀ s', P.inv s' → t.markers = false → Unwritten sem i s₀ s' →
      Refused sem i c t tbl s' → Q .taken t s')
    (hfailed : ∀ s', P.inv s' → Effect i t tbl s₀ s' →
      (QuietLater i s₀ s' ∧ n = 0 ∨ ¬ Reliable sem i) → (n ≠ 0 → Firm sem i → t.torn = false) →
      Q .failed t s') :
    Client.wp sem P i (Tx.writeCommitAttempts j mk (buildCommitLog t tbl) n uncertain) t Q s := by
  have hid := h.known.sound.id
  obtain ⟨mk', hmk', hmt, hmv, -⟩ := h.reserved.marker
  obtain rfl := Option.some.inj (hmk.symm.trans hmk')
  have hpath : mk.path = .version tbl.basePath tbl.markerVersion := by
    rw [Marker.path, hmt, hmv]
  have hinvalid : ∀ r s₁, (∀ s', QuietLater i s₁ s' → P.inv s' →
        Q r (t.modifyTable j fun tbl ↦ { tbl with marker := some mk.setInvalid }) s') →
      Client.wp sem P i (do Tx.invalidate j mk; pure r : Tx Tx.CommitWrite) t Q s₁ :=
    fun r s₁ hQ ↦ Client.wp_modify_bind (Client.wp_pure fun s₂ h₂ hi₂ ↦
      hQ s₂ (D.rely h₂) hi₂)
  -- an attempt that was refused: an earlier one may have succeeded
  have hrefuse : ∀ s₁ uncertain, P.inv s₁ → Refused sem i c t tbl s₁ →
      (QuietLater i s₀ s₁ ∧ (uncertain = true → ¬ Reliable sem i) ∨
        Effect i t tbl s₀ s₁ ∧ Landed t tbl s₁ ∧ uncertain = true ∧ ¬ Reliable sem i ∧
          (Firm sem i → t.torn = false)) →
      Client.wp sem P i (do
        if ← Tx.writtenByUs mk (buildCommitLog t tbl) uncertain then do
          Tx.invalidate j mk
          pure .ok
        else if (← get).markers then do
          Tx.invalidate j mk
          pure .lost
        else pure .taken) t Q s₁ := by
    intro s₁ uncertain hi₁ href hs
    have heff : Effect i t tbl s₀ s₁ := hs.elim (fun hq ↦ .none hq.1) fun hd ↦ hd.1
    refine Client.wp_bind hi₁ (D.writtenByUs _ uncertain hi₁ ?_ ?_)
    · intro s₂ s₃ o h₂ ho hc h₃ hi₃ hu
      refine Client.wp_ite (fun _ ↦ hinvalid _ s₃ fun s₄ h₄ hi₄ ↦ ?_) fun hf ↦ absurd rfl hf
      have hrel : ¬ Reliable sem i := hs.elim (fun hq ↦ hq.2 hu) fun hd ↦ hd.2.2.2.1
      have hv : s₂.Holds i tbl.basePath tbl.markerVersion tbl.actions :=
        ⟨o, _, hpath ▸ ho, hc, congrArg some hid, rfl⟩
      have h₃₄ := h₃.trans h₄
      exact hok s₄ hi₄ ⟨heff.trans (h₂.trans h₃₄), h₃₄.later.log_mono hv.log,
        fun ha ↦ h₃₄.later.holds_mono ha hv, fun hr ↦ absurd hr hrel⟩
    · intro s₂ s₃ r h₂ ha hne h₃ hi₃
      have h₁₃ := h₂.trans h₃
      have hun : Unwritten sem i s₀ s₃ := by
        rcases hs with ⟨hq, -⟩ | ⟨he, hv, hu, hr, -⟩
        · exact .inl (hq.trans h₁₃)
        · by_cases hact : tbl.actions = []
          · exact .inl ((he.quiet hid hact).trans h₁₃)
          · refine .inr ⟨(he.later hid).trans h₁₃.later, hr, fun hre ↦ ?_⟩
            -- the read would have found the commit
            obtain ⟨o, ho, hc⟩ := (hv.mono h₂.later).content hact
            obtain ⟨s', d, hsem, -, -⟩ := ha hu
            rw [hpath] at hsem
            have hr' := hre _ _ _ _ _ _ hsem _ hact ⟨o, _, ho, hc, congrArg some hid, rfl⟩
            exact hne o (hr'.trans ho) hc
      refine Client.wp_ite (fun hf ↦ absurd hf (by simp)) fun _ ↦ Client.wp_get_bind
        (Client.wp_ite (fun hm ↦ hinvalid _ s₃ fun s₄ h₄ hi₄ ↦ ?_) fun hm ↦
          Client.wp_pure fun s₄ h₄ hi₄ ↦ ?_)
      · exact hlost s₄ hi₄ hm (hun.mono h₄) (href.mono (h₁₃.trans h₄).later)
      · have h₄ := D.rely h₄
        exact htaken s₄ hi₄ (by simpa using hm) (hun.mono h₄) (href.mono (h₁₃.trans h₄).later)
  induction n generalizing s uncertain with
  | zero =>
    refine Client.wp_pure fun s' hs' hi' ↦ ?_
    have hs' := D.rely hs'
    rcases hs with ⟨hq, -⟩ | ⟨he, -, -, hr, -⟩
    · exact hfailed s' hi' (.none (hq.trans hs')) (.inl ⟨hq.trans hs', rfl⟩) (by simp)
    · exact hfailed s' hi' (he.trans hs') (.inr hr) (by simp)
  | succ n ih =>
    -- after an attempt that may have succeeded
    have hagain : ∀ s₁, P.inv s₁ → ¬ Reliable sem i → (Firm sem i → t.torn = false) →
        (QuietLater i s₀ s₁ ∨ Effect i t tbl s₀ s₁ ∧ Landed t tbl s₁) →
        Client.wp sem P i
          (Tx.writeCommitAttempts j mk (buildCommitLog t tbl) n true) t Q s₁ := by
      intro s₁ hi₁ hr hf hs₁
      refine ih hi₁ ?_ fun s' hi' he _ _ ↦ hfailed s' hi' he (.inr hr) fun _ ↦ hf
      exact hs₁.imp (fun hq ↦ ⟨hq, fun _ ↦ hr⟩) fun h ↦ ⟨h.1, h.2, rfl, hr, hf⟩
    unfold Tx.writeCommitAttempts
    rcases hs with ⟨hq, hu⟩ | ⟨he, hv, hu, hr, hf⟩
    · refine Client.wp_bind hi (D.writeLog hL C (h.mono hL hq) hmk hi ?_ ?_ ?_)
      · intro s₁ hi₁ hw
        refine hinvalid _ s₁ fun s₂ h₂ hi₂ ↦ hok s₂ hi₂ ?_
        have hw₂ := (hw.mono h₂).after hq
        exact ⟨hw₂.effect, hw₂.log, hw₂.holds hid, fun _ ↦ hw₂⟩
      · intro s₁ hi₁ hr hf he
        refine hagain s₁ hi₁ hr hf ?_
        cases he with
        | none hq' => exact .inl (hq.trans hq')
        | commit s₂ s₃ h₂ hc h₃ =>
          exact .inr ⟨.commit s₂ s₃ (hq.trans h₂) hc h₃, (Landed.of_commits hc).mono h₃.later⟩
      · intro r s₁ hne₁ hne₂ hq' hi₁ href
        have htail := hrefuse s₁ uncertain hi₁ href (.inl ⟨hq.trans hq', hu⟩)
        cases r with
        | ok => exact absurd rfl hne₁
        | error => exact absurd rfl hne₂
        | alreadyExists => exact htail
        | preconditionFailed => exact htail
    · have hres := h.reserved.mono (he.later hid)
      refine Client.wp_bind hi (D.writeLog_again hres hmk (by simp [hv.log]) hi
        fun r s₁ hne hq hi₁ ↦ ?_)
      have htail := hrefuse s₁ uncertain hi₁ ⟨fun hreg ↦ absurd hreg.toReliable hr, hf⟩
        (.inr ⟨he.trans hq, hv.mono hq.later, hu, hr, hf⟩)
      cases r with
      | ok => exact absurd rfl hne
      | error => exact hagain s₁ hi₁ hr hf (.inr ⟨he.trans hq, hv.mono hq.later⟩)
      | alreadyExists => exact htail
      | preconditionFailed => exact htail

end Disciplined

end LakeVilla

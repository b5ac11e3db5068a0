import LakeVilla.Guarantees.Fencing

/-!
# Write skew without markers

Without any level a serializable commit looks for new versions of the tables that it only read
(`collectUnseenVersions`) and then claims the versions of the tables that it changes. The look and
the claims are separate calls: two transactions that each read what the other one writes may both
look first and write afterwards. There is no write skew in the runs in which the tables that a
transaction only read still end at the version it read when it writes.
-/

namespace LakeVilla

open Concurrency

/-- The transaction has read table `p`, which it does not change, and does not see version `v`. -/
def Txn.ReadsBelow (t : Txn) (p : Table) (v : ℕ) : Prop :=
  ∃ tbl ∈ t.tables, tbl.basePath = p ∧ tbl.wasRead = true ∧ tbl.changed = false ∧
    tbl.readVersion < v

/-- The tables that the transaction only read end at the version that it read. -/
def Txn.ReadsCurrent (t : Txn) (s : Store) : Prop :=
  ∀ tbl ∈ t.tables, tbl.wasRead = true → tbl.changed = false →
    s.get (.version tbl.basePath (tbl.readVersion + 1)) = none

instance (t : Txn) (p : Table) (v : ℕ) : Decidable (t.ReadsBelow p v) :=
  inferInstanceAs (Decidable (∃ tbl ∈ t.tables, _))

instance (t : Txn) (s : Store) : Decidable (t.ReadsCurrent s) :=
  inferInstanceAs (Decidable (∀ tbl ∈ t.tables, _))

/-- Client `i` with the transaction `t` takes a step that writes version `v` of table `p`. -/
inductive Writing (sem : Semantics TxnId Txn Response Store) (i : TxnId) (t : Txn) (p : Table)
    (v : ℕ) (w : System) : System → Prop
  | call {k : Call} {f : Response k → Program Txn Response Result} {r : Response k} {s' : Store}
      {as : List Action} (hi : w.client i = .call t k f) (hs : sem i t k w.shared r s')
      (hk : k.isCommit = true) (hv : s'.Holds i p v as) (hn : ¬ w.shared.Holds i p v as) :
      Writing sem i t p v w ⟨s', Function.update w.client i (f r)⟩

/-- The runs in which a transaction that writes has read the present versions. -/
abbrev currentSem : Semantics TxnId Txn Response Store :=
  Meeting (served true) fun _ t k s _ _ ↦ k.isCommit = true → t.ReadsCurrent s

theorem Writing.reachable {sem : Semantics TxnId Txn Response Store} {i : TxnId} {t : Txn}
    {p : Table} {v : ℕ} {w w' : System} (h : Writing sem i t p v w w') : Reachable sem w w' := by
  obtain ⟨hi, hs, -, -, -⟩ := h
  exact .single (.call i hi hs)

theorem Writing.exists {sem : Semantics TxnId Txn Response Store} {i : TxnId} {t : Txn} {p : Table}
    {v : ℕ} {w w' : System} (h : Writing sem i t p v w w') : w'.shared.Exists p v := by
  obtain ⟨-, -, -, hv, -⟩ := h
  exact Store.exists_of_log hv.log

/-- Nothing that a transaction read is out of date when it writes. -/
theorem Txn.ReadsCurrent.not_readsBelow {t : Txn} {s : Store} {p : Table} {v : ℕ}
    (h : t.ReadsCurrent s) (hs : s.WF) (hv : s.Exists p v) : ¬ t.ReadsBelow p v := by
  rintro ⟨tbl, htbl, rfl, hr, hc, hlt⟩
  have hex : s.Exists tbl.basePath (tbl.readVersion + 1) := hs.below hlt hv
  rw [Store.Exists, h tbl htbl hr hc] at hex
  cases hex

section Runs

variable {fuel : ℕ} {party : TxnId → Party} {s : Store} {w w₁ w₂ w' : System}
variable {i j : TxnId} {t t' : Txn} {p q : Table} {u v : ℕ}

/-- **No write skew.** Of two transactions that write, one table each, the second one has not read
the table of the first one below the written version, or the first one has not read the table of the
second one below its version. -/
theorem no_write_skew (hs : s.WF) (hu : ∀ i c p, party i = .lakeVilla c p → s.Unused i)
    (h : Reachable currentSem (System.initial fuel party s) w)
    (hw : Writing currentSem i t p v w w₁)
    (h₁ : Reachable currentSem w₁ w₂) (hw' : Writing currentSem j t' q u w₂ w') :
    ¬ (t.ReadsBelow q u ∧ t'.ReadsBelow p v) := by
  rintro ⟨-, hread⟩
  have hsem : ∀ {i t k s r s'}, currentSem i t k s r s' →
      ∃ d, answer d k (s.wait d.delay) = (r, s') :=
    fun h ↦ served_answer h.1
  have hsafe := Safe.reachable (fencing_safe hsem hs hu) (h.trans hw.reachable)
  have hlater : Later w₁.shared w₂.shared := (fencing_loose hsem).toDisciplined.later hsafe h₁
  have hex : w₂.shared.Exists p v := hlater.exists_mono hw.exists
  have hwf : w₂.shared.WF := (hsafe.reachable h₁).shared
  obtain ⟨-, hstep, hk, -, -⟩ := hw'
  exact (hstep.2 hk).not_readsBelow hwf hex hread

/-- The step in which client `i` claims version `v` of table `p`, which is absent. -/
def System.claim (w : System) (i : TxnId) (p : Table) (v : ℕ) : Option (Txn × System) :=
  match w.client i with
  | .call t k f =>
    match serve false i {} k w.shared with
    | some (r, s') =>
      match s'.get (.version p v) with
      | some ⟨.commit c, _, _⟩ =>
        if c.txnId = some i ∧ k.isCommit = true ∧ w.shared.get (.version p v) = none then
          some (t, ⟨s', Function.update w.client i (f r)⟩)
        else none
      | _ => none
    | none => none
  | _ => none

theorem System.claim_writing (h : w.claim i p v = some (t, w')) :
    Writing (served false) i t p v w w' := by
  unfold System.claim at h
  split at h
  · next t k f hi =>
    split at h
    · next r s' hr =>
      split at h
      · next c e ms ho =>
        split at h
        · next hc =>
          obtain ⟨rfl, rfl⟩ := Prod.mk.inj (Option.some.inj h)
          refine .call hi ⟨⟨{}, hr⟩, rfl⟩ hc.2.1 ⟨_, c, ho, rfl, hc.1, rfl⟩ ?_
          rintro ⟨o, c', ho', -⟩
          rw [hc.2.2] at ho'
          cases ho'
        · cases h
      · cases h
    · cases h
  · cases h

theorem served_faults {k : Call} {s s' : Store} {r : Response k} (h : served false i t k s r s') :
    served true i t k s r s' := by
  obtain ⟨d, -, hd⟩ := served_iff.mp h
  exact served_iff.mpr ⟨d, .inr rfl, hd⟩

theorem Writing.current (h : Writing (served false) i t p v w w') (hc : t.ReadsCurrent w.shared) :
    Writing currentSem i t p v w w' := by
  obtain ⟨hi, hs, hk, hv, hn⟩ := h
  exact .call hi ⟨served_faults hs, fun _ ↦ hc⟩ hk hv hn

/-- Two transactions without levels. -/
def skewParty : TxnId → Party
  | 0 | 1 => .lakeVilla { levels := {} } 0
  | _ => .foreign 0

/-- Both transactions open the tables 0 and 1. -/
def openBoth : List (TxnId × Choice) :=
  steps 1 3 ++ asks 1 [.openTable 1] ++ steps 1 3 ++ steps 0 3 ++ asks 0 [.openTable 1] ++ steps 0 3

/-- Each transaction writes a table of its own. -/
theorem no_write_skew_run : ∃ w t t' w₁ w',
    Reachable currentSem (System.initial 20 skewParty (.fresh [(0, []), (1, [])])) w ∧
    Writing currentSem 0 t 1 1 w w₁ ∧ Writing currentSem 1 t' 0 1 w₁ w' ∧
    ¬ (t.ReadsBelow 0 1 ∧ t'.ReadsBelow 1 1) := by
  have hrun : ((System.runMeeting true
      (fun _ t k s _ _ ↦ !k.isCommit || decide (t.ReadsCurrent s))
      (System.initial 20 skewParty (.fresh [(0, []), (1, [])]))
      (openBoth ++ asks 0 [.readTable 0, .addRows 1 [] none, .commit false] ++
        asks 1 [.addRows 0 [] none, .commit false] ++ steps 0 1)).bind fun w ↦
          (w.claim 0 1 1).bind fun (t, w₁) ↦ (w₁.claim 1 0 1).map fun (t', _) ↦
            decide (t.ReadsCurrent w.shared) && decide (t'.ReadsCurrent w₁.shared)) =
      some true := by
    decide +kernel
  obtain ⟨w, hw, hc⟩ := Option.bind_eq_some_iff.mp hrun
  obtain ⟨⟨t, w₁⟩, hw₁, hc⟩ := Option.bind_eq_some_iff.mp hc
  obtain ⟨⟨t', w'⟩, hw', hc⟩ := Option.map_eq_some_iff.mp hc
  obtain ⟨h₀, h₁⟩ : _ ∧ _ := by simpa only [Bool.and_eq_true, decide_eq_true_eq] using hc
  have hreach := System.runMeeting_reachable
    (fun _ t k s _ _ ↦ k.isCommit = true → t.ReadsCurrent s)
    (fun _ _ k _ _ _ h hk ↦ by simpa [hk] using h) hw
  have hwrite := (System.claim_writing hw₁).current h₀
  have hwrite' := (System.claim_writing hw').current h₁
  exact ⟨w, t, t', w₁, w', hreach, hwrite, hwrite',
    no_write_skew (Store.fresh_wf _) (fun _ _ _ _ ↦ Store.fresh_unused _ _) hreach hwrite .refl
      hwrite'⟩

/-- Both transactions look for new versions before either of them writes; client 0 reads table 0
and writes table 1, client 1 reads table 1 and writes table 0, and both commits return `true`. -/
theorem commits_skewed : ∃ w t t' w₁ w' t₀ t₁,
    System.after false skewParty (.fresh [(0, []), (1, [])])
      (openBoth ++ asks 0 [.readTable 0, .addRows 1 [] none, .commit false] ++
        asks 1 [.readTable 1, .addRows 0 [] none, .commit false] ++ steps 0 1 ++ steps 1 1) =
      some w ∧
    Writing (served false) 0 t 1 1 w w₁ ∧ Writing (served false) 1 t' 0 1 w₁ w' ∧
    t.ReadsBelow 0 1 ∧ t'.ReadsBelow 1 1 ∧
    w'.outcome 0 = some (.committed false true, t₀) ∧
    w'.outcome 1 = some (.committed false true, t₁) := by
  have hrun : ((System.after false skewParty (.fresh [(0, []), (1, [])])
      (openBoth ++ asks 0 [.readTable 0, .addRows 1 [] none, .commit false] ++
        asks 1 [.readTable 1, .addRows 0 [] none, .commit false] ++ steps 0 1 ++ steps 1 1)).bind
        fun w ↦ (w.claim 0 1 1).bind fun (t, w₁) ↦ (w₁.claim 1 0 1).map fun (t', w') ↦
          decide (t.ReadsBelow 0 1) && decide (t'.ReadsBelow 1 1) &&
            decide ((w'.outcome 0).map (·.1) = some (.committed false true)) &&
            decide ((w'.outcome 1).map (·.1) = some (.committed false true))) = some true := by
    decide +kernel
  obtain ⟨w, hw, hc⟩ := Option.bind_eq_some_iff.mp hrun
  obtain ⟨⟨t, w₁⟩, hw₁, hc⟩ := Option.bind_eq_some_iff.mp hc
  obtain ⟨⟨t', w'⟩, hw', hc⟩ := Option.map_eq_some_iff.mp hc
  obtain ⟨⟨⟨h₀, h₁⟩, h₂⟩, h₃⟩ : ((_ ∧ _) ∧ _) ∧ _ := by
    simpa only [Bool.and_eq_true, decide_eq_true_eq] using hc
  obtain ⟨⟨_, t₀⟩, ht₀, rfl⟩ := Option.map_eq_some_iff.mp h₂
  obtain ⟨⟨_, t₁⟩, ht₁, rfl⟩ := Option.map_eq_some_iff.mp h₃
  exact ⟨w, t, t', w₁, w', t₀, t₁, hw, System.claim_writing hw₁, System.claim_writing hw', h₀, h₁,
    ht₀, ht₁⟩

end Runs

end LakeVilla

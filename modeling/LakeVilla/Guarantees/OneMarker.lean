import LakeVilla.Guarantees.WaitCycles
import LakeVilla.Protocol.HolderCommit

/-!
# One marker for each table

A transaction reserves a version of a table with a put-if-absent of its marker. If the request takes
effect without a response, `reserve_version` finds the version taken and reserves the next one: the
transaction remembers its own marker and waits for it at commit. `reopen_tables` reserves new
versions before it gives the old ones up, and a table that is opened twice has two of them.
Otherwise a transaction has at most one running marker in a table, which is that of its handle.
-/

namespace LakeVilla

open Concurrency Client

/-- A put-if-absent of a marker takes effect only if it reports so; a release of the client's own
marker, and the write that gives a version up, do not fail. -/
def Settled (i : TxnId) (s s' : Store) : (k : Call) → Response k → Prop
  | .writeAtomic (.version _ _) (.marker _ _), r => r.1 ≠ .ok → s'.journal = s.journal
  | .writeIfMatch (.version p v) c _, r => c = emptyCommit → s.Running p v i → r ≠ .error
  | .write (.version _ _) _, r => r = true
  | _, _ => True

/-- A version of a table is reserved when no handle of the transaction holds a running marker of the
table, and no table is opened twice. -/
def Vacant (i : TxnId) (t : Txn) (s : Store) : (k : Call) → Response k → Prop
  | .writeAtomic (.version p _) (.marker _ _), _ => ∀ tbl ∈ t.tables, ∀ mk, tbl.marker = some mk →
      mk.valid = true → mk.table = p → ¬ s.Running p mk.version i
  | .nextOp, r => ∀ p, r = Op.openTable p → ∀ tbl ∈ t.tables, tbl.basePath ≠ p
  | _, _ => True

/-- The steps, with any faults, under which a transaction has one marker in a table. -/
structure MarkerStep (i : TxnId) (t : Txn) (k : Call) (s : Store) (r : Response k) (s' : Store) :
    Prop where
  settled : Settled i s s' k r
  vacant : Vacant i t s k r

/-- The runs whose transactions have one marker in a table. -/
abbrev markerSem : Semantics TxnId Txn Response Store := Meeting (served true) MarkerStep

/-- What a transaction does with its markers: it places one if it has none in the table, and when it
asks its user or writes a commit each of them belongs to a valid handle. -/
structure Solitary (i : TxnId) (t : Txn) (k : Call) (s s' : Store) : Prop where
  placed : ∀ p v, s'.Running p v i → ¬ s.Running p v i → ∀ u, ¬ s.Running p u i
  held : k = .nextOp ∨ k.isCommit = true → ∀ p v, s.Running p v i →
    ∃ tbl ∈ t.tables, ∃ mk, tbl.marker = some mk ∧ mk.valid = true ∧ mk.path = .version p v ∧
      tbl.basePath = p

/-- Transactions place one marker in a table. -/
def solitary (party : TxnId → Party) : Protocol TxnId Txn Response Store where
  inv _ := True
  guar i t k s _ s' :=
    match party i with
    | .lakeVilla _ _ => Solitary i t k s s'
    | .foreign _ => True

section Safe

variable {fuel : ℕ} {party : TxnId → Party} {s : Store} {i : TxnId} {c : Config} {p : Table}

/-- Fenced steps that meet the condition. -/
abbrev fencedMarkerSem : Semantics TxnId Txn Response Store := fencing.restrict markerSem

theorem solitary_holder (hp : party i = .lakeVilla c p) :
    Holder fencedMarkerSem (solitary party) i c True where
  served h := served_answer h.1.1
  fenced h := h.2.2.2
  placed h := h.1.2.settled
  released {t p v e s r s' o d} h ho hc he := by
    have hne : r ≠ .error := h.1.2.settled rfl ⟨o, d, ho, hc⟩
    obtain ⟨d', hd⟩ := served_answer h.1.1
    rcases answer_writeIfMatch hd with ⟨hr, -⟩ | ⟨-, hmis, -⟩ | ⟨hr, -⟩
    · exact hr
    · exact absurd he (hmis o ho)
    · exact absurd hr hne
  overwritten {t p v cm s r s'} h := by
    obtain ⟨d, hd⟩ := served_answer h.1.1
    rcases answer_write hd with ⟨-, rfl⟩ | ⟨hr, -⟩
    · rintro ⟨o, d', ho, hc⟩
      rw [Store.get_put_self] at ho
      obtain rfl := Option.some.inj ho
      cases hc
    · cases hr.symm.trans h.1.2.settled
  asked h _ := h.1.2.vacant _ rfl
  step {t k s r s' X} hk _ hs hh hX := by
    refine ⟨trivial, ?_⟩
    obtain ⟨d, hd⟩ := served_answer hs.1.1
    simp only [solitary, hp]
    refine ⟨fun q v hr hn ↦ absurd (answer_placeless hk hd hr) hn, fun hc q v hr ↦ ?_⟩
    obtain ⟨mk, hmk, hv, hpath⟩ := hh.held hr
    rcases hX with rfl | hidle
    · obtain ⟨tbl, htbl, hm⟩ := hmk.resolve_left List.not_mem_nil
      refine ⟨tbl, htbl, mk, hm, hv, hpath, ?_⟩
      rw [← hh.table tbl htbl mk hm]
      exact (Key.version.inj hpath).1
    · simp only [Call.idle, Bool.and_eq_true, Bool.not_eq_true', decide_eq_true_eq] at hidle
      rcases hc with hc | hc
      · exact absurd hc hidle.2
      · exact absurd hc (by simp [hidle.1.2])
  place {t q v d s r s' X} _ hh hX hs := by
    refine ⟨trivial, ?_⟩
    simp only [solitary, hp]
    refine ⟨fun q' v' hr hn u hu ↦ ?_, by simp [Call.isCommit]⟩
    obtain ⟨d', hd⟩ := served_answer hs.1.1
    have hq : q' = q := by
      obtain ⟨o, dl, ho, hc⟩ := hr
      by_contra hne
      have hget : ∀ c', ((s.wait d'.delay).put (.version q v) c').get (.version q' v') =
          s.get (.version q' v') := fun c' ↦
        Store.get_put_of_ne _ _ fun h ↦ hne (Key.version.inj h).1
      obtain ⟨r, e⟩ := r
      rcases answer_writeAtomic hd with ⟨-, -, -, rfl⟩ | ⟨-, -, rfl⟩ | ⟨-, -, rfl | ⟨-, rfl⟩⟩
      · exact hn ⟨o, dl, (hget _).symm.trans ho, hc⟩
      · exact hn ⟨o, dl, ho, hc⟩
      · exact hn ⟨o, dl, ho, hc⟩
      · exact hn ⟨o, dl, (hget _).symm.trans ho, hc⟩
    subst hq
    obtain ⟨mk, hmk, hv, hpath⟩ := hh.held hu
    obtain ⟨htable, rfl⟩ := Key.version.inj hpath
    rcases hmk with hmk | ⟨tbl, htbl, hm⟩
    · exact hX trivial mk hmk htable
    · exact hs.1.2.vacant tbl htbl mk hm hv htable hu

theorem solitary_safe (hu : ∀ i c p, party i = .lakeVilla c p → ∀ q v, ¬ s.Placed i q v) :
    Safe fencedMarkerSem (solitary party) (fun _ _ _ ↦ True) (System.initial fuel party s) where
  shared := trivial
  client i := by
    cases hp : party i with
    | lakeVilla c p =>
      have hnone : ∀ q v, ¬ s.Running q v i := fun q v hr ↦ hu i c p hp q v hr.placed
      have hinit : Holding i c [] (c.manager i) s :=
        ⟨rfl, rfl, fun hr ↦ absurd hr (hnone _ _), by simp [Txn.Handles, Config.manager],
          by simp [Config.manager], fun _ ↦ hnone⟩
      have := (solitary_holder hp).transaction fuel p trivial hinit rfl
      simp only [System.initial, hp, Party.program]
      exact Concurrency.wp.mono this fun _ _ _ _ ↦ trivial
    | foreign p =>
      exact wp.trivial (fun _ ↦ trivial) (fun _ _ _ _ _ ↦ by simp only [solitary, hp]) _ s

end Safe

/-! ## Runs -/

/-- A running marker of a transaction has the highest version that it placed in the table. -/
structure Highest (party : TxnId → Party) (s : Store) : Prop where
  exists_ : ∀ {x p v}, (party x).IsTransaction → s.Placed x p v → s.Exists p v
  highest : ∀ {x p u v}, (party x).IsTransaction → s.Running p u x → s.Placed x p v → v ≤ u

section Runs

variable {fuel : ℕ} {party : TxnId → Party} {s s' : Store} {w : System} {i : TxnId} {c : Config}
variable {p : Table}

/-- **One step.** -/
theorem Highest.step (h : Highest party s) {d : Choice} {k : Call} {r : Response k}
    (hd : answer d k (s.wait d.delay) = (r, s')) (hf : Fenced i s s') (hwf : s.WF)
    (hs : (party i).IsTransaction → ∀ p v, s'.Running p v i → ¬ s.Running p v i →
      ∀ u, ¬ s.Running p u i) : Highest party s' where
  exists_ {x p v} hx hp := by
    by_cases hold : s.Placed x p v
    · exact hf.exists_mono (h.exists_ hx hold)
    · exact (hp.back hd hf.fence hold).2.1.exists_
  highest {x p u v} hx hu hp := by
    by_cases hrun : s.Running p u x
    · by_cases hold : s.Placed x p v
      · exact h.highest hx hrun hold
      · obtain ⟨rfl, hv, -⟩ := hp.back hd hf.fence hold
        exact absurd hrun (hs hx p v hv (fun hv ↦ hold hv.placed) u)
    · obtain ⟨hnone, rfl⟩ := (hf.running_back hu).resolve_left hrun
      by_contra hlt
      by_cases hold : s.Placed x p v
      · -- a version below an existing one exists
        have := hwf.below (Nat.le_of_lt (not_le.mp hlt)) (h.exists_ hx hold)
        rw [Store.Exists, hnone] at this
        cases this
      · rcases (hp.back hd hf.fence hold).2.2 x p u hu with h' | heq
        · exact hrun h'
        · exact hlt (Nat.le_of_eq (Prod.mk.inj heq).2.symm)

/-- Every call of the user's and every commit may fail without an effect. -/
theorem markerSem_failed (i : TxnId) (t : Txn) {k : Call} (hk : k = .nextOp ∨ k.isCommit = true)
    (s : Store) : ∃ r, markerSem i t k s r (s.wait 0) := by
  rcases hk with rfl | hk
  · exact ⟨.abort, served_iff.mpr ⟨{}, .inl rfl, rfl⟩, trivial, nofun⟩
  · obtain ⟨r, hr⟩ := served_failed i t k s
    refine ⟨r, hr, ?_, ?_⟩
    · unfold Settled
      split
      · cases hk
      · rintro rfl
        cases hk
      · cases hk
      · trivial
    · unfold Vacant
      split
      · cases hk
      · cases hk
      · trivial

/-- **One marker for each table.** While requests for markers take effect only if they are answered
with success, and tables are reserved when they have no marker, a transaction has at most one
running marker in a table; it neither remembers it nor waits for it, and whenever the transaction
asks its user or writes a commit it is the valid handle of the table. -/
theorem one_marker (hs : s.WF)
    (hu : ∀ i c p, party i = .lakeVilla c p → s.Unused i ∧ ∀ q v, ¬ s.Placed i q v)
    (h : Reachable markerSem (System.initial fuel party s) w) (hp : party i = .lakeVilla c p) :
    (∀ q u v, w.shared.Running q u i → w.shared.Running q v i → u = v) ∧
    ∀ t k f, w.client i = .call t k f →
      (∀ e ∈ t.prevMarkers, ¬ w.shared.Running e.1 e.2 i) ∧
      (∀ e, t.waiting = some e → ¬ w.shared.Running e.1 e.2 i) ∧
      (k = .nextOp ∨ k.isCommit = true → ∀ q v, w.shared.Running q v i →
        ∃ tbl ∈ t.tables, ∃ mk, tbl.marker = some mk ∧ mk.valid = true ∧
          mk.path = .version q v ∧ tbl.basePath = q) := by
  have hsem : ∀ {i t k s r s'}, markerSem i t k s r s' →
      ∃ d, answer d k (s.wait d.delay) = (r, s') := fun h ↦ served_answer h.1
  have hfenced : Safe markerSem fencing _ (System.initial fuel party s) :=
    fencing_safe hsem hs fun i c p hp ↦ (hu i c p hp).1
  have hreach := hfenced.restrict h
  have hsolitary : Safe fencedMarkerSem (solitary party) _ (System.initial fuel party s) :=
    solitary_safe fun i c p hp ↦ (hu i c p hp).2
  have hhighest : Highest party w.shared := by
    refine (hsolitary.restrict hreach).invariant (P := fun w ↦ Highest party w.shared) ?_
      fun hh hstep ↦ ?_
    · have hnone : ∀ {x p v}, (party x).IsTransaction → ¬ s.Placed x p v :=
        fun ⟨c, p, hp⟩ ↦ (hu _ c p hp).2 _ _
      exact ⟨fun hx hp ↦ absurd hp (hnone hx), fun hx _ hp ↦ absurd hp (hnone hx)⟩
    · obtain ⟨j, -, ⟨hsem, hwf, -, hf⟩, -, -, hg⟩ := hstep
      obtain ⟨d, hd⟩ := served_answer hsem.1
      refine hh.step hd hf hwf fun ⟨c, p, hp⟩ ↦ ?_
      simp only [solitary, hp] at hg
      exact hg.placed
  have htrans : (party i).IsTransaction := ⟨c, p, hp⟩
  refine ⟨fun q u v hu hv ↦ ?_, fun t k f hcall ↦ ?_⟩
  · exact le_antisymm (hhighest.highest htrans hv hu.placed)
      (hhighest.highest htrans hu hv.placed)
  · have hb : Behind i c t w.shared := by
      have hsafe : Safe (served true) (remembering party) _ w :=
        (remembering_safe served_answer).reachable (h.mono And.left)
      obtain ⟨r, hr⟩ := served_failed i t k w.shared
      have := (hsafe.act hcall hr).2.2.2
      simpa only [remembering, hp] using this
    have hbelow : ∀ e : Table × ℕ, (∃ v, e.2 < v ∧ w.shared.Placed i e.1 v) →
        ¬ w.shared.Running e.1 e.2 i := fun e ⟨v, hv, hplaced⟩ hrun ↦
      absurd (hhighest.highest htrans hrun hplaced) (not_le.mpr hv)
    refine ⟨fun e he ↦ hbelow e (hb.prev e he), fun e he ↦ hbelow e (hb.waiting e he), fun hk ↦ ?_⟩
    obtain ⟨r, hr⟩ := markerSem_failed i t hk w.shared
    have hwf : w.shared.WF := (hfenced.reachable h).shared
    have := ((hsolitary.reachable hreach).act hcall
      ⟨hr, hwf, hwf.wait 0, Fenced.refl_wait i w.shared 0⟩).2.2.2
    simp only [solitary, hp] at this
    exact this.held hk

/-! ### A transaction that meets its own marker -/

/-- The writes are answered, and a version is reserved by a transaction without a valid handle. -/
def markerStep (t : Txn) (s s' : Store) : (k : Call) → Response k → Bool
  | .writeAtomic _ _, r => (decide (r.1 = .ok) || decide (s'.journal = s.journal)) &&
      t.tables.all fun tbl ↦ tbl.marker.all fun mk ↦ !mk.valid
  | .writeIfMatch _ _ _, r => decide (r ≠ .error)
  | .write _ _, r => r
  | .nextOp, r => t.tables.all fun tbl ↦ decide (r ≠ .openTable tbl.basePath)
  | _, _ => true

theorem markerStep_sound {i : TxnId} {t : Txn} {k : Call} {r : Response k}
    (h : markerStep t s s' k r = true) : MarkerStep i t k s r s' := by
  cases k with
  | writeAtomic k c =>
    simp only [markerStep, Bool.and_eq_true, Bool.or_eq_true, decide_eq_true_eq,
      List.all_eq_true] at h
    cases k with
    | version p v =>
      cases c with
      | marker j d =>
        refine ⟨fun hr ↦ h.1.resolve_left hr, fun tbl htbl mk hm hv ↦ ?_⟩
        have := h.2 tbl htbl
        rw [hm, Option.all_some, hv] at this
        cases this
      | _ => exact ⟨trivial, trivial⟩
    | _ => exact ⟨trivial, trivial⟩
  | writeIfMatch k c etag =>
    cases k with
    | version p v => exact ⟨fun _ _ ↦ of_decide_eq_true h, trivial⟩
    | _ => exact ⟨trivial, trivial⟩
  | write k c =>
    cases k with
    | version p v => exact ⟨h, trivial⟩
    | _ => exact ⟨trivial, trivial⟩
  | nextOp =>
    refine ⟨trivial, fun q hr tbl htbl hb ↦ ?_⟩
    have := List.all_eq_true.mp h tbl htbl
    rw [hb] at this
    exact of_decide_eq_true this hr
  | check | read | deleteFile | listObjects | storeTime | localTimeMs | schedule =>
    exact ⟨trivial, trivial⟩

/-- Two transactions with sublogs on one table. -/
def markerParty : TxnId → Party
  | 0 | 1 => .lakeVilla { levels := { l0 := true } } 0
  | _ => .foreign 0

/-- A put-if-absent of client 1 fails without an effect; then it reserves the version behind
client 0. -/
theorem one_marker_run : ∃ (w : System) (t : Txn) (f : _),
    Reachable markerSem (System.initial 20 markerParty (.fresh [(0, [])])) w ∧
    w.client 1 = .call t .nextOp f ∧ t.prevMarkers = [(0, 1)] ∧ w.shared.Running 0 2 1 ∧
    (∀ q u v, w.shared.Running q u 1 → w.shared.Running q v 1 → u = v) ∧
    (∀ e ∈ t.prevMarkers, ¬ w.shared.Running e.1 e.2 1) ∧
    ∀ q v, w.shared.Running q v 1 → ∃ tbl ∈ t.tables, ∃ mk, tbl.marker = some mk ∧
      mk.valid = true ∧ mk.path = .version q v ∧ tbl.basePath = q := by
  have hrun : ((System.runMeeting true (fun _ t k s r s' ↦ markerStep t s s' k r)
      (System.initial 20 markerParty (.fresh [(0, [])]))
      (steps 0 6 ++ steps 1 3 ++ [(1, { fault := .failed })] ++ steps 1 7)).any fun w ↦
      w.prompted 1 (fun t ↦ decide (t.prevMarkers = [(0, 1)])) &&
        decide (w.shared.owner 0 2 = some 1)) = true := by
    decide +kernel
  obtain ⟨w, hw, hc⟩ := (Option.any_eq_true ..).mp hrun
  simp only [Bool.and_eq_true, decide_eq_true_eq] at hc
  obtain ⟨hprompt, howner⟩ := hc
  have hreach := System.runMeeting_reachable MarkerStep (fun _ _ _ _ _ _ ↦ markerStep_sound) hw
  obtain ⟨hone, hcall⟩ := one_marker (i := 1) (Store.fresh_wf _)
    (fun _ _ _ _ ↦ ⟨Store.fresh_unused _ _, Store.fresh_unplaced _ _⟩) hreach rfl
  obtain ⟨t, f, h, hprompt⟩ := System.prompted_iff.mp hprompt
  obtain ⟨hprev, -, hheld⟩ := hcall t .nextOp f h
  exact ⟨w, t, f, hreach, h, of_decide_eq_true hprompt, Store.running_iff.mpr howner, hone, hprev,
    hheld (.inl rfl)⟩

/-- The response to the put-if-absent of version 1 is lost: the transaction reserves version 2 as
well, and at commit it waits for its own marker. -/
theorem one_marker_lost : ∃ (w : System) (t : Txn) (k : Call) (f : _),
    System.after true markerParty (.fresh [(0, [])])
      (steps 0 3 ++ [(0, { fault := .lost })] ++ steps 0 8 ++ asks 0 [.commit false]) = some w ∧
    w.client 0 = .call t k f ∧ w.shared.Running 0 1 0 ∧ w.shared.Running 0 2 0 ∧
    (0, 1) ∈ t.prevMarkers ∧ t.waiting = some (0, 1) := by
  have hrun : ((System.after true markerParty (.fresh [(0, [])])
      (steps 0 3 ++ [(0, { fault := .lost })] ++ steps 0 8 ++ asks 0 [.commit false])).any fun w ↦
      w.calling 0 (fun t _ ↦ decide (t.prevMarkers = [(0, 1)]) &&
          decide (t.waiting = some (0, 1))) && decide (w.shared.owner 0 1 = some 0) &&
        decide (w.shared.owner 0 2 = some 0)) = true := by
    decide +kernel
  obtain ⟨w, hw, hc⟩ := (Option.any_eq_true ..).mp hrun
  simp only [Bool.and_eq_true, decide_eq_true_eq] at hc
  obtain ⟨⟨hwait, h₁⟩, h₂⟩ := hc
  obtain ⟨t, k, f, h, hwait⟩ := System.calling_iff.mp hwait
  simp only [Bool.and_eq_true, decide_eq_true_eq] at hwait
  exact ⟨w, t, k, f, hw, h, Store.running_iff.mpr h₁, Store.running_iff.mpr h₂,
    by simp [hwait.1], hwait.2⟩

end Runs

end LakeVilla

import LakeVilla.Data.Acyclic
import LakeVilla.Guarantees.Fencing
import LakeVilla.Protocol.Remembering

/-!
# Transactions that wait for each other

A transaction remembers the running markers below its own ones, and its commit waits for them
(`System.Waits`). Whoever waits for a marker is queued behind it in the log (`Store.Queued`).
Transactions that open two tables in opposite orders queue behind each other, and the dependencies
that are registered at level 1 do not show it. As long as no transaction places a marker that closes
a cycle of the queues, nobody waits in a cycle.
-/

namespace LakeVilla

open Concurrency Client Relation

/-! ## Queues -/

/-- Client `i` has placed a marker above a running marker of client `j`. -/
def Store.Queued (s : Store) (i j : TxnId) : Prop :=
  ∃ p u v, u < v ∧ s.Placed i p v ∧ s.Running p u j

/-- A step of client `i` that places a marker closes no cycle: nobody whose running marker lies
below it is queued, directly or through others, behind a running marker of client `i`. -/
def Uncrossed (i : TxnId) (s s' : Store) : Prop :=
  ∀ p v, s'.Placed i p v → ¬ s.Placed i p v → ∀ u < v, ∀ j, s.Running p u j →
    ¬ ReflTransGen s.Queued j i

/-- The client is a LakeVilla transaction. -/
def Party.IsTransaction (party : Party) : Prop := ∃ c p, party = .lakeVilla c p

/-- Transaction `i` is active and remembers a version that holds a running marker of client `j`. -/
def System.Waits (party : TxnId → Party) (w : System) (i j : TxnId) : Prop :=
  (party i).IsTransaction ∧ ∃ t k f, w.client i = .call t k f ∧
    ∃ e ∈ t.prevMarkers, w.shared.Running e.1 e.2 j

section Queues

variable {i x : TxnId} {d : Choice} {k : Call} {r : Response k} {s s' : Store} {p : Table} {v : ℕ}

/-- A new marker is the only change of its step. -/
theorem Store.Placed.back (hd : answer d k (s.wait d.delay) = (r, s')) (hf : Fence i s s')
    (h : s'.Placed x p v) (hn : ¬ s.Placed x p v) :
    x = i ∧ s'.Running p v x ∧
      ∀ y q u, s'.Running q u y → s.Running q u y ∨ (q, u) = (p, v) := by
  obtain ⟨o, dl, ho, hc⟩ := h
  rcases answer_journal hd with hj | ⟨e, hj⟩
  · rw [hj] at ho
    exact absurd ⟨o, dl, ho, hc⟩ hn
  · rw [Store.wait_journal] at hj
    rw [hj] at ho
    rcases List.mem_cons.mp ho with rfl | ho
    · have hget : s'.get (.version p v) = some o := by
        rw [Store.get, hj, List.lookup_cons_self]
        rfl
      rcases hf.placed p v o x dl hget hc with h | ⟨-, hx⟩
      · exact absurd ⟨o, dl, Store.mem_of_get h, hc⟩ hn
      · refine ⟨hx, ⟨o, dl, hget, hc⟩, fun y q u hq ↦ ?_⟩
        by_cases hqu : (q, u) = (p, v)
        · exact .inr hqu
        · obtain ⟨o', d', ho', hc'⟩ := hq
          have hne : Key.version q u ≠ .version p v := fun h ↦ by
            obtain ⟨rfl, rfl⟩ := Key.version.inj h
            exact hqu rfl
          rw [Store.get, hj, AssocList.lookup_cons_of_ne hne] at ho'
          exact .inl ⟨o', d', ho', hc'⟩
    · exact absurd ⟨o, dl, ho, hc⟩ hn

/-- No transaction is queued behind itself, directly or through others. -/
structure QueuesEnd (party : TxnId → Party) (s : Store) : Prop where
  exists_ : ∀ {x p v}, (party x).IsTransaction → s.Placed x p v → s.Exists p v
  acyclic : ∀ x, ¬ TransGen (fun x y ↦ (party x).IsTransaction ∧ s.Queued x y) x x

variable {party : TxnId → Party}

/-- **One step.** -/
theorem QueuesEnd.step (h : QueuesEnd party s) (hd : answer d k (s.wait d.delay) = (r, s'))
    (hf : Fenced i s s') (hwf : s.WF) (hu : Uncrossed i s s') : QueuesEnd party s' where
  exists_ {x p v} hx hp := by
    by_cases hold : s.Placed x p v
    · exact hf.exists_mono (h.exists_ hx hold)
    · exact (hp.back hd hf.fence hold).2.1.exists_
  acyclic := by
    refine acyclic_of_edges (a := i) (fun x y hxy ↦ ?_) h.acyclic
    obtain ⟨hx, p, u, v, huv, hp, hrun⟩ := hxy
    by_cases hold : s.Placed x p v
    · refine .inl ⟨hx, p, u, v, huv, hold, ?_⟩
      obtain ⟨o, dl, ho, hc⟩ := hrun
      rcases hf.fence.placed p u o y dl ho hc with ho' | ⟨ho', -⟩
      · exact ⟨o, dl, ho', hc⟩
      · -- below a version that exists nothing is absent
        have := hwf.below (Nat.le_of_lt huv) (h.exists_ hx hold)
        rw [Store.Exists, ho'] at this
        cases this
    · obtain ⟨rfl, -, hback⟩ := hp.back hd hf.fence hold
      rcases hback y p u hrun with hrun | heq
      · refine .inr ⟨rfl, fun hy ↦ ?_⟩
        exact hu p v hp hold u huv y hrun (ReflTransGen.mono (fun _ _ hq ↦ hq.2) _ _ hy)
      · exact absurd (Prod.mk.inj heq).2 (Nat.ne_of_lt huv)

end Queues

/-! ## What the clients remember -/

/-- Transactions remember versions below their own, other writers nothing. -/
def remembering (party : TxnId → Party) : Protocol TxnId Txn Response Store where
  inv _ := True
  guar i t _ s _ _ :=
    match party i with
    | .lakeVilla c _ => Behind i c t s
    | .foreign _ => True

section Safe

variable {sem : Semantics TxnId Txn Response Store} {fuel : ℕ} {party : TxnId → Party} {s : Store}

theorem remembering_safe
    (hsem : ∀ {i t k s r s'}, sem i t k s r s' → ∃ d, answer d k (s.wait d.delay) = (r, s')) :
    Safe sem (remembering party) (fun _ _ _ ↦ True) (System.initial fuel party s) where
  shared := trivial
  client i := by
    cases hp : party i with
    | lakeVilla c p =>
      have D : Watching sem (remembering party) i c :=
        ⟨hsem, fun _ ↦ trivial, fun h ↦ by simpa only [remembering, hp] using h⟩
      have htriv : Durable fun _ ↦ True := fun _ _ _ _ ↦ trivial
      have hinit : Behind i c (c.manager i) s := ⟨rfl, rfl, by simp [Config.manager], nofun,
        fun _ tbl htbl ↦ by simp [Config.manager] at htbl⟩
      have := D.transaction htriv fuel p (c.manager i) s trivial ⟨hinit, trivial⟩
      simp only [System.initial, hp, Party.program]
      exact Concurrency.wp.mono this fun _ _ _ _ ↦ trivial
    | foreign p =>
      exact wp.trivial (fun _ ↦ trivial)
        (fun _ _ _ _ _ ↦ by simp only [remembering, hp]) _ s

end Safe

section Runs

variable {fuel : ℕ} {party : TxnId → Party} {s : Store} {w : System}

/-- The runs in which no marker closes a cycle of the queues. -/
abbrev uncrossedSem : Semantics TxnId Txn Response Store :=
  Meeting (served true) fun i _ _ s _ s' ↦ Uncrossed i s s'

/-- Every call may fail without an effect. -/
theorem served_failed (i : TxnId) (t : Txn) (k : Call) (s : Store) :
    ∃ r, served true i t k s r (s.wait 0) := by
  have h : (answer { fault := .failed } k (s.wait 0)).2 = s.wait 0 := by
    cases k <;> rfl
  exact ⟨_, served_iff.mpr ⟨{ fault := .failed }, .inr rfl, Prod.ext rfl h⟩⟩

/-- **No wait cycle.** While no marker closes a cycle of the queues, no transaction waits for
itself, directly or through others. -/
theorem waits_acyclic (hs : s.WF)
    (hu : ∀ i c p, party i = .lakeVilla c p → s.Unused i ∧ ∀ q v, ¬ s.Placed i q v)
    (h : Reachable uncrossedSem (System.initial fuel party s) w) (i : TxnId) :
    ¬ TransGen (w.Waits party) i i := by
  have hsem : ∀ {i t k s r s'}, uncrossedSem i t k s r s' →
      ∃ d, answer d k (s.wait d.delay) = (r, s') :=
    fun h ↦ served_answer h.1
  have hqueues : QueuesEnd party w.shared := by
    refine ((fencing_safe hsem hs fun i c p hp ↦ (hu i c p hp).1).restrict h).invariant
      (P := fun w ↦ QueuesEnd party w.shared) ?_ fun hq hstep ↦ ?_
    · have hnone : ∀ {x p v}, (party x).IsTransaction → ¬ s.Placed x p v :=
        fun ⟨c, p, hp⟩ ↦ (hu _ c p hp).2 _ _
      refine ⟨fun hx hp ↦ absurd hp (hnone hx), fun x hx ↦ ?_⟩
      obtain ⟨y, ⟨hx, p, u, v, -, hp, -⟩, -⟩ := TransGen.head'_iff.mp hx
      exact hnone hx hp
    · obtain ⟨i, -, hsem', hwf, -, hf⟩ := hstep
      obtain ⟨d, hd⟩ := hsem hsem'
      exact hq.step hd hf hwf hsem'.2
  have hsafe : Safe uncrossedSem (remembering party) (fun _ _ _ ↦ True) w :=
    (remembering_safe hsem).reachable h
  intro hcycle
  refine hqueues.acyclic i (TransGen.mono (fun x y hxy ↦ ?_) _ _ hcycle)
  obtain ⟨⟨c, p, hp⟩, t, k, f, hx, e, he, hrun⟩ := hxy
  obtain ⟨r, hr⟩ := served_failed x t k w.shared
  have hb : Behind x c t w.shared := by
    have := (hsafe.act hx ⟨hr, fun p v h hn ↦ absurd h hn⟩).2.2.2
    simpa only [remembering, hp] using this
  obtain ⟨v, hv, hplaced⟩ := hb.prev e he
  exact ⟨⟨c, p, hp⟩, e.1, e.2, v, hv, hplaced, hrun⟩

/-! ### Two transactions that open two tables -/

/-- The client whose running marker the content is. -/
def Content.owner : Content → Option TxnId
  | .marker j _ => some j
  | _ => none

/-- The client whose running marker a version holds. -/
def Store.owner (s : Store) (p : Table) (v : ℕ) : Option TxnId :=
  (s.get (.version p v)).bind (·.content.owner)

theorem Content.owner_eq_some {c : Content} {j : TxnId} :
    c.owner = some j ↔ ∃ d, c = .marker j d := by
  cases c <;> simp [owner]

theorem Store.running_iff {s : Store} {p : Table} {v : ℕ} {j : TxnId} :
    s.Running p v j ↔ s.owner p v = some j := by
  simp only [Running, owner, Option.bind_eq_some_iff, Content.owner_eq_some, exists_and_left]

/-- Client `j` is queued behind nobody. -/
def Store.unqueued (s : Store) (j : TxnId) : Bool :=
  s.journal.all fun e ↦
    match e with
    | (.version p v, some o) =>
      decide (o.content.owner ≠ some j) || (List.range v).all fun u ↦ (s.owner p u).isNone
    | _ => true

theorem Store.not_queued {s : Store} {j x : TxnId} (h : s.unqueued j = true) : ¬ s.Queued j x := by
  rintro ⟨p, u, v, huv, ⟨o, d, ho, hc⟩, hrun⟩
  have := List.all_eq_true.mp h _ ho
  simp only [Bool.or_eq_true, decide_eq_true_eq, List.all_eq_true, List.mem_range] at this
  rcases this with hne | hall
  · exact hne (Content.owner_eq_some.mpr ⟨d, hc⟩)
  · have := hall u huv
    rw [running_iff.mp hrun] at this
    cases this

/-- Markers that client `i` places lie above markers of clients that are queued behind nobody. -/
def uncrossed (i : TxnId) (s s' : Store) : Bool :=
  s'.journal.all fun e ↦
    match e with
    | (.version p v, some o) =>
      decide (o.content.owner ≠ some i) || decide (e ∈ s.journal) || (List.range v).all fun u ↦
        (s.owner p u).all fun j ↦ decide (j ≠ i) && s.unqueued j
    | _ => true

theorem uncrossed_sound {i : TxnId} {s s' : Store} (h : uncrossed i s s' = true) :
    Uncrossed i s s' := by
  rintro p v ⟨o, d, ho, hc⟩ hn u huv j hrun hj
  have := List.all_eq_true.mp h _ ho
  simp only [Bool.or_eq_true, decide_eq_true_eq, List.all_eq_true, List.mem_range] at this
  rcases this with (hne | hmem) | hall
  · exact hne (Content.owner_eq_some.mpr ⟨d, hc⟩)
  · exact hn ⟨o, d, hmem, hc⟩
  · have := hall u huv
    rw [Store.running_iff.mp hrun, Option.all_some, Bool.and_eq_true, decide_eq_true_eq] at this
    rcases ReflTransGen.cases_head hj with rfl | ⟨x, hx, -⟩
    · exact this.1 rfl
    · exact Store.not_queued this.2 hx

/-- The transaction of client `i` remembers a running marker of client `j`. -/
def System.waitsFor (w : System) (i j : TxnId) : Bool :=
  match w.client i with
  | .call t _ _ => t.prevMarkers.any fun e ↦ decide (w.shared.owner e.1 e.2 = some j)
  | _ => false

theorem System.waits_of_waitsFor {i j : TxnId} (hi : (party i).IsTransaction)
    (h : w.waitsFor i j = true) : w.Waits party i j := by
  unfold System.waitsFor at h
  split at h
  · next t k f hc =>
    obtain ⟨e, he, hj⟩ := List.any_eq_true.mp h
    exact ⟨hi, t, k, f, hc, e, he, Store.running_iff.mpr (of_decide_eq_true hj)⟩
  · cases h

theorem Store.fresh_unplaced (logs : List (Table × List Action)) (i : TxnId) (p : Table) (v : ℕ) :
    ¬ (Store.fresh logs).Placed i p v := by
  rintro ⟨o, d, ho, hc⟩
  obtain ⟨e, -, he⟩ := List.mem_map.mp ho
  obtain rfl := Option.some.inj (Prod.mk.inj he).2
  cases hc

/-- Two transactions of level 1. -/
def crossParty : TxnId → Party
  | 0 | 1 => .lakeVilla { levels := { l1 := true } } 0
  | _ => .foreign 0

/-- Client 0 opens table 0 behind client 1. -/
theorem waits_acyclic_run : ∃ w : System,
    Reachable uncrossedSem (System.initial 20 crossParty (.fresh [(0, []), (1, [])])) w ∧
    w.Waits crossParty 0 1 ∧ ∀ i, ¬ TransGen (w.Waits crossParty) i i := by
  have hrun : ((System.runMeeting true (fun i _ _ s _ s' ↦ uncrossed i s s')
      (System.initial 20 crossParty (.fresh [(0, []), (1, [])])) (steps 1 6 ++ steps 0 8)).any
        fun w ↦ w.waitsFor 0 1) = true := by
    decide +kernel
  obtain ⟨w, hw, hc⟩ := (Option.any_eq_true ..).mp hrun
  have hreach := System.runMeeting_reachable (fun i _ _ s _ s' ↦ Uncrossed i s s')
    (fun _ _ _ _ _ _ ↦ uncrossed_sound) hw
  exact ⟨w, hreach, System.waits_of_waitsFor ⟨_, _, rfl⟩ hc, waits_acyclic (Store.fresh_wf _)
    (fun _ _ _ _ ↦ ⟨Store.fresh_unused _ _, Store.fresh_unplaced _ _⟩) hreach⟩

/-- Client 0 opens table 1 as well, and client 1 opens it behind client 0: each of them registers
the other one once, and no dependency is found. -/
theorem waits_cyclic : ∃ (w : System) (t t' : Txn) (f f' : _),
    System.after false crossParty (.fresh [(0, []), (1, [])])
      (steps 1 6 ++ steps 0 8 ++ asks 0 [.openTable 1] ++ steps 0 6 ++ asks 1 [.openTable 1] ++
        steps 1 8) = some w ∧
    w.client 0 = .call t .nextOp f ∧ w.client 1 = .call t' .nextOp f' ∧
    TransGen (w.Waits crossParty) 0 0 := by
  have hrun : ((System.after false crossParty (.fresh [(0, []), (1, [])])
      (steps 1 6 ++ steps 0 8 ++ asks 0 [.openTable 1] ++ steps 0 6 ++ asks 1 [.openTable 1] ++
        steps 1 8)).any fun w ↦
      w.prompted 0 (fun _ ↦ true) && w.prompted 1 (fun _ ↦ true) &&
        w.waitsFor 0 1 && w.waitsFor 1 0) = true := by
    decide +kernel
  obtain ⟨w, hw, hc⟩ := (Option.any_eq_true ..).mp hrun
  simp only [Bool.and_eq_true] at hc
  obtain ⟨⟨⟨hprompt, hprompt'⟩, h01⟩, h10⟩ := hc
  obtain ⟨t, f, h₀, -⟩ := System.prompted_iff.mp hprompt
  obtain ⟨t', f', h₁, -⟩ := System.prompted_iff.mp hprompt'
  refine ⟨w, t, t', f, f', hw, h₀, h₁, ?_⟩
  exact .tail (.single (System.waits_of_waitsFor ⟨_, _, rfl⟩ h01))
    (System.waits_of_waitsFor ⟨_, _, rfl⟩ h10)

end Runs

end LakeVilla

import LakeVilla.Protocol.System

/-!
# The runs of the object store

The steps of a run are the answers of the object store (`serve`), with or without faults. A claim
that holds under a condition is about the runs whose steps all meet it (`Meeting`).
-/

namespace LakeVilla

open Concurrency

/-- The answered calls of the object store. -/
def served (faults : Bool) : Semantics TxnId Txn Response Store :=
  semOf (serve faults) fun _ _ _ _ _ ↦ true

/-- The steps that meet a condition. -/
def Meeting (sem : Semantics TxnId Txn Response Store)
    (cond : TxnId → Txn → (k : Call) → Store → Response k → Store → Prop) :
    Semantics TxnId Txn Response Store :=
  fun i t k s r s' ↦ sem i t k s r s' ∧ cond i t k s r s'

section Served

variable {faults : Bool} {i : TxnId} {t : Txn} {k : Call} {s s' : Store} {r : Response k}

theorem served_iff : served faults i t k s r s' ↔
    ∃ d : Choice, (d.fault = .none ∨ faults = true) ∧ answer d k (s.wait d.delay) = (r, s') := by
  constructor
  · rintro ⟨⟨d, hd⟩, -⟩
    unfold serve at hd
    split at hd
    · next h => exact ⟨d, h, Option.some.inj hd⟩
    · cases hd
  · rintro ⟨d, h, hd⟩
    refine ⟨⟨d, ?_⟩, rfl⟩
    rw [serve, if_pos h, hd]

theorem served_answer (h : served faults i t k s r s') :
    ∃ d, answer d k (s.wait d.delay) = (r, s') :=
  have ⟨d, _, hd⟩ := served_iff.mp h
  ⟨d, hd⟩

end Served

/-- A store with one version of each table, which no transaction of the run has written. -/
def Store.fresh (logs : List (Table × List Action)) : Store where
  journal := logs.map fun e ↦ (.version e.1 0, some ⟨.commit ⟨none, false, e.2⟩, 0, 0⟩)
  nextEtag := 0
  clock := 0

theorem Store.fresh_get {logs : List (Table × List Action)} {k : Key} {o : Object}
    (h : (Store.fresh logs).get k = some o) :
    ∃ p as, k = .version p 0 ∧ o = ⟨.commit ⟨none, false, as⟩, 0, 0⟩ := by
  unfold Store.get at h
  obtain ⟨x, hx, rfl⟩ : ∃ x, (Store.fresh logs).journal.lookup k = some x ∧ x = some o := by
    cases hl : (Store.fresh logs).journal.lookup k with
    | none => simp [hl] at h
    | some x => exact ⟨x, rfl, by simpa [hl] using h⟩
  obtain ⟨e, -, he⟩ := List.mem_map.mp (AssocList.mem_of_lookup hx)
  obtain ⟨h₁, h₂⟩ := Prod.mk.inj he
  exact ⟨e.1, e.2, h₁.symm, (Option.some.inj h₂).symm⟩

theorem Store.fresh_wf (logs : List (Table × List Action)) : (Store.fresh logs).WF where
  etag h := by
    obtain ⟨p, as, -, rfl⟩ := fresh_get h
    exact Nat.le_refl _
  kind h := by
    obtain ⟨p, as, -, rfl⟩ := fresh_get h
    exact .inr ⟨_, rfl⟩
  dense h := by
    obtain ⟨o, ho⟩ := Option.isSome_iff_exists.mp h
    obtain ⟨p, as, hk, -⟩ := fresh_get ho
    cases hk
  global h := by
    obtain ⟨p, as, hk, -⟩ := fresh_get h
    cases hk

theorem Store.fresh_unused (logs : List (Table × List Action)) (i : TxnId) :
    (Store.fresh logs).Unused i := by
  rintro p v as - ⟨o, c, ho, hc, hid, -⟩
  obtain ⟨p, as, -, rfl⟩ := fresh_get ho
  cases hc
  cases hid

/-! ## Schedules -/

/-- Client `i` takes `n` steps, answered without faults. -/
def steps (i : TxnId) (n : ℕ) : List (TxnId × Choice) := List.replicate n (i, {})

/-- The user of client `i` asks for these operations. -/
def asks (i : TxnId) (ops : List Op) : List (TxnId × Choice) := ops.map fun op ↦ (i, { op := op })

/-- The world after a schedule. -/
def System.after (faults : Bool) (party : TxnId → Party) (s : Store) (es : List (TxnId × Choice)) :
    Option System :=
  (System.initial 20 party s).run (serve faults) (fun _ _ _ _ _ ↦ true) es

theorem System.after_reachable {faults : Bool} {party : TxnId → Party} {s : Store}
    {es : List (TxnId × Choice)} {w : System} (h : System.after faults party s es = some w) :
    Reachable (served faults) (System.initial 20 party s) w :=
  World.run_sound h

/-- A run whose steps all meet a condition. -/
def System.runMeeting (faults : Bool)
    (cond : TxnId → Txn → (k : Call) → Store → Response k → Store → Bool) :
    System → List (TxnId × Choice) → Option System
  | w, [] => some w
  | w, e :: es =>
    match w.client e.1 with
    | .call t k f =>
      match serve faults e.1 e.2 k w.shared with
      | some (r, s') =>
        if cond e.1 t k w.shared r s' then
          System.runMeeting faults cond ⟨s', Function.update w.client e.1 (f r)⟩ es
        else none
      | none => none
    | _ => none

theorem System.runMeeting_reachable {faults : Bool}
    {cond : TxnId → Txn → (k : Call) → Store → Response k → Store → Bool}
    (cond' : TxnId → Txn → (k : Call) → Store → Response k → Store → Prop)
    (hcond : ∀ i t k s r s', cond i t k s r s' = true → cond' i t k s r s')
    {w w' : System} {es : List (TxnId × Choice)}
    (h : System.runMeeting faults cond w es = some w') :
    Reachable (Meeting (served faults) cond') w w' := by
  induction es generalizing w with
  | nil =>
    obtain rfl : w = w' := Option.some.inj h
    exact .refl
  | cons e es ih =>
    unfold System.runMeeting at h
    split at h
    · next t k f hi =>
      split at h
      · next r s' hr =>
        split at h
        · next hc => exact .head (.call e.1 hi ⟨⟨⟨e.2, hr⟩, rfl⟩, hcond _ _ _ _ _ _ hc⟩) (ih h)
        · cases h
      · cases h
    · cases h

/-- How client `i` ended, with the state of its manager. -/
def System.outcome (w : System) (i : TxnId) : Option Result :=
  match w.client i with
  | .ret r => some r
  | _ => none

/-- Whether client `i` is at a call that satisfies `P`. -/
def System.calling (w : System) (i : TxnId) (P : Txn → Call → Bool) : Bool :=
  match w.client i with
  | .call t k _ => P t k
  | _ => false

theorem System.calling_iff {w : System} {i : TxnId} {P : Txn → Call → Bool} :
    w.calling i P = true ↔ ∃ t k f, w.client i = .call t k f ∧ P t k = true := by
  cases h : w.client i <;> simp [System.calling, h]

/-- Whether client `i` waits for its user, with a manager that satisfies `P`. -/
def System.prompted (w : System) (i : TxnId) (P : Txn → Bool) : Bool :=
  match w.client i with
  | .call t .nextOp _ => P t
  | _ => false

theorem System.prompted_iff {w : System} {i : TxnId} {P : Txn → Bool} :
    w.prompted i P = true ↔ ∃ t f, w.client i = .call t .nextOp f ∧ P t = true := by
  cases h : w.client i with
  | call t k f => cases k <;> simp [System.prompted, h]
  | ret a => simp [System.prompted, h]
  | stop => simp [System.prompted, h]

/-- A protocol over the answers of the object store. -/
theorem Loose.ofServed {sem : Semantics TxnId Txn Response Store}
    {P : Protocol TxnId Txn Response Store}
    (hs : ∀ {i m c s r s'}, sem i m c s r s' → ∃ d, answer d c (s.wait d.delay) = (r, s'))
    (hwf : ∀ {s}, P.inv s → s.WF) (hf : ∀ {i m c s r s'}, P.guar i m c s r s' → Fenced i s s')
    (hq : ∀ {i m c s r s'}, P.inv s → sem i m c s r s' → s'.WF → Fenced i s s' → Quiet s s' →
      (c.isCommit = true → s'.journal = s.journal) → P.inv s' ∧ P.guar i m c s r s') :
    Loose sem P where
  served := hs
  wf := hwf
  fenced := hf
  quiet h₁ h₂ h₃ h₄ h₅ _ h₆ _ := hq h₁ h₂ h₃ h₄ h₅ h₆
  steady h₁ h₂ h₃ h₄ h₅ h₆ _ := hq h₁ h₂ h₃ h₄ h₅ h₆
  prompting i _ _ s _ ms hi hsem _ := hq hi hsem ((hwf hi).wait ms) (Fenced.refl_wait i s ms)
    ⟨fun h ↦ .inl h⟩ nofun

/-- The runs from a state of a safe system are fenced. -/
theorem Disciplined.later {sem : Semantics TxnId Txn Response Store}
    {P : Protocol TxnId Txn Response Store} {Q : TxnId → Result → Store → Prop} {w w' : System}
    (D : Disciplined sem P) (h : Safe sem P Q w) (hr : Reachable sem w w') :
    Later w.shared w'.shared := by
  have hrestrict := h.restrict hr
  clear hr
  induction hrestrict with
  | refl => exact .refl
  | tail _ hs ih =>
    obtain ⟨i, -, hg⟩ := hs
    exact ih.trans (.single (D.fenced hg.2.2.2))

theorem Fenced.of_wait {i : TxnId} {s s' : Store} {ms : ℕ} (h : Fenced i (s.wait ms) s') :
    Fenced i s s' :=
  ⟨h.journal, h.etag, h.version⟩

end LakeVilla

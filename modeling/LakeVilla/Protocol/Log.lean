import Mathlib.Data.Nat.Basic
import Mathlib.Data.Nat.Init
import LakeVilla.Transaction.System

/-!
# The logs of the tables

What every client sees of a table is its log: the actions of the versions that hold a commit. This
file says which changes of the log a client makes (`Moves`, `Fenced`), and what follows for runs of
many such changes (`Later`): a version that holds a commit keeps its actions, and a version that
exists stays.
-/

namespace LakeVilla

open Relation

namespace Store

/-- The actions of a version that holds a commit. -/
def log (s : Store) (p : Table) (v : ℕ) : Option (List Action) :=
  match s.get (.version p v) with
  | some ⟨.commit c, _, _⟩ => some c.actions
  | _ => none

/-- The version exists, as a marker or as a commit. -/
def Exists (s : Store) (p : Table) (v : ℕ) : Prop := (s.get (.version p v)).isSome

/-- What the clients keep true of the store. -/
structure WF (s : Store) : Prop where
  etag : ∀ {k o}, s.get k = some o → o.etag ≤ s.nextEtag
  kind : ∀ {p v o}, s.get (.version p v) = some o →
    (∃ j d, o.content = .marker j d) ∨ ∃ c, o.content = .commit c
  /-- a log has no gaps -/
  dense : ∀ {p v}, s.Exists p (v + 1) → s.Exists p v
  /-- the global log names existing versions only -/
  global : ∀ {o lines}, s.get .globalLog = some o → o.content = .globalLog lines →
    ∀ e ∈ lines, s.Exists e.1 e.2

theorem WF.below {s : Store} (h : s.WF) {p : Table} {u v : ℕ} (huv : u ≤ v)
    (hv : s.Exists p v) : s.Exists p u := by
  induction v, huv using Nat.le_induction with
  | base => exact hv
  | succ v _ ih => exact ih (h.dense hv)

theorem log_eq_some {s : Store} {p : Table} {v : ℕ} {as : List Action} :
    s.log p v = some as ↔
      ∃ o c, s.get (.version p v) = some o ∧ o.content = .commit c ∧ c.actions = as := by
  unfold log
  constructor
  · intro h
    split at h
    · next c e m ho => exact ⟨_, c, ho, rfl, Option.some.inj h⟩
    · cases h
  · rintro ⟨⟨content, e, m⟩, c, ho, rfl, rfl⟩
    rw [ho]

theorem log_of_get {s : Store} {p : Table} {v : ℕ} {o : Object} {c : Commit}
    (h : s.get (.version p v) = some o) (hc : o.content = .commit c) :
    s.log p v = some c.actions :=
  log_eq_some.mpr ⟨o, c, h, hc, rfl⟩

theorem exists_of_log {s : Store} {p : Table} {v : ℕ} {as : List Action}
    (h : s.log p v = some as) : s.Exists p v := by
  obtain ⟨o, c, ho, -, -⟩ := log_eq_some.mp h
  simp [Exists, ho]

theorem WF.wait {s : Store} (h : s.WF) (ms : ℕ) : (s.wait ms).WF :=
  ⟨h.etag, h.kind, h.dense, h.global⟩

end Store

namespace Store

/-- Version `v` holds a commit of client `i` with the actions `as`. -/
def Holds (s : Store) (i : TxnId) (p : Table) (v : ℕ) (as : List Action) : Prop :=
  ∃ o c, s.get (.version p v) = some o ∧ o.content = .commit c ∧ c.txnId = some i ∧ c.actions = as

theorem Holds.log {s : Store} {i : TxnId} {p : Table} {v : ℕ} {as : List Action}
    (h : s.Holds i p v as) : s.log p v = some as :=
  have ⟨_, _, ho, hc, _, ha⟩ := h
  log_eq_some.mpr ⟨_, _, ho, hc, ha⟩

end Store

/-! ## Changes of one version -/

/-- A commit that names client `i` as its author, or no LakeVilla transaction at all. -/
def Signed (i : TxnId) (c : Commit) : Prop := c.txnId = some i ∨ c.txnId = none

/-- The changes that client `i` makes to the object of a version. -/
inductive Moves (i : TxnId) : Option Content → Content → Prop
  /-- a version is reserved -/
  | reserve (d : Option ℤ) : Moves i none (.marker i d)
  /-- a version is claimed by a client without markers -/
  | claim (c : Commit) (h : Signed i c) : Moves i none (.commit c)
  /-- the holder of a marker replaces it by its commit -/
  | commit (d : Option ℤ) (c : Commit) (h : Signed i c) : Moves i (some (.marker i d)) (.commit c)
  /-- a marker is released or taken over -/
  | release (j : TxnId) (d : Option ℤ) (c : Commit) (h : c.actions = []) :
    Moves i (some (.marker j d)) (.commit c)
  /-- a commit without actions is written over another one -/
  | rewrite (c c' : Commit) (h : c.actions = []) (h' : c'.actions = []) :
    Moves i (some (.commit c)) (.commit c')

/-- A step of client `i`: versions change as `Moves` says, and get new ETags. -/
structure Fenced (i : TxnId) (s s' : Store) : Prop where
  journal : s.journal <:+ s'.journal
  etag : s.nextEtag ≤ s'.nextEtag
  version : ∀ p v, s'.get (.version p v) = s.get (.version p v) ∨
    ∃ o', s'.get (.version p v) = some o' ∧ s.nextEtag < o'.etag ∧
      Moves i ((s.get (.version p v)).map (·.content)) o'.content

/-- A step that adds no actions to a log. -/
structure Quiet (s s' : Store) : Prop where
  log : ∀ {p v as}, s'.log p v = some as → s.log p v = some as ∨ as = []

/-- A step that leaves the global log and its lock alone. -/
structure Apart (s s' : Store) : Prop where
  globalLog : s'.get .globalLog = s.get .globalLog
  globalTmpLog : s'.get .globalTmpLog = s.get .globalTmpLog

namespace Fenced

variable {i : TxnId} {s s' : Store}

theorem refl (i : TxnId) (s : Store) : Fenced i s s :=
  ⟨List.suffix_rfl, le_rfl, fun _ _ ↦ .inl rfl⟩

theorem refl_wait (i : TxnId) (s : Store) (ms : ℕ) : Fenced i s (s.wait ms) :=
  ⟨List.suffix_rfl, le_rfl, fun _ _ ↦ .inl rfl⟩

theorem exists_mono (h : Fenced i s s') {p : Table} {v : ℕ} (hv : s.Exists p v) :
    s'.Exists p v := by
  rcases h.version p v with hg | ⟨o', ho', -, -⟩
  · rwa [Store.Exists, hg]
  · simp [Store.Exists, ho']

theorem log_mono (h : Fenced i s s') {p : Table} {v : ℕ} {as : List Action}
    (hv : s.log p v = some as) : s'.log p v = some as := by
  obtain ⟨o, c, ho, hc, rfl⟩ := Store.log_eq_some.mp hv
  rcases h.version p v with hg | ⟨o', ho', -, hm⟩
  · exact Store.log_of_get (hg.trans ho) hc
  · rw [ho, Option.map_some, hc] at hm
    generalize hc' : o'.content = content at hm
    cases hm with
    | rewrite _ c' h₁ h₂ =>
      rw [h₁, ← h₂]
      exact Store.log_of_get ho' hc'

/-- An object with an old ETag is the old object. -/
theorem get_of_etag (h : Fenced i s s') {p : Table} {v : ℕ} {o : Object}
    (ho : s'.get (.version p v) = some o) (he : o.etag ≤ s.nextEtag) :
    s.get (.version p v) = some o := by
  rcases h.version p v with hg | ⟨o', ho', hlt, -⟩
  · rw [← hg, ho]
  · rw [ho] at ho'
    obtain rfl := Option.some.inj ho'
    exact absurd he (Nat.not_le.mpr hlt)

/-- A running marker is an old one, or it was placed on an absent version by the client it names. -/
theorem marker_back (h : Fenced i s s') {p : Table} {v : ℕ} {o : Object} {j : TxnId}
    {d : Option ℤ} (ho : s'.get (.version p v) = some o) (hc : o.content = .marker j d) :
    s.get (.version p v) = some o ∨ s.get (.version p v) = none ∧ j = i := by
  rcases h.version p v with hv | ⟨o', ho', -, hm⟩
  · exact .inl (hv ▸ ho)
  · obtain rfl := Option.some.inj (ho'.symm.trans ho)
    rw [hc] at hm
    generalize hg : (s.get (.version p v)).map (·.content) = before at hm
    cases hm
    exact .inr ⟨Option.map_eq_none_iff.mp hg, rfl⟩

/-- A marker of another client stays as it is or becomes a commit without actions. -/
theorem foreign_marker (h : Fenced i s s') {p : Table} {v : ℕ} {o : Object} {j : TxnId}
    {d : Option ℤ} (ho : s.get (.version p v) = some o) (hc : o.content = .marker j d)
    (hij : i ≠ j) : s'.get (.version p v) = some o ∨ s'.log p v = some [] := by
  rcases h.version p v with hg | ⟨o', ho', -, hm⟩
  · exact .inl (hg.trans ho)
  · rw [ho, Option.map_some, hc] at hm
    generalize hc' : o'.content = content at hm
    cases hm with
    | commit _ _ _ => exact absurd rfl hij
    | release _ _ c hc₀ =>
      right
      rw [Store.log_of_get ho' hc', hc₀]

/-- A commit with actions stays as it is. -/
theorem get_mono (h : Fenced i s s') {p : Table} {v : ℕ} {o : Object} {c : Commit}
    (ho : s.get (.version p v) = some o) (hc : o.content = .commit c) (ha : c.actions ≠ []) :
    s'.get (.version p v) = some o := by
  rcases h.version p v with hg | ⟨o', ho', -, hm⟩
  · exact hg.trans ho
  · rw [ho, Option.map_some, hc] at hm
    generalize o'.content = content at hm
    cases hm with
    | rewrite _ c' h₁ h₂ => exact absurd h₁ ha

/-- New commits of client `j` that have actions are written by client `j`. -/
theorem holds_back (h : Fenced i s s') {j : TxnId} {p : Table} {v : ℕ} {as : List Action}
    (ha : as ≠ []) (hv : s'.Holds j p v as) :
    s.Holds j p v as ∨ i = j ∧ s.log p v = none := by
  obtain ⟨o, c, ho, hc, hj, rfl⟩ := hv
  rcases h.version p v with hg | ⟨o', ho', -, hm⟩
  · exact .inl ⟨o, c, hg.symm.trans ho, hc, hj, rfl⟩
  · obtain rfl := Option.some.inj (ho'.symm.trans ho)
    rw [hc] at hm
    have hsigned : Signed i c → i = j := fun hs ↦ by
      rcases hs with hs | hs <;> rw [hj] at hs
      · exact (Option.some.inj hs).symm
      · cases hs
    generalize hold : (s.get (.version p v)).map (·.content) = old at hm
    cases hm with
    | claim _ hs =>
      refine .inr ⟨hsigned hs, ?_⟩
      rw [Option.map_eq_none_iff] at hold
      simp [Store.log, hold]
    | commit d _ hs =>
      obtain ⟨o₀, ho₀, hc₀⟩ := Option.map_eq_some_iff.mp hold
      refine .inr ⟨hsigned hs, ?_⟩
      obtain ⟨content, e, m⟩ := o₀
      simp only at hc₀
      simp [Store.log, ho₀, hc₀]
    | release _ _ _ h₀ => exact absurd h₀ ha
    | rewrite _ _ _ h₀ => exact absurd h₀ ha

end Fenced

theorem Quiet.refl (s : Store) : Quiet s s := ⟨.inl⟩

theorem Apart.refl (s : Store) : Apart s s := ⟨rfl, rfl⟩

/-! ## Single writes -/

/-- The contents that a quiet write gives to a version. -/
def Content.Plain (c : Content) : Prop :=
  (∃ j d, c = .marker j d) ∨ ∃ c', c = .commit c' ∧ c'.actions = []

section Put

variable {i : TxnId} {s : Store} {p : Table} {v : ℕ} {c : Content}

theorem Moves.kind {o : Option Content} (h : Moves i o c) :
    (∃ j d, c = .marker j d) ∨ ∃ c', c = .commit c' := by
  cases h with
  | reserve d => exact .inl ⟨i, d, rfl⟩
  | claim c' _ => exact .inr ⟨c', rfl⟩
  | commit _ c' _ => exact .inr ⟨c', rfl⟩
  | release _ _ c' _ => exact .inr ⟨c', rfl⟩
  | rewrite _ c' _ _ => exact .inr ⟨c', rfl⟩

theorem Fenced.put (hm : Moves i ((s.get (.version p v)).map (·.content)) c) :
    Fenced i s (s.put (.version p v) c) := by
  refine ⟨List.suffix_cons _ _, Nat.le_succ _, fun p' v' ↦ ?_⟩
  by_cases h : Key.version p' v' = .version p v
  · obtain ⟨rfl, rfl⟩ : p' = p ∧ v' = v := by simpa using h
    exact .inr ⟨_, Store.get_put_self .., Nat.lt_succ_self _, hm⟩
  · exact .inl (Store.get_put_of_ne _ _ h)

theorem Store.Exists.put {p' : Table} {v' : ℕ} (h : s.Exists p' v') (k : Key) :
    (s.put k c).Exists p' v' := by
  unfold Store.Exists at h ⊢
  rw [Store.get_put]
  split
  · rfl
  · exact h

theorem Store.exists_put_self : (s.put (.version p v) c).Exists p v := by
  simp [Store.Exists]

theorem Store.WF.put (hs : s.WF) (hm : Moves i ((s.get (.version p v)).map (·.content)) c)
    (hd : s.Exists p (v - 1)) : (s.put (.version p v) c).WF where
  etag {k o} h := by
    rw [Store.get_put] at h
    split at h
    · obtain rfl := Option.some.inj h
      exact le_rfl
    · exact le_trans (hs.etag h) (Nat.le_succ _)
  kind {p' v' o} h := by
    rw [Store.get_put] at h
    split at h
    · obtain rfl := Option.some.inj h
      exact hm.kind
    · exact hs.kind h
  dense {p' v'} h := by
    by_cases he : Key.version p' (v' + 1) = .version p v
    · obtain ⟨rfl, rfl⟩ : p' = p ∧ v' + 1 = v := by simpa using he
      exact Store.Exists.put hd _
    · rw [Store.Exists, Store.get_put_of_ne _ _ he] at h
      exact Store.Exists.put (hs.dense h) _
  global {o lines} h hl e he := by
    rw [Store.get_put_of_ne _ _ (by simp)] at h
    exact (hs.global h hl e he).put _

theorem Quiet.put (hc : c.Plain) : Quiet s (s.put (.version p v) c) where
  log {p' v' as} h := by
    obtain ⟨o, c', ho, hc', rfl⟩ := Store.log_eq_some.mp h
    by_cases he : Key.version p' v' = .version p v
    · rw [he, Store.get_put_self] at ho
      obtain rfl := Option.some.inj ho
      rcases hc with ⟨j, d, rfl⟩ | ⟨c'', rfl, h₀⟩
      · cases hc'
      · cases hc'
        exact .inr h₀
    · rw [Store.get_put_of_ne _ _ he] at ho
      exact .inl (Store.log_of_get ho hc')

theorem Apart.put : Apart s (s.put (.version p v) c) :=
  ⟨Store.get_put_of_ne _ _ (by simp), Store.get_put_of_ne _ _ (by simp)⟩

end Put

/-! ## Many changes -/

/-- Steps of any clients. -/
def Later : Store → Store → Prop := ReflTransGen fun s s' ↦ ∃ i, Fenced i s s'

/-- Steps of the other clients, and quiet steps of client `i`. -/
def QuietLater (i : TxnId) : Store → Store → Prop :=
  ReflTransGen fun s s' ↦ (∃ j, j ≠ i ∧ Fenced j s s') ∨ Fenced i s s' ∧ Quiet s s'

namespace Later

variable {s s' s'' : Store}

@[refl] theorem refl : Later s s := ReflTransGen.refl

theorem trans (h : Later s s') (h' : Later s' s'') : Later s s'' := ReflTransGen.trans h h'

theorem single {i : TxnId} (h : Fenced i s s') : Later s s' := ReflTransGen.single ⟨i, h⟩

theorem exists_mono (h : Later s s') {p : Table} {v : ℕ} (hv : s.Exists p v) :
    s'.Exists p v := by
  induction h with
  | refl => exact hv
  | tail _ hs ih =>
    obtain ⟨i, hs⟩ := hs
    exact hs.exists_mono ih

theorem log_mono (h : Later s s') {p : Table} {v : ℕ} {as : List Action}
    (hv : s.log p v = some as) : s'.log p v = some as := by
  induction h with
  | refl => exact hv
  | tail _ hs ih =>
    obtain ⟨i, hs⟩ := hs
    exact hs.log_mono ih

theorem etag (h : Later s s') : s.nextEtag ≤ s'.nextEtag := by
  induction h with
  | refl => exact le_rfl
  | tail _ hs ih =>
    obtain ⟨i, hs⟩ := hs
    exact le_trans ih hs.etag

theorem journal (h : Later s s') : s.journal <:+ s'.journal := by
  induction h with
  | refl => exact List.suffix_rfl
  | tail _ hs ih =>
    obtain ⟨i, hs⟩ := hs
    exact ih.trans hs.journal

/-- An object with an old ETag is the old object. -/
theorem get_of_etag (h : Later s s') {p : Table} {v : ℕ} {o : Object}
    (ho : s'.get (.version p v) = some o) (he : o.etag ≤ s.nextEtag) :
    s.get (.version p v) = some o := by
  induction h with
  | refl => exact ho
  | tail hr hs ih =>
    obtain ⟨i, hs⟩ := hs
    exact ih (hs.get_of_etag ho (le_trans he (etag hr)))

theorem get_mono (h : Later s s') {p : Table} {v : ℕ} {o : Object} {c : Commit}
    (ho : s.get (.version p v) = some o) (hc : o.content = .commit c) (ha : c.actions ≠ []) :
    s'.get (.version p v) = some o := by
  induction h with
  | refl => exact ho
  | tail _ hs ih =>
    obtain ⟨i, hs⟩ := hs
    exact hs.get_mono ih hc ha

theorem holds_mono (h : Later s s') {j : TxnId} {p : Table} {v : ℕ} {as : List Action}
    (ha : as ≠ []) (hv : s.Holds j p v as) : s'.Holds j p v as := by
  obtain ⟨o, c, ho, hc, hj, rfl⟩ := hv
  exact ⟨o, c, h.get_mono ho hc ha, hc, hj, rfl⟩

end Later

namespace QuietLater

variable {i : TxnId} {s s' s'' : Store}

@[refl] theorem refl : QuietLater i s s := ReflTransGen.refl

theorem trans (h : QuietLater i s s') (h' : QuietLater i s' s'') : QuietLater i s s'' :=
  ReflTransGen.trans h h'

theorem later (h : QuietLater i s s') : Later s s' := by
  refine ReflTransGen.mono (fun a b (hab : _ ∨ _) ↦ ?_) _ _ h
  rcases hab with ⟨j, -, hj⟩ | ⟨hi, -⟩
  · exact ⟨j, hj⟩
  · exact ⟨i, hi⟩

/-- Client `i` has not written actions. -/
theorem holds_back (h : QuietLater i s s') {p : Table} {v : ℕ} {as : List Action} (ha : as ≠ [])
    (hv : s'.Holds i p v as) : s.Holds i p v as := by
  induction h with
  | refl => exact hv
  | tail _ hs ih =>
    refine ih ?_
    rcases hs with ⟨j, hj, hf⟩ | ⟨hf, hq⟩
    · exact (hf.holds_back ha hv).resolve_right fun h ↦ hj h.1
    · refine (hf.holds_back ha hv).resolve_right fun h ↦ ?_
      rcases hq.log hv.log with hl | hl
      · rw [h.2] at hl
        cases hl
      · exact ha hl

end QuietLater

end LakeVilla

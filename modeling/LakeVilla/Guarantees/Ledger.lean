import LakeVilla.Guarantees.Service
import LakeVilla.Protocol.Entries

/-!
# The entries of the global log

As long as the lock is never broken (`unbroken`), the global log is changed by the owner of the lock
only. What an owner writes after a validation, or in a repair, raises entries of its own tables and
keeps all others.
-/

namespace LakeVilla

open Concurrency Relation

/-! ## Moves on the global log -/

/-- The client whose token is in the lock file. -/
def Store.lockOwner (s : Store) : Option TxnId :=
  match s.get .globalTmpLog with
  | some ⟨.lock token, _, _⟩ => some token.transactionId
  | _ => none

/-- The lock file holds a token of client `i`. -/
abbrev Owned (i : TxnId) (s : Store) : Prop := s.lockOwner = some i

/-- The entries of the transaction's tables may be raised, all others stay. -/
def Advances (t : Txn) (s s' : Store) : Prop :=
  Raises (t.tables.map (·.basePath)) s.entry s'.entry

/-- What client `i` does to the global log and its lock file. -/
inductive GlobalMove (i : TxnId) (t : Txn) (s s' : Store) : Prop
  | keep (h : Apart s s')
  | lock (hn : s.get .globalTmpLog = none) (ho : Owned i s')
    (hl : s'.get .globalLog = s.get .globalLog)
  | unlock (hn : s.get .globalTmpLog = none ∨ Owned i s) (hl : s'.get .globalLog = s.get .globalLog)
  | log (ho : Owned i s) (ht : s'.get .globalTmpLog = s.get .globalTmpLog) (ha : Advances t s s')

/-- The lock is never broken: a deletion of the lock file hits no lock file of another client. -/
abbrev unbroken : Semantics TxnId Txn Response Store :=
  Meeting (served false) fun i _ k s _ _ ↦
    k = .deleteFile .globalTmpLog → s.get .globalTmpLog = none ∨ Owned i s

/-- The global log is changed by the owner of the lock, and no entry is lost. -/
def ledger : Protocol TxnId Txn Response Store where
  inv s := s.WF ∧ (s.globalLines.map (·.1)).Nodup
  guar i t _ s _ s' := Fenced i s s' ∧ GlobalMove i t s s'

/-- Client `i` owns the lock, and the global log is `g`. -/
def Held (i : TxnId) (g : Option Object) (s : Store) : Prop := Owned i s ∧ s.get .globalLog = g

section Moves

variable {i j : TxnId} {t : Txn} {s s' : Store} {g : Option Object}

theorem Owned.congr (h : Owned i s) (hg : s'.get .globalTmpLog = s.get .globalTmpLog) :
    Owned i s' := by
  rwa [Owned, Store.lockOwner, hg]

theorem Owned.present (h : Owned i s) : s.get .globalTmpLog ≠ none := by
  intro hn
  rw [Owned, Store.lockOwner, hn] at h
  cases h

/-- Only one client owns the lock. -/
theorem Owned.unique (h : Owned i s) (h' : Owned j s) : i = j := Option.some.inj (h.symm.trans h')

theorem Held.apart (h : Held i g s) (ha : Apart s s') : Held i g s' :=
  ⟨h.1.congr ha.globalTmpLog, ha.globalLog.trans h.2⟩

/-- What the other clients do does not touch the log of an owner. -/
theorem GlobalMove.held (h : GlobalMove j t s s') (hj : j ≠ i) (hs : Held i g s) : Held i g s' := by
  cases h with
  | keep ha => exact hs.apart ha
  | lock hn _ _ => exact absurd hn hs.1.present
  | unlock hn _ =>
    rcases hn with hn | ho
    · exact absurd hn hs.1.present
    · exact absurd (ho.unique hs.1) hj
  | log ho _ _ => exact absurd (ho.unique hs.1) hj

theorem GlobalMove.advances (h : GlobalMove i t s s') : Advances t s s' := by
  have hkeep : s'.get .globalLog = s.get .globalLog → Advances t s s' := fun hl ↦ by
    rw [Advances, Store.entry_congr hl]
    exact .refl _ _
  cases h with
  | keep ha => exact hkeep ha.globalLog
  | lock _ _ hl => exact hkeep hl
  | unlock _ hl => exact hkeep hl
  | log _ _ ha => exact ha

/-- The entries are at least the given ones. -/
def Reached (lines : List (Table × ℕ)) (s : Store) : Prop :=
  ∀ p v, lines.lookup p = some v → ∃ v', s.entry p = some v' ∧ v ≤ v'

theorem Reached.advances {lines : List (Table × ℕ)} (h : Reached lines s) (ha : Advances t s s') :
    Reached lines s' := by
  intro p v hv
  obtain ⟨v₁, h₁, hle₁⟩ := h p v hv
  obtain ⟨v₂, h₂, hle₂⟩ := ha.mono p v₁ h₁
  exact ⟨v₂, h₂, hle₁.trans hle₂⟩

end Moves

section Ledger

variable {i : TxnId} {c : Config} {t : Txn} {s s' : Store} {g : Option Object}

theorem Held.rely (h : Held i g s) (hr : ledger.rely unbroken i s s') : Held i g s' := by
  induction hr with
  | refl => exact h
  | tail _ hstep ih =>
    obtain ⟨j, hj, m, k, r, -, -, -, -, hm⟩ := hstep
    exact hm.held hj ih

theorem Reached.rely {lines : List (Table × ℕ)} (h : Reached lines s)
    (hr : ledger.rely unbroken i s s') : Reached lines s' := by
  induction hr with
  | refl => exact h
  | tail _ hstep ih =>
    obtain ⟨j, hj, m, k, r, -, -, -, -, hm⟩ := hstep
    exact ih.advances hm.advances

/-! ## The lock -/

/-- Client `i` owns the lock, and the global log has the given lines. -/
def Lines (i : TxnId) (lines : List (Table × ℕ)) (s : Store) : Prop :=
  Owned i s ∧ s.globalLines = lines

theorem Held.lines (h : Held i g s) : Lines i (g.elim [] Object.globalLines) s :=
  ⟨h.1, by rw [Store.globalLines, h.2]⟩

/-- The entries of the tables that the transaction wrote. -/
def Recorded (c : Config) (t : Txn) (s : Store) : Prop :=
  c.levels.l2 = true → c.storageRetries ≠ 0 → Reached (VersionMaps.ofTables t.tables).write s

/-- The configuration of a client. -/
def Party.cfg : Party → Config
  | .lakeVilla c _ => c
  | .foreign _ => { levels := {} }

end Ledger

section Runs

variable {fuel : ℕ} {party : TxnId → Party} {s : Store} {w w' : System}

end Runs

end LakeVilla

import LakeVilla.Concurrency.RelyGuarantee
import LakeVilla.Protocol.Log

/-!
# Rules for the calls of a transaction

The code of a transaction is verified against any protocol whose steps are fenced and which allows
every quiet step (`Disciplined`). This file has one rule for each kind of call, in the form in which
they are used: what has to be proved is that the rest of the code is right for every answer.
-/

namespace LakeVilla

open Concurrency Relation

/-- The call writes a version as a commit of a transaction. -/
def Call.isCommit : Call → Bool
  | .writeIfMatch _ (.commit c) _ => c.txnId.isSome
  | .writeAtomic _ (.commit _) => true
  | _ => false

/-- The call was answered with success. -/
def Call.succeeded : (c : Call) → Response c → Bool
  | .writeIfMatch _ _ _, r => r = .ok
  | .writeAtomic _ _, r => r.1 = .ok
  | _, _ => false

/-- The answers come from the object store; the protocol's steps are fenced, and it allows every
quiet step that leaves the global log alone, unless a commit is written or the user is asked. -/
structure Disciplined (sem : Semantics TxnId Txn Response Store)
    (P : Protocol TxnId Txn Response Store) : Prop where
  served : ∀ {i m c s r s'}, sem i m c s r s' → ∃ d, answer d c (s.wait d.delay) = (r, s')
  wf : ∀ {s}, P.inv s → s.WF
  fenced : ∀ {i m c s r s'}, P.guar i m c s r s' → Fenced i s s'
  quiet : ∀ {i m c s r s'}, P.inv s → sem i m c s r s' → s'.WF → Fenced i s s' → Quiet s s' →
    Apart s s' → (c.isCommit = true → s'.journal = s.journal) → c ≠ .nextOp →
    P.inv s' ∧ P.guar i m c s r s'

/-- The protocol allows client `i` to ask for the next operation where `K` holds. -/
def Prompting (sem : Semantics TxnId Txn Response Store) (P : Protocol TxnId Txn Response Store)
    (i : TxnId) (K : Txn → Store → Prop) : Prop :=
  ∀ t s r ms, P.inv s → sem i t .nextOp s r (s.wait ms) → K t s →
    P.inv (s.wait ms) ∧ P.guar i t .nextOp s r (s.wait ms)

/-- The answer `r` to the call `c` was given in store `s`, which the call did not change. -/
def Asked (sem : Semantics TxnId Txn Response Store) (i : TxnId) (m : Txn) (c : Call) (s : Store)
    (r : Response c) : Prop :=
  ∃ s₀ d, sem i m c s₀ r s ∧ s = s₀.wait d.delay ∧ (answer d c s).1 = r

/-- The call `c` was answered with `r` and led from store `s` to `s'`. -/
def Acted (sem : Semantics TxnId Txn Response Store) (i : TxnId) (m : Txn) (c : Call) (s : Store)
    (r : Response c) (s' : Store) : Prop :=
  s.WF ∧ ∃ s₀ d, sem i m c s₀ r s' ∧ s = s₀.wait d.delay ∧ answer d c s = (r, s')

namespace Disciplined

variable {sem : Semantics TxnId Txn Response Store} {P : Protocol TxnId Txn Response Store}
variable {i : TxnId} {t : Txn} {s s' : Store}

theorem rely (D : Disciplined sem P) (h : P.rely sem i s s') : QuietLater i s s' := by
  refine ReflTransGen.mono (fun a b hab ↦ ?_) _ _ h
  obtain ⟨j, hj, m, c, r, -, -, -, hg⟩ := hab
  exact .inl ⟨j, hj, D.fenced hg⟩

theorem quiet_wait (D : Disciplined sem P) {c : Call} {r : Response c} {ms : ℕ} (hi : P.inv s)
    (hs : sem i t c s r (s.wait ms)) (hn : c ≠ .nextOp := by rintro ⟨⟩) :
    P.inv (s.wait ms) ∧ P.guar i t c s r (s.wait ms) :=
  D.quiet hi hs ((D.wf hi).wait ms) (Fenced.refl_wait i s ms) ⟨fun h ↦ .inl h⟩ ⟨rfl, rfl⟩
    (fun _ ↦ rfl) hn

theorem quietLater_wait (i : TxnId) (s : Store) (ms : ℕ) : QuietLater i s (s.wait ms) :=
  .single (.inr ⟨Fenced.refl_wait i s ms, ⟨fun h ↦ .inl h⟩⟩)

/-- A call that changes nothing. -/
theorem ask (D : Disciplined sem P) {c : Call} (hc : ∀ d s, (answer d c s).2 = s)
    {Q : Response c → Txn → Store → Prop}
    (h : ∀ r s₁ s₂, QuietLater i s s₁ → P.inv s₁ → Asked sem i t c s₁ r → QuietLater i s₁ s₂ →
      P.inv s₂ → Q r t s₂) (hn : c ≠ .nextOp := by rintro ⟨⟩) :
    Client.wp sem P i (Tx.call c) t Q s := by
  refine Client.wp_perform fun s₁ h₁ hi₁ r s₂ hs ↦ ?_
  obtain ⟨d, hd⟩ := D.served hs
  obtain rfl : s₂ = s₁.wait d.delay := by rw [← hc d (s₁.wait d.delay), hd]
  obtain ⟨hi₂, hg⟩ := D.quiet_wait hi₁ hs hn
  refine ⟨hi₂, hg, fun s₃ h₃ hi₃ ↦ h r (s₁.wait d.delay) s₃ ?_ hi₂ ?_ (D.rely h₃) hi₃⟩
  · exact (D.rely h₁).trans (quietLater_wait i s₁ d.delay)
  · exact ⟨s₁, d, hs, rfl, by rw [hd]⟩

/-- The user is asked for the next operation. -/
theorem prompt (D : Disciplined sem P) {K : Txn → Store → Prop} (hP : Prompting sem P i K)
    (hK : ∀ s₁, QuietLater i s s₁ → K t s₁) {Q : Op → Txn → Store → Prop}
    (h : ∀ op s₁, QuietLater i s s₁ → P.inv s₁ → Q op t s₁) :
    Client.wp sem P i Tx.nextOp t Q s := by
  refine Client.wp_perform fun s₁ h₁ hi₁ r s₂ hs ↦ ?_
  obtain ⟨d, hd⟩ := D.served hs
  obtain ⟨-, rfl⟩ := Prod.mk.inj hd
  obtain ⟨hi₂, hg⟩ := hP t s₁ r d.delay hi₁ hs (hK s₁ (D.rely h₁))
  exact ⟨hi₂, hg, fun s₃ h₃ hi₃ ↦ h r s₃
    ((D.rely h₁).trans ((quietLater_wait i s₁ d.delay).trans (D.rely h₃))) hi₃⟩

/-- A call that makes a quiet change. -/
theorem act (D : Disciplined sem P) {c : Call} {Q : Response c → Txn → Store → Prop}
    (hk : c.isCommit = false)
    (hc : ∀ d r s₁ s₂, QuietLater i s s₁ → s₁.WF → answer d c s₁ = (r, s₂) →
      s₂.WF ∧ Fenced i s₁ s₂ ∧ Quiet s₁ s₂ ∧ Apart s₁ s₂)
    (h : ∀ r s₁ s₂ s₃, QuietLater i s s₁ → Acted sem i t c s₁ r s₂ → QuietLater i s₁ s₂ →
      P.inv s₂ → QuietLater i s₂ s₃ → P.inv s₃ → Q r t s₃) (hn : c ≠ .nextOp := by rintro ⟨⟩) :
    Client.wp sem P i (Tx.call c) t Q s := by
  refine Client.wp_perform fun s₁ h₁ hi₁ r s₂ hs ↦ ?_
  obtain ⟨d, hd⟩ := D.served hs
  have h₁' : QuietLater i s (s₁.wait d.delay) :=
    (D.rely h₁).trans (quietLater_wait i s₁ d.delay)
  obtain ⟨hwf, hf, hq, ha⟩ := hc d r (s₁.wait d.delay) s₂ h₁' ((D.wf hi₁).wait _) hd
  obtain ⟨hi₂, hg⟩ := D.quiet hi₁ hs hwf ⟨hf.journal, hf.etag, hf.version⟩ ⟨hq.log⟩
    ⟨ha.globalLog, ha.globalTmpLog⟩ (by simp [hk]) hn
  exact ⟨hi₂, hg, fun s₃ h₃ hi₃ ↦ h r _ s₂ s₃ h₁'
    ⟨(D.wf hi₁).wait _, s₁, d, hs, rfl, hd⟩
    (.single (.inr ⟨hf, hq⟩)) hi₂ (D.rely h₃) hi₃⟩

end Disciplined

/-! ## What the answers say -/

namespace Asked

variable {sem : Semantics TxnId Txn Response Store} {i : TxnId} {m : Txn} {s : Store}

theorem check {k : Key} (h : Asked sem i m (.check k) s true) : (s.get k).isSome := by
  obtain ⟨s₀, d, -, -, h⟩ := h
  simp only [answer, Fault.ask] at h
  split at h
  · exact h
  · cases h
  · cases h

theorem read {k : Key} {o : Object} (h : Asked sem i m (.read k) s (some o)) :
    s.get k = some o := by
  obtain ⟨s₀, d, -, -, h⟩ := h
  simp only [answer, Fault.ask] at h
  split at h
  · exact h
  · cases h
  · cases h

theorem listObjects {p : Table} {vs : List ℕ} (h : Asked sem i m (.listObjects p) s (some vs)) :
    vs = s.versions p := by
  obtain ⟨s₀, d, -, -, h⟩ := h
  simp only [answer, Fault.ask] at h
  split at h
  · exact (Option.some.inj h).symm
  · cases h
  · cases h

theorem schedule {n r : ℕ} (h : Asked sem i m (.schedule n) s r) (hn : n ≠ 0) : r < n := by
  obtain ⟨s₀, d, -, -, rfl⟩ := h
  exact Nat.mod_lt _ (Nat.pos_of_ne_zero hn)

end Asked

/-- The requests of the client that only read are answered correctly. -/
structure Truthful (sem : Semantics TxnId Txn Response Store) (i : TxnId) : Prop where
  check : ∀ {m k s r s'}, sem i m (.check k) s r s' → r = (s'.get k).isSome
  read : ∀ {m k s r s'}, sem i m (.read k) s r s' → r = s'.get k
  listObjects : ∀ {m p s r s'}, sem i m (.listObjects p) s r s' → r = some (s'.versions p)

end LakeVilla

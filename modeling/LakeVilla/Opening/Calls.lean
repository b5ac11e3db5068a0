import LakeVilla.Concurrency.Solo
import LakeVilla.Guarantees.Service
import LakeVilla.Opening.Markers

/-!
# The calls of a transaction that runs alone

The store answers without faults, and only the transaction's own calls change it. So a read gives
what the last write left, an absent version can be claimed, and a marker can be given up.
-/

namespace LakeVilla.Opening

open Concurrency

variable {i : TxnId} {D : Prop} {t : Txn} {s : Store} {k : Key} {c : Content}

theorem answered {call : Call} {r : Response call} {s' : Store}
    (h : served false i t call s r s') :
    ∃ d : Choice, d.fault = .none ∧ answer d call (s.wait d.delay) = (r, s') := by
  obtain ⟨d, hf, hd⟩ := served_iff.mp h
  exact ⟨d, by simpa using hf, hd⟩

theorem put_get (s : Store) (k : Key) (c : Content) :
    (s.put k c).get = Function.update s.get k (some ⟨c, s.nextEtag + 1, s.clock⟩) := by
  funext k'
  rw [Store.get_put, Function.update_apply]

section Calls

theorem check {Q : Bool → Txn → Store → Prop}
    (h : ∀ s', s'.get = s.get → Q (s.get k).isSome t s') :
    Client.solo (served false) i D (Tx.check k) t Q s := by
  refine Client.solo_perform fun r s' hs ↦ ?_
  obtain ⟨d, hf, hd⟩ := answered hs
  rw [answer, hf] at hd
  obtain ⟨rfl, rfl⟩ := Prod.mk.inj hd
  exact h _ rfl

theorem read {Q : Option Object → Txn → Store → Prop}
    (h : ∀ s', s'.get = s.get → Q (s.get k) t s') :
    Client.solo (served false) i D (Tx.read k) t Q s := by
  refine Client.solo_perform fun r s' hs ↦ ?_
  obtain ⟨d, hf, hd⟩ := answered hs
  rw [answer, hf] at hd
  obtain ⟨rfl, rfl⟩ := Prod.mk.inj hd
  exact h _ rfl

theorem listObjects {p : Table} {Q : Option (List ℕ) → Txn → Store → Prop}
    (h : ∀ s', s'.get = s.get → Q (some (s.versions p)) t s') :
    Client.solo (served false) i D (Tx.listObjects p) t Q s := by
  refine Client.solo_perform fun r s' hs ↦ ?_
  obtain ⟨d, hf, hd⟩ := answered hs
  rw [answer, hf] at hd
  obtain ⟨rfl, rfl⟩ := Prod.mk.inj hd
  exact h _ rfl

theorem storeTime {Q : StoreTime → Txn → Store → Prop}
    (h : ∀ now s', s'.get = s.get → Q now t s') :
    Client.solo (served false) i D Tx.storeTime t Q s := by
  refine Client.solo_perform fun r s' hs ↦ ?_
  obtain ⟨d, -, hd⟩ := answered hs
  obtain ⟨rfl, rfl⟩ := Prod.mk.inj hd
  exact h _ _ rfl

theorem schedule {n : ℕ} {Q : ℕ → Txn → Store → Prop}
    (h : ∀ j s', (0 < n → j < n) → s'.get = s.get → Q j t s') :
    Client.solo (served false) i D (Tx.schedule n) t Q s := by
  refine Client.solo_perform fun r s' hs ↦ ?_
  obtain ⟨d, -, hd⟩ := answered hs
  obtain ⟨rfl, rfl⟩ := Prod.mk.inj hd
  exact h _ _ (Nat.mod_lt d.pick) rfl

theorem write {Q : Bool → Txn → Store → Prop}
    (h : ∀ s' o, o.content = c → s'.get = Function.update s.get k (some o) → Q true t s') :
    Client.solo (served false) i D (Tx.write k c) t Q s := by
  refine Client.solo_perform fun r s' hs ↦ ?_
  obtain ⟨d, hf, hd⟩ := answered hs
  rw [answer, hf] at hd
  obtain ⟨rfl, rfl⟩ := Prod.mk.inj hd
  exact h _ _ rfl (put_get _ k c)

/-- An absent object can be claimed. -/
theorem writeAtomic (hk : s.get k = none) {Q : WriteStatus × ETag → Txn → Store → Prop}
    (h : ∀ s' o, o.content = c → s'.get = Function.update s.get k (some o) →
      Q (.ok, o.etag) t s') :
    Client.solo (served false) i D (Tx.writeAtomic k c) t Q s := by
  refine Client.solo_perform fun r s' hs ↦ ?_
  obtain ⟨d, hf, hd⟩ := answered hs
  rw [answer, hf, Store.get_wait, hk] at hd
  obtain ⟨rfl, rfl⟩ := Prod.mk.inj hd
  exact h _ ⟨c, (s.wait d.delay).nextEtag + 1, (s.wait d.delay).clock⟩ rfl (put_get _ k c)

/-- An object that nobody else has changed can be replaced. -/
theorem writeIfMatch {o : Object} (hk : s.get k = some o) {Q : WriteStatus → Txn → Store → Prop}
    (h : ∀ s' o', o'.content = c → s'.get = Function.update s.get k (some o') → Q .ok t s') :
    Client.solo (served false) i D (Tx.writeIfMatch k c o.etag) t Q s := by
  refine Client.solo_perform fun r s' hs ↦ ?_
  obtain ⟨d, hf, hd⟩ := answered hs
  rw [answer, hf, Store.get_wait, hk] at hd
  dsimp only at hd
  rw [if_pos rfl] at hd
  obtain ⟨rfl, rfl⟩ := Prod.mk.inj hd
  exact h _ _ rfl (put_get _ k c)

/-- `read_retry` reads what is there if it makes an attempt. -/
theorem readRetry {o : Object} (hr : 0 < t.cfg.storageRetries) (hk : s.get k = some o)
    {Q : Option Object → Txn → Store → Prop} (h : ∀ s', s'.get = s.get → Q (some o) t s') :
    Client.solo (served false) i D (Tx.readRetry k) t Q s := by
  refine Client.solo_get_bind ?_
  obtain ⟨n, hn⟩ := Nat.exists_eq_succ_of_ne_zero (Nat.ne_of_gt hr)
  rw [hn]
  refine Client.solo_bind (read fun s' hs ↦ ?_)
  rw [hk]
  exact Client.solo_pure (h s' hs)

/-- Nothing is read where nothing is. -/
theorem readRetry_none (hk : s.get k = none) {Q : Option Object → Txn → Store → Prop}
    (h : ∀ s', s'.get = s.get → Q none t s') :
    Client.solo (served false) i D (Tx.readRetry k) t Q s := by
  refine Client.solo_get_bind ?_
  generalize t.cfg.storageRetries = n
  induction n generalizing s with
  | zero => exact Client.solo_pure (h s rfl)
  | succ n ih =>
    refine Client.solo_bind (read fun s' hs ↦ ?_)
    rw [hk]
    exact ih (hs ▸ hk) fun s₂ h₂ ↦ h s₂ (h₂.trans hs)

theorem listRetry {p : Table} (hr : 0 < t.cfg.storageRetries)
    {Q : Option (List ℕ) → Txn → Store → Prop}
    (h : ∀ s', s'.get = s.get → Q (some (s.versions p)) t s') :
    Client.solo (served false) i D (Tx.listRetry p) t Q s := by
  refine Client.solo_get_bind ?_
  obtain ⟨n, hn⟩ := Nat.exists_eq_succ_of_ne_zero (Nat.ne_of_gt hr)
  rw [hn]
  exact Client.solo_bind (listObjects fun s' hs ↦ Client.solo_pure (h s' hs))

end Calls

end LakeVilla.Opening

import LakeVilla.Guarantees.Service

/-!
# The lock of the global log

A waiter breaks a lock that it has observed for longer than the lease: it reads the lock file again
and deletes it. Between the read and the deletion another waiter may break the same lock and acquire
it, and then the deletion hits a live lock. A release whose deletion took effect although its
response was lost deletes again, and may hit the next holder's lock as well.

The lock is exclusive in the runs in which waiters delete only lock files older than the lease, no
release loses the response of its deletion, and holders act within the lease of their lock file
(`LockStep`). A holder is `Live` as long as the lease of its lock file lasts.
-/

namespace LakeVilla

open Concurrency

/-! ## Lock files -/

namespace Store

/-- The time at which the entry of the journal wrote a lock file with this token. -/
def lockTime (token : Token) (e : Key × Option Object) : Option ℤ :=
  match e with
  | (.globalTmpLog, some ⟨.lock content, _, ms⟩) => if content = token then some ms else none
  | _ => none

/-- The time at which the lock file with this token was last written. -/
def lockedAt (s : Store) (token : Token) : Option ℤ := s.journal.findSome? (lockTime token)

/-- The lock file holds the token. -/
def LockedBy (s : Store) (token : Token) : Prop :=
  ∃ o, s.get .globalTmpLog = some o ∧ o.content = .lock token

/-- The lease of the lock file with this token lasts. -/
def Live (lease : ℕ) (s : Store) (token : Token) : Prop :=
  ∀ ms, s.lockedAt token = some ms → s.clock ≤ ms + lease

/-- As long as its lease lasts, the lock file stays. -/
def Secured (lease : ℕ) (s : Store) (token : Token) : Prop := s.Live lease token → s.LockedBy token

end Store

instance (lease : ℕ) (s : Store) (token : Token) : Decidable (s.Live lease token) :=
  inferInstanceAs (Decidable (∀ ms ∈ s.lockedAt token, s.clock ≤ ms + lease))

section LockFiles

variable {s : Store} {token token' : Token} {k : Key} {o : Object}

theorem Store.lockedAt_cons (s : Store) (e : Key × Option Object) (n : ETag) (clock : ℤ)
    (he : lockTime token e = none) :
    Store.lockedAt ⟨e :: s.journal, n, clock⟩ token = s.lockedAt token := by
  rw [lockedAt, List.findSome?_cons, he]
  rfl

theorem Store.lockedAt_erase (s : Store) (k : Key) (token : Token) :
    (s.erase k).lockedAt token = s.lockedAt token := by
  refine s.lockedAt_cons _ _ _ ?_
  cases k <;> rfl

theorem Store.lockedAt_put (s : Store) (h : token' ≠ token) :
    (s.put .globalTmpLog (.lock token')).lockedAt token = s.lockedAt token := by
  refine s.lockedAt_cons _ _ _ ?_
  rw [lockTime, if_neg h]

/-- The lock file was written when its token was last written. -/
theorem Store.lockedAt_of_get (h : s.get .globalTmpLog = some o) (hc : o.content = .lock token) :
    s.lockedAt token = some o.lastModifiedMs := by
  obtain ⟨journal, n, clock⟩ := s
  unfold Store.get at h
  unfold Store.lockedAt
  simp only at h ⊢
  induction journal with
  | nil => cases h
  | cons e journal ih =>
    obtain ⟨key, obj⟩ := e
    by_cases hk : Key.globalTmpLog = key
    · subst hk
      obtain rfl : obj = some o := by simpa using h
      obtain ⟨content, e, ms⟩ := o
      obtain rfl : content = .lock token := hc
      simp [lockTime]
    · have hnone : lockTime token (key, obj) = none := by
        cases key with
        | globalTmpLog => exact absurd rfl hk
        | _ => rfl
      rw [List.findSome?_cons, hnone]
      refine ih ?_
      rwa [AssocList.lookup_cons_of_ne hk] at h

end LockFiles

/-! ## Clients that use the lock -/

namespace Tx

/-- What a holder does does not concern the lock, up to its release. -/
def holdLock : ℕ → Tx Unit
  | 0 => diverge
  | fuel + 1 => do
    match ← nextOp with
    | .abort => pure ()
    | _ => holdLock fuel

/-- A client that acquires and releases the lock again and again. -/
def useLock (fuel : ℕ) : ℕ → Tx Outcome
  | 0 => diverge
  | n + 1 => do
    if ← acquireGlobalLock fuel then do
      holdLock fuel
      releaseGlobalLock
      useLock fuel n
    else useLock fuel n

end Tx

/-- Every client is about to acquire the lock. -/
def System.lockUsers (fuel : ℕ) (c : Config) (s : Store) : System :=
  ⟨s, fun i ↦ Tx.useLock fuel fuel { cfg := c, transactionId := i }⟩

/-- Client `i` holds the lock with this token. -/
def System.Holding (w : System) (i : TxnId) (token : Token) : Prop :=
  ∃ t f, w.client i = .call t .nextOp f ∧ t.globalLockToken = some token

/-- The store answered a deletion. -/
def Call.deleted : (k : Call) → Response k → Bool
  | .deleteFile _, r => r
  | _, _ => true

/-- What keeps the lock exclusive: a waiter deletes a lock file that is older than the lease, a
release that deletes the lock file is answered, and a holder acts while the lease of its lock file
lasts. -/
structure LockStep (lease : ℕ) (t : Txn) (k : Call) (s : Store) (r : Response k) (s' : Store) :
    Prop where
  stale : k = .deleteFile .globalTmpLog → t.globalLockToken = none →
    ∀ o, s.get .globalTmpLog = some o → o.lastModifiedMs + lease < s'.clock
  answered : t.globalLockToken ≠ none → k.deleted r = true ∨ s'.journal = s.journal
  timely : ∀ token, t.globalLockToken = some token → s'.Live lease token

instance (lease : ℕ) (t : Txn) (k : Call) (s : Store) (r : Response k) (s' : Store) :
    Decidable (LockStep lease t k s r s') :=
  have : Decidable (∀ o, s.get .globalTmpLog = some o → o.lastModifiedMs + lease < s'.clock) :=
    inferInstanceAs (Decidable (∀ o ∈ s.get .globalTmpLog, o.lastModifiedMs + lease < s'.clock))
  have : Decidable (∀ token, t.globalLockToken = some token → s'.Live lease token) :=
    inferInstanceAs (Decidable (∀ token ∈ t.globalLockToken, s'.Live lease token))
  decidable_of_iff
    ((k = .deleteFile .globalTmpLog → t.globalLockToken = none →
        ∀ o, s.get .globalTmpLog = some o → o.lastModifiedMs + lease < s'.clock) ∧
      (t.globalLockToken ≠ none → k.deleted r = true ∨ s'.journal = s.journal) ∧
      ∀ token, t.globalLockToken = some token → s'.Live lease token)
    ⟨fun ⟨h₁, h₂, h₃⟩ ↦ ⟨h₁, h₂, h₃⟩, fun ⟨h₁, h₂, h₃⟩ ↦ ⟨h₁, h₂, h₃⟩⟩

/-- The runs, with any faults, that keep the lock exclusive. -/
abbrev lockSem (lease : ℕ) : Semantics TxnId Txn Response Store :=
  Meeting (served true) fun _ t k s r s' ↦ LockStep lease t k s r s'

/-! ## The protocol of the lock file -/

/-- What client `i` with the state `t` does to the lock file. -/
inductive LockMove (lease : ℕ) (i : TxnId) (t : Txn) (s s' : Store) : Prop
  | keep (hj : s'.journal = s.journal) (hc : s.clock ≤ s'.clock)
  | put (ms : ℕ) (token : Token) (hi : token.transactionId = i) (hn : s.get .globalTmpLog = none)
      (hs : s' = (s.wait ms).put .globalTmpLog (.lock token))
  | erase (ms : ℕ) (hs : s' = (s.wait ms).erase .globalTmpLog)
      (ho : ∀ o, s.get .globalTmpLog = some o →
        (∃ token, t.globalLockToken = some token ∧ token.transactionId = i ∧
          o.content = .lock token) ∨
        t.globalLockToken = none ∧ o.lastModifiedMs + lease < s'.clock)

/-- The lock file of client `i` stays as long as its lease lasts. -/
def Secure (lease : ℕ) (i : TxnId) (t : Txn) (s : Store) : Prop :=
  ∀ token, t.globalLockToken = some token → token.transactionId = i ∧ s.Secured lease token

/-- A client deletes its own lock file only, or one older than the lease. -/
def locking (lease : ℕ) : Protocol TxnId Txn Response Store where
  inv _ := True
  guar i t k s _ s' := LockMove lease i t s s' ∧ (k = .nextOp → Secure lease i t s)

section Locking

variable {lease fuel : ℕ} {i j : TxnId} {t : Txn} {s s' : Store} {token : Token}

theorem Store.LockedBy.secured (h : s.LockedBy token) : s.Secured lease token := fun _ ↦ h

/-- What the other clients do does not touch a lock file whose lease lasts. -/
theorem LockMove.secured (h : LockMove lease j t s s') (hj : token.transactionId ≠ j)
    (hs : s.Secured lease token) : s'.Secured lease token := by
  intro hlive
  rcases h with ⟨hjr, hc⟩ | ⟨ms, tok, hi, hn, rfl⟩ | ⟨ms, rfl, ho⟩
  · have hlocked : s.LockedBy token := by
      refine hs fun a ha ↦ Int.le_trans hc (hlive a ?_)
      rwa [Store.lockedAt, hjr]
    rwa [Store.LockedBy, Store.get, hjr]
  · have hne : tok ≠ token := by
      rintro rfl
      exact hj hi
    have hlocked : s.LockedBy token := by
      refine hs fun a ha ↦ ?_
      have := hlive a (by rwa [Store.lockedAt_put _ hne])
      simp only [Store.put_clock, Store.wait] at this
      omega
    obtain ⟨o, hget, -⟩ := hlocked
    rw [hn] at hget
    cases hget
  · have hlocked : s.LockedBy token := by
      refine hs fun a ha ↦ ?_
      have := hlive a (by rwa [Store.lockedAt_erase])
      simp only [Store.erase, Store.wait] at this
      omega
    obtain ⟨o, hget, hc⟩ := hlocked
    rcases ho o hget with ⟨tok, -, hi, hc'⟩ | ⟨-, hlt⟩
    · rw [hc] at hc'
      cases hc'
      exact absurd hi hj
    · have := hlive o.lastModifiedMs (by
        rw [Store.lockedAt_erase]
        exact Store.lockedAt_of_get hget hc)
      omega

theorem Store.Secured.rely (h : s.Secured lease token) (hi : token.transactionId = i)
    (hr : (locking lease).rely (lockSem lease) i s s') : s'.Secured lease token := by
  induction hr with
  | refl => exact h
  | tail _ hstep ih =>
    obtain ⟨j, hj, t, k, r, -, -, -, hmove, -⟩ := hstep
    exact hmove.secured (by rw [hi]; exact hj.symm) ih

theorem Secure.rely (h : Secure lease i t s) (hr : (locking lease).rely (lockSem lease) i s s') :
    Secure lease i t s' :=
  fun token ht ↦ have ⟨hi, hs⟩ := h token ht; ⟨hi, hs.rely hi hr⟩

theorem Secure.keep (h : Secure lease i t s) (hj : s'.journal = s.journal)
    (hc : s.clock ≤ s'.clock) : Secure lease i t s' := by
  intro token ht
  refine ⟨(h token ht).1, fun hlive ↦ ?_⟩
  have hlocked : s.LockedBy token := (h token ht).2 fun a ha ↦
    Int.le_trans hc (hlive a (by rwa [Store.lockedAt, hj]))
  rwa [Store.LockedBy, Store.get, hj]

theorem Secure.none (ht : t.globalLockToken = none) : Secure lease i t s := by
  intro token h
  rw [ht] at h
  cases h

theorem Store.clock_wait (s : Store) (ms : ℕ) : s.clock ≤ (s.wait ms).clock := by
  simp only [Store.wait]
  omega

end Locking

/-! ## Rules for the calls -/

namespace Locking

variable {lease fuel : ℕ} {i : TxnId} {t : Txn} {s : Store} {token : Token}

/-- A call that changes nothing. -/
theorem ask {c : Call} (hc : ∀ d s, (answer d c s).2 = s) (ht : Secure lease i t s)
    {Q : Response c → Txn → Store → Prop}
    (h : ∀ d r s₁ s', (answer d c s₁).1 = r → (locking lease).rely (lockSem lease) i s₁ s' →
      Secure lease i t s' → Q r t s') :
    Client.wp (lockSem lease) (locking lease) i (Tx.call c) t Q s := by
  refine Client.wp_perform fun s₁ h₁ _ r s₂ hs ↦ ?_
  obtain ⟨d, hd⟩ := served_answer hs.1
  obtain rfl : s₂ = s₁.wait d.delay := by
    rw [← hc d (s₁.wait d.delay), hd]
  have ht₁ := ht.rely h₁
  have hclock := Store.clock_wait s₁ d.delay
  refine ⟨trivial, ⟨.keep rfl hclock, fun _ ↦ ht₁⟩, fun s₃ h₃ _ ↦ ?_⟩
  have ht₂ : Secure lease i t (s₁.wait d.delay) := ht₁.keep rfl hclock
  exact h d r _ s₃ (by rw [hd]) h₃ (ht₂.rely h₃)

/-- A read of the lock file; a client that finds its own token holds the lock. -/
theorem read (ht : Secure lease i t s) {Q : Option Object → Txn → Store → Prop}
    (h : ∀ r s', Secure lease i t s' →
      (∀ token o, r = some o → o.content = .lock token → token.transactionId = i →
        s'.Secured lease token) → Q r t s') :
    Client.wp (lockSem lease) (locking lease) i (Tx.read .globalTmpLog) t Q s := by
  refine ask (fun _ _ ↦ rfl) ht fun d r s₁ s' hr hrely ht' ↦ h r s' ht' fun token o ho hc hi ↦ ?_
  have hget : s₁.get .globalTmpLog = some o := by
    simp only [answer, Fault.ask] at hr
    split at hr
    · exact hr.trans ho
    · exact absurd (hr.trans ho) (by simp)
    · exact absurd (hr.trans ho) (by simp)
  exact Store.Secured.rely (Store.LockedBy.secured ⟨o, hget, hc⟩) hi hrely

/-- A put-if-absent of the lock file. -/
theorem lockFile (ht : t.globalLockToken = none) (hi : token.transactionId = i)
    {Q : WriteStatus × ETag → Txn → Store → Prop}
    (h : ∀ r s', (r.1 = .ok → s'.Secured lease token) → Q r t s') :
    Client.wp (lockSem lease) (locking lease) i (Tx.writeAtomic .globalTmpLog (.lock token)) t Q
      s := by
  refine Client.wp_perform fun s₁ _ _ r s₂ hs ↦ ?_
  obtain ⟨d, hd⟩ := served_answer hs.1
  have hkeep : LockMove lease i t s₁ (s₁.wait d.delay) := .keep rfl (Store.clock_wait _ _)
  have hguar : LockMove lease i t s₁ s₂ ∧ (r.1 = .ok → s₂.LockedBy token) := by
    obtain ⟨r, e⟩ := r
    rcases answer_writeAtomic hd with ⟨-, -, hn, rfl⟩ | ⟨rfl, -, rfl⟩ | ⟨rfl, -, rfl | ⟨hn, rfl⟩⟩
    · exact ⟨.put d.delay token hi hn rfl, fun _ ↦ ⟨_, Store.get_put_self _ _ _, rfl⟩⟩
    · exact ⟨hkeep, by simp⟩
    · exact ⟨hkeep, by simp⟩
    · exact ⟨.put d.delay token hi hn rfl, by simp⟩
  refine ⟨trivial, ⟨hguar.1, fun _ ↦ .none ht⟩, fun s₃ h₃ _ ↦ h r s₃ fun hr ↦ ?_⟩
  exact Store.Secured.rely (hguar.2 hr).secured hi h₃

/-- A waiter deletes the lock file. -/
theorem breakFile (ht : t.globalLockToken = none) {Q : Bool → Txn → Store → Prop}
    (h : ∀ r s', Q r t s') :
    Client.wp (lockSem lease) (locking lease) i (Tx.deleteFile .globalTmpLog) t Q s := by
  refine Client.wp_perform fun s₁ _ _ r s₂ hs ↦ ?_
  obtain ⟨d, hd⟩ := served_answer hs.1
  refine ⟨trivial, ⟨?_, fun _ ↦ .none ht⟩, fun s₃ _ _ ↦ h r s₃⟩
  rcases answer_deleteFile hd with rfl | rfl
  · exact .keep rfl (Store.clock_wait _ _)
  · exact .erase d.delay rfl fun o ho ↦ .inr ⟨ht, hs.2.stale rfl ht o ho⟩

/-- A holder deletes the lock file; it is its own. -/
theorem unlockFile (ht : t.globalLockToken = some token) (hsec : Secure lease i t s)
    {Q : Bool → Txn → Store → Prop}
    (h : ∀ r s', (r = false → Secure lease i t s') → Q r t s') :
    Client.wp (lockSem lease) (locking lease) i (Tx.deleteFile .globalTmpLog) t Q s := by
  refine Client.wp_perform fun s₁ h₁ _ r s₂ hs ↦ ?_
  obtain ⟨d, hd⟩ := served_answer hs.1
  have hsec₁ := hsec.rely h₁
  have hclock := Store.clock_wait s₁ d.delay
  rcases answer_deleteFile hd with rfl | rfl
  · have hsec₂ : Secure lease i t (s₁.wait d.delay) := hsec₁.keep rfl hclock
    exact ⟨trivial, ⟨.keep rfl hclock, fun _ ↦ hsec₁⟩, fun s₃ h₃ _ ↦ h r s₃ fun _ ↦ hsec₂.rely h₃⟩
  · refine ⟨trivial, ⟨.erase d.delay rfl fun o ho ↦ .inl ⟨token, ht, (hsec₁ token ht).1, ?_⟩,
      fun _ ↦ hsec₁⟩, fun s₃ _ _ ↦ h r s₃ fun hr ↦ ?_⟩
    · have hlive : s₁.Live lease token := fun ms hms ↦ by
        have := hs.2.timely token ht ms (by rwa [Store.lockedAt_erase])
        exact Int.le_trans hclock this
      obtain ⟨o', ho', hc⟩ := (hsec₁ token ht).2 hlive
      obtain rfl := Option.some.inj (ho'.symm.trans ho)
      exact hc
    · rcases hs.2.answered (by simp [ht]) with hr' | hj
      · exact absurd (hr.symm.trans hr') (by simp)
      · exact absurd (congrArg List.length hj) (by simp [Store.erase])

/-! ## The lock -/

theorem acquired (hi : token.transactionId = i) (hs : s.Secured lease token)
    {Q : Bool → Txn → Store → Prop}
    (h : ∀ s', Secure lease i { t with globalLockToken := some token } s' →
      Q true { t with globalLockToken := some token } s') :
    Client.wp (lockSem lease) (locking lease) i (Tx.acquired token) t Q s := by
  refine Client.wp_modify_bind (Client.wp_pure fun s' hs' _ ↦ h s' ?_)
  intro tok htok
  obtain rfl : token = tok := Option.some.inj htok
  exact ⟨hi, hs.rely hi hs'⟩

theorem breakLock (observed : Token) (ht : t.globalLockToken = none)
    {Q : Unit → Txn → Store → Prop} (h : ∀ s', Q () t s') :
    Client.wp (lockSem lease) (locking lease) i (Tx.breakLock observed) t Q s := by
  have hret : ∀ s', Client.wp (lockSem lease) (locking lease) i (pure () : Tx Unit) t Q s' :=
    fun _ ↦ Client.wp_pure fun s₂ _ _ ↦ h s₂
  refine Client.wp_bind trivial (read (.none ht) fun r s₁ _ _ ↦ ?_)
  split
  · refine Client.wp_ite (fun _ ↦ ?_) fun _ ↦ hret s₁
    exact Client.wp_bind trivial (breakFile ht fun _ s₂ ↦ hret s₂)
  · exact hret s₁

theorem acquireLoop (start : ℤ) (fuel : ℕ) {observed : Option Token} {since : ℤ}
    (ht : t.globalLockToken = none) (hi : token.transactionId = i) {Q : Bool → Txn → Store → Prop}
    (htrue : ∀ s', Secure lease i { t with globalLockToken := some token } s' →
      Q true { t with globalLockToken := some token } s')
    (hfalse : ∀ s', Q false t s') :
    Client.wp (lockSem lease) (locking lease) i (Tx.acquireLoop token start fuel observed since) t Q
      s := by
  induction fuel generalizing s observed since with
  | zero => exact Client.wp_diverge
  | succ fuel ih =>
    have hret : ∀ s', Client.wp (lockSem lease) (locking lease) i (pure false : Tx Bool) t Q s' :=
      fun _ ↦ Client.wp_pure fun s₂ _ _ ↦ hfalse s₂
    unfold Tx.acquireLoop
    refine Client.wp_get_bind (Client.wp_get_bind (Client.wp_bind trivial (lockFile ht hi
      fun r s₁ hr ↦ ?_)))
    split
    · exact acquired hi (hr rfl) htrue
    · refine Client.wp_bind trivial (ask (fun _ _ ↦ rfl) (.none ht) fun _ now _ s₂ _ _ _ ↦ ?_)
      refine Client.wp_bind trivial (read (.none ht) fun r s₃ _ hown ↦ ?_)
      split
      · refine Client.wp_ite (fun hc ↦ ?_) fun _ ↦ Client.wp_ite (fun _ ↦ ?_) fun _ ↦
          Client.wp_ite (fun _ ↦ ?_) fun _ ↦ ?_
        · subst hc
          exact acquired hi (hown _ _ rfl rfl hi) htrue
        · exact Client.wp_ite (fun _ ↦ hret s₃) fun _ ↦ ih
        · exact Client.wp_bind trivial (breakLock _ ht fun s₄ ↦ ih)
        · exact Client.wp_ite (fun _ ↦ hret s₃) fun _ ↦ ih
      · exact Client.wp_ite (fun _ ↦ hret s₃) fun _ ↦ ih

theorem acquireGlobalLock (fuel : ℕ) (ht : t.globalLockToken = none) (hid : t.transactionId = i)
    {Q : Bool → Txn → Store → Prop}
    (htrue : ∀ t' s' token, t'.transactionId = i → t'.globalLockToken = some token →
      Secure lease i t' s' → Q true t' s')
    (hfalse : ∀ t' s', t'.transactionId = i → t'.globalLockToken = none → Q false t' s') :
    Client.wp (lockSem lease) (locking lease) i (Tx.acquireGlobalLock fuel) t Q s := by
  have hnone : Secure lease i { t with nextToken := t.nextToken + 1 } s := .none ht
  refine Client.wp_get_bind (Client.wp_set_bind (Client.wp_bind trivial (ask (fun _ _ ↦ rfl)
    hnone fun _ start _ s₁ _ _ _ ↦ ?_)))
  refine acquireLoop start fuel ?_ ?_ (fun s' hs' ↦ htrue _ s' _ ?_ rfl hs')
    fun s' ↦ hfalse _ s' ?_ ?_
  · exact ht
  · exact hid
  · exact hid
  · exact hid
  · exact ht

theorem holdLock (fuel : ℕ) (hsec : Secure lease i t s) {Q : Unit → Txn → Store → Prop}
    (h : ∀ s', Secure lease i t s' → Q () t s') :
    Client.wp (lockSem lease) (locking lease) i (Tx.holdLock fuel) t Q s := by
  induction fuel generalizing s with
  | zero => exact Client.wp_diverge
  | succ fuel ih =>
    refine Client.wp_bind trivial (ask (fun _ _ ↦ rfl) hsec fun _ op _ s₁ _ _ hsec₁ ↦ ?_)
    split
    · exact Client.wp_pure fun s₂ h₂ _ ↦ h s₂ (hsec₁.rely h₂)
    · exact ih hsec₁

theorem deleteAttempts (n : ℕ) (ht : t.globalLockToken = some token) (hsec : Secure lease i t s)
    {Q : Unit → Txn → Store → Prop} (h : ∀ s', Q () t s') :
    Client.wp (lockSem lease) (locking lease) i (Tx.deleteAttempts .globalTmpLog n) t Q s := by
  induction n generalizing s with
  | zero => exact Client.wp_pure fun s' _ _ ↦ h s'
  | succ n ih =>
    refine Client.wp_bind trivial (unlockFile ht hsec fun r s₁ hr ↦ ?_)
    cases r with
    | true => exact Client.wp_pure fun s₂ _ _ ↦ h s₂
    | false => exact ih (hr rfl)

theorem releaseGlobalLock (ht : t.globalLockToken = some token) (hsec : Secure lease i t s)
    {Q : Unit → Txn → Store → Prop}
    (h : ∀ s', Q () { t with globalLockToken := none } s') :
    Client.wp (lockSem lease) (locking lease) i Tx.releaseGlobalLock t Q s := by
  have hret : ∀ s', Client.wp (lockSem lease) (locking lease) i (pure () : Tx Unit) t
      (fun _ t s ↦ Client.wp (lockSem lease) (locking lease) i
        (modify fun t ↦ { t with globalLockToken := none } : Tx Unit) t Q s) s' := fun _ ↦
    Client.wp_pure fun s₂ _ _ ↦ Client.wp_modify fun s₃ _ _ ↦ by exact h s₃
  refine Client.wp_get_bind ?_
  rw [ht]
  refine Client.wp_bind trivial (Client.wp_bind trivial (read hsec fun r s₁ hsec₁ _ ↦ ?_))
  split
  · refine Client.wp_ite (fun _ ↦ Client.wp_get_bind ?_) fun _ ↦ hret s₁
    exact deleteAttempts _ ht hsec₁ fun s₂ ↦ Client.wp_modify fun s₃ _ _ ↦ by exact h s₃
  · exact hret s₁

theorem useLock (fuel n : ℕ) (ht : t.globalLockToken = none) (hid : t.transactionId = i) :
    Client.wp (lockSem lease) (locking lease) i (Tx.useLock fuel n) t (fun _ _ _ ↦ True) s := by
  induction n generalizing t s with
  | zero => exact Client.wp_diverge
  | succ n ih =>
    refine Client.wp_bind trivial (acquireGlobalLock fuel ht hid ?_
      fun t' s' hid' ht' ↦ ih ht' hid')
    intro t' s' token hid' ht' hsec
    refine Client.wp_bind trivial (holdLock fuel hsec fun s₁ hsec₁ ↦ ?_)
    exact Client.wp_bind trivial (releaseGlobalLock ht' hsec₁ fun s₂ ↦ ih rfl hid')

/-- Clients that use the lock keep its protocol. -/
theorem safe (lease fuel : ℕ) (c : Config) (s : Store) :
    Safe (lockSem lease) (locking lease) (fun _ _ _ ↦ True) (System.lockUsers fuel c s) where
  shared := trivial
  client _ := useLock fuel fuel rfl rfl

end Locking

/-! ## Mutual exclusion -/

section Runs

variable {lease fuel : ℕ} {c : Config} {s s' : Store} {w : System} {i j : TxnId}
variable {token token' : Token}

/-- A live holder has a lock file with its token. -/
theorem System.Holding.lockedBy (h : Reachable (lockSem lease) (System.lockUsers fuel c s) w)
    (hi : w.Holding i token) (hl : w.shared.Live lease token) :
    token.transactionId = i ∧ w.shared.LockedBy token := by
  obtain ⟨t, f, hc, ht⟩ := hi
  have hlive : (w.shared.wait 0).Live lease token := by
    intro ms hms
    have := hl ms hms
    simp only [Store.wait]
    omega
  have hstep : lockSem lease i t .nextOp w.shared .abort (w.shared.wait 0) := by
    refine ⟨⟨⟨{}, rfl⟩, rfl⟩, LockStep.mk (fun hk ↦ by cases hk) (fun _ ↦ .inl rfl)
      fun token' ht' ↦ ?_⟩
    obtain rfl : token = token' := Option.some.inj (ht.symm.trans ht')
    exact hlive
  have hsafe := (Locking.safe lease fuel c s).reachable h
  obtain ⟨hid, hs⟩ := (hsafe.act hc hstep).2.2.2.2 rfl token ht
  exact ⟨hid, hs hl⟩

/-- **The lock is exclusive.** Two live holders are the same client, and a release deletes no other
lock file than its own. -/
theorem lock_exclusive
    (h : Reachable (lockSem c.globalLockLeaseMs) (System.lockUsers fuel c s) w) :
    (∀ i j token token', w.Holding i token → w.Holding j token' →
      w.shared.Live c.globalLockLeaseMs token → w.shared.Live c.globalLockLeaseMs token' → i = j) ∧
    ∀ i t f r s' token, w.client i = .call t (.deleteFile .globalTmpLog) f →
      lockSem c.globalLockLeaseMs i t (.deleteFile .globalTmpLog) w.shared r s' →
      t.globalLockToken = some token → ∀ o, w.shared.get .globalTmpLog = some o →
        s'.get .globalTmpLog = none → o.content = .lock token := by
  refine ⟨fun i j token token' hi hj hl hl' ↦ ?_, fun i t f r s' token hi hs ht o ho hn ↦ ?_⟩
  · obtain ⟨rfl, o, ho, hc⟩ := hi.lockedBy h hl
    obtain ⟨rfl, o', ho', hc'⟩ := hj.lockedBy h hl'
    obtain rfl := Option.some.inj (ho.symm.trans ho')
    rw [hc] at hc'
    cases hc'
    rfl
  · have hsafe := (Locking.safe c.globalLockLeaseMs fuel c s).reachable h
    have hmove : LockMove c.globalLockLeaseMs i t w.shared s' := (hsafe.act hi hs).2.2.2.1
    rcases hmove with ⟨hj, -⟩ | ⟨ms, tok, -, hn', -⟩ | ⟨ms, -, hown⟩
    · rw [Store.get, hj] at hn
      rw [Store.get] at ho
      rw [ho] at hn
      cases hn
    · rw [hn'] at ho
      cases ho
    · rcases hown o ho with ⟨tok, htok, -, hc⟩ | ⟨hnone, -⟩
      · obtain rfl : tok = token := Option.some.inj (htok.symm.trans ht)
        exact hc
      · rw [hnone] at ht
        cases ht

/-- A client with the standard lease. -/
def lockConfig : Config := { levels := { l2 := true } }

/-- A client that observes a lock up to the point where it takes the holder for crashed. -/
def observe (i : TxnId) (delay : ℕ) : List (TxnId × Choice) :=
  steps i 1 ++ [(i, { delay := delay })] ++ steps i 2

/-- Client 2 crashed with the lock; client 0 breaks the lock and holds it, and nobody else does. -/
theorem lock_exclusive_run : ∃ w : System,
    Reachable (lockSem 30000) (System.lockUsers 20 lockConfig (.fresh [])) w ∧
    w.Holding 0 ⟨0, 0⟩ ∧ w.Holding 2 ⟨2, 0⟩ ∧
    ∀ j token, w.Holding j token → w.shared.Live 30000 token → 0 = j := by
  have hrun : ((System.runMeeting true (fun _ t k s r s' ↦ decide (LockStep 30000 t k s r s'))
      (System.lockUsers 20 lockConfig (.fresh []))
      (steps 2 2 ++ steps 0 4 ++ observe 0 30001 ++ steps 0 2)).map fun w ↦
        System.prompted w 0 (fun t ↦ decide (t.globalLockToken = some ⟨0, 0⟩)) &&
          System.prompted w 2 (fun t ↦ decide (t.globalLockToken = some ⟨2, 0⟩)) &&
          decide (w.shared.Live 30000 ⟨0, 0⟩)) = some true := by
    decide +kernel
  obtain ⟨w, hw, hc⟩ := Option.map_eq_some_iff.mp hrun
  have hreach := System.runMeeting_reachable (fun _ t k s r s' ↦ LockStep 30000 t k s r s')
    (fun _ _ _ _ _ _ h ↦ of_decide_eq_true h) hw
  simp only [Bool.and_eq_true, System.prompted_iff, decide_eq_true_eq] at hc
  obtain ⟨⟨⟨t, f, h₀, ht⟩, t', f', h₂, ht'⟩, hl⟩ := hc
  have hhold : w.Holding 0 ⟨0, 0⟩ := ⟨t, f, h₀, ht⟩
  exact ⟨w, hreach, hhold, ⟨t', f', h₂, ht'⟩, fun j token hj hlj ↦
    (lock_exclusive (c := lockConfig) hreach).1 0 j _ token hhold hj hl hlj⟩

/-- Client 2 crashed with the lock, and the clients 0 and 1 both find the stale lock file. Client 0
deletes it and acquires the lock; then client 1 deletes the lock file of client 0 and acquires the
lock as well. -/
theorem lock_held_twice : ∃ w : System,
    World.run (serve false) (fun _ _ _ _ _ ↦ true) (System.lockUsers 20 lockConfig (.fresh []))
      (steps 2 2 ++ steps 0 4 ++ steps 1 4 ++ observe 0 30001 ++ steps 1 4 ++ steps 0 2 ++
        steps 1 2) = some w ∧
    w.Holding 0 ⟨0, 0⟩ ∧ w.Holding 1 ⟨1, 0⟩ ∧ w.shared.Live 30000 ⟨0, 0⟩ ∧
    w.shared.Live 30000 ⟨1, 0⟩ := by
  have hrun : ((World.run (serve false) (fun _ _ _ _ _ ↦ true)
      (System.lockUsers 20 lockConfig (.fresh []))
      (steps 2 2 ++ steps 0 4 ++ steps 1 4 ++ observe 0 30001 ++ steps 1 4 ++ steps 0 2 ++
        steps 1 2)).map fun w ↦
        System.prompted w 0 (fun t ↦ decide (t.globalLockToken = some ⟨0, 0⟩)) &&
          System.prompted w 1 (fun t ↦ decide (t.globalLockToken = some ⟨1, 0⟩)) &&
          decide (w.shared.Live 30000 ⟨0, 0⟩) &&
          decide (w.shared.Live 30000 ⟨1, 0⟩)) = some true := by
    decide +kernel
  obtain ⟨w, hw, hc⟩ := Option.map_eq_some_iff.mp hrun
  simp only [Bool.and_eq_true, System.prompted_iff, decide_eq_true_eq] at hc
  obtain ⟨⟨⟨hhold, hhold'⟩, hl⟩, hl'⟩ := hc
  exact ⟨w, hw, hhold, hhold', hl, hl'⟩

end Runs

end LakeVilla

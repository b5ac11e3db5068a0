import LakeVilla.Protocol.Tracking

/-!
# The global log and its lock

For the logs of the tables the global log is only a hint: what matters is that the versions it names
exist. `Steady` protocols do not care about the global log and its lock file otherwise.
-/

namespace LakeVilla

open Concurrency

/-- The protocol allows every quiet step, unless a commit is written or the user is asked. -/
structure Steady (sem : Semantics TxnId Txn Response Store)
    (P : Protocol TxnId Txn Response Store) : Prop extends Disciplined sem P where
  steady : ∀ {i m c s r s'}, P.inv s → sem i m c s r s' → s'.WF → Fenced i s s' → Quiet s s' →
    (c.isCommit = true → s'.journal = s.journal) → c ≠ .nextOp → P.inv s' ∧ P.guar i m c s r s'

/-- Keys that are not versions. -/
def Key.Global : Key → Prop
  | .version _ _ => False
  | _ => True

section Writes

variable {i : TxnId} {s : Store} {k : Key} {c : Content}

theorem Key.Global.ne {p : Table} {v : ℕ} (hk : k.Global) : Key.version p v ≠ k := by
  rintro rfl
  exact hk

theorem Store.put_global (hs : s.WF) (hk : k.Global)
    (hc : k = .globalLog → ∀ lines, c = .globalLog lines → ∀ e ∈ lines, s.Exists e.1 e.2) :
    (s.put k c).WF ∧ Fenced i s (s.put k c) ∧ Quiet s (s.put k c) := by
  have hget : ∀ p v, (s.put k c).get (.version p v) = s.get (.version p v) := fun p v ↦
    Store.get_put_of_ne _ _ hk.ne
  have hlog : ∀ p v, (s.put k c).log p v = s.log p v := fun p v ↦ by
    rw [Store.log, hget, Store.log]
  refine ⟨⟨fun {k' o} h ↦ ?_, fun {p v o} h ↦ hs.kind (hget p v ▸ h), fun {p v} h ↦ ?_,
    fun {o lines} h hl e he ↦ ?_⟩, ⟨List.suffix_cons _ _, Nat.le_succ _, fun p v ↦ .inl (hget p v)⟩,
    ⟨fun {p v as} h ↦ .inl (hlog p v ▸ h)⟩⟩
  · rw [Store.get_put] at h
    split at h
    · obtain rfl := Option.some.inj h
      exact le_rfl
    · exact le_trans (hs.etag h) (Nat.le_succ _)
  · rw [Store.Exists, hget] at h ⊢
    exact hs.dense h
  · refine Store.Exists.put ?_ k
    rw [Store.get_put] at h
    split at h
    · next hk' =>
      obtain rfl := Option.some.inj h
      exact hc hk'.symm lines hl e he
    · exact hs.global h hl e he

theorem Store.erase_global (hs : s.WF) (hk : k.Global) :
    (s.erase k).WF ∧ Fenced i s (s.erase k) ∧ Quiet s (s.erase k) := by
  have hget : ∀ p v, (s.erase k).get (.version p v) = s.get (.version p v) := fun p v ↦ by
    rw [Store.get_erase, if_neg hk.ne]
  have hlog : ∀ p v, (s.erase k).log p v = s.log p v := fun p v ↦ by
    rw [Store.log, hget, Store.log]
  have hex : ∀ {p v}, (s.erase k).Exists p v ↔ s.Exists p v := fun {p v} ↦ by
    rw [Store.Exists, hget, Store.Exists]
  have hold : ∀ {k' o}, (s.erase k).get k' = some o → s.get k' = some o := fun {k' o} h ↦ by
    rw [Store.get_erase] at h
    split at h
    · cases h
    · exact h
  refine ⟨⟨fun h ↦ hs.etag (hold h), fun h ↦ hs.kind (hold h),
    fun h ↦ hex.mpr (hs.dense (hex.mp h)),
    fun h hl e he ↦ hex.mpr (hs.global (hold h) hl e he)⟩,
    ⟨List.suffix_cons _ _, le_rfl, fun p v ↦ .inl (hget p v)⟩,
    ⟨fun {p v as} h ↦ .inl (hlog p v ▸ h)⟩⟩

end Writes

/-- Acquiring and releasing the lock changes nothing else of the transaction. -/
def Txn.Locked (t t' : Txn) : Prop :=
  t' = { t with globalLockToken := t'.globalLockToken, nextToken := t'.nextToken }

theorem Txn.Locked.refl (t : Txn) : t.Locked t := rfl

theorem Txn.Locked.trans {t t' t'' : Txn} (h : t.Locked t') (h' : t'.Locked t'') :
    t.Locked t'' := by
  rw [Locked, h', h]

theorem Txn.Locked.aside {t t' : Txn} (h : t.Locked t') : t.Aside t' := by
  rw [h]
  rfl

namespace Steady

variable {sem : Semantics TxnId Txn Response Store} {P : Protocol TxnId Txn Response Store}
variable {i : TxnId} {t : Txn} {s : Store}

theorem act (D : Steady sem P) {c : Call} {Q : Response c → Txn → Store → Prop}
    (hk : c.isCommit = false)
    (hc : ∀ d r s₁ s₂, QuietLater i s s₁ → s₁.WF → answer d c s₁ = (r, s₂) →
      s₂.WF ∧ Fenced i s₁ s₂ ∧ Quiet s₁ s₂)
    (h : ∀ r s₁ s₂ s₃, QuietLater i s s₁ → Acted sem i t c s₁ r s₂ → QuietLater i s₁ s₂ →
      P.inv s₂ → QuietLater i s₂ s₃ → P.inv s₃ → Q r t s₃) (hn : c ≠ .nextOp := by rintro ⟨⟩) :
    Client.wp sem P i (Tx.call c) t Q s := by
  refine Client.wp_perform fun s₁ h₁ hi₁ r s₂ hs ↦ ?_
  obtain ⟨d, hd⟩ := D.served hs
  have h₁' : QuietLater i s (s₁.wait d.delay) :=
    (D.toDisciplined.rely h₁).trans (Disciplined.quietLater_wait i s₁ d.delay)
  obtain ⟨hwf, hf, hq⟩ := hc d r (s₁.wait d.delay) s₂ h₁' ((D.wf hi₁).wait _) hd
  obtain ⟨hi₂, hg⟩ := D.steady hi₁ hs hwf ⟨hf.journal, hf.etag, hf.version⟩ ⟨hq.log⟩
    (by simp [hk]) hn
  exact ⟨hi₂, hg, fun s₃ h₃ hi₃ ↦ h r _ s₂ s₃ h₁'
    ⟨(D.wf hi₁).wait _, s₁, d, hs, rfl, hd⟩
    (.single (.inr ⟨hf, hq⟩)) hi₂ (D.toDisciplined.rely h₃) hi₃⟩

/-- A put-if-absent of the lock file. -/
theorem lockFile (D : Steady sem P) {token : Token}
    {Q : WriteStatus × ETag → Txn → Store → Prop}
    (h : ∀ r s', QuietLater i s s' → P.inv s' → Q r t s') :
    Client.wp sem P i (Tx.writeAtomic .globalTmpLog (.lock token)) t Q s := by
  refine D.act rfl (fun d r s₁ s₂ _ hwf hr ↦ ?_) fun r s₁ s₂ s₃ h₁ _ h₂ _ h₃ hi₃ ↦
    h r s₃ (h₁.trans (h₂.trans h₃)) hi₃
  have hput := Store.put_global (i := i) (c := .lock token) hwf (k := .globalTmpLog) trivial
    (by simp)
  rcases answer_writeAtomic hr with ⟨-, -, -, rfl⟩ | ⟨-, -, rfl⟩ | ⟨-, -, rfl | ⟨-, rfl⟩⟩
  · exact hput
  · exact ⟨hwf, .refl _ _, .refl _⟩
  · exact ⟨hwf, .refl _ _, .refl _⟩
  · exact hput

/-- A deletion of the lock file. -/
theorem unlockFile (D : Steady sem P) {Q : Bool → Txn → Store → Prop}
    (h : ∀ r s', QuietLater i s s' → P.inv s' → Q r t s') :
    Client.wp sem P i (Tx.deleteFile .globalTmpLog) t Q s := by
  refine D.act rfl (fun d r s₁ s₂ _ hwf hr ↦ ?_) fun r s₁ s₂ s₃ h₁ _ h₂ _ h₃ hi₃ ↦
    h r s₃ (h₁.trans (h₂.trans h₃)) hi₃
  simp only [answer, Fault.write] at hr
  have herase := Store.erase_global (i := i) hwf (k := .globalTmpLog) trivial
  split at hr <;> obtain ⟨-, rfl⟩ := Prod.mk.inj hr
  · exact herase
  · exact ⟨hwf, .refl _ _, .refl _⟩
  · exact herase

end Steady

/-! ## The lock -/

/-- The protocol allows the calls on the lock file. It may keep track of the lock: `O` holds as long
as client `i` owns the lock file. -/
structure LockRules (sem : Semantics TxnId Txn Response Store)
    (P : Protocol TxnId Txn Response Store) (i : TxnId) (O : Store → Prop) : Prop
    extends Disciplined sem P where
  owned : ∀ {s s'}, O s → P.rely sem i s s' → P.inv s' → O s'
  lockFile : ∀ {token : Token} {t s}, token.transactionId = i →
    ∀ {Q : WriteStatus × ETag → Txn → Store → Prop},
    (∀ r s', QuietLater i s s' → P.inv s' → (r.1 = .ok → O s') → Q r t s') →
    Client.wp sem P i (Tx.writeAtomic .globalTmpLog (.lock token)) t Q s
  readLock : ∀ {t s} {Q : Option Object → Txn → Store → Prop},
    (∀ r s', QuietLater i s s' → P.inv s' → (∀ token o, r = some o → o.content = .lock token →
      token.transactionId = i → O s') → Q r t s') →
    Client.wp sem P i (Tx.read .globalTmpLog) t Q s
  unlockFile : ∀ {t s} {Q : Bool → Txn → Store → Prop},
    (∀ r s', QuietLater i s s' → P.inv s' → Q r t s') →
    Client.wp sem P i (Tx.deleteFile .globalTmpLog) t Q s

theorem Steady.lockRules {sem : Semantics TxnId Txn Response Store}
    {P : Protocol TxnId Txn Response Store} (D : Steady sem P) (i : TxnId) :
    LockRules sem P i fun _ ↦ True where
  toDisciplined := D.toDisciplined
  owned _ _ _ := trivial
  lockFile _ _ h := D.lockFile fun r s' hs hi ↦ h r s' hs hi fun _ ↦ trivial
  readLock h := D.toDisciplined.ask (fun _ _ ↦ rfl) fun r _ s' h₁ _ _ h₂ hi ↦
    h r s' (h₁.trans h₂) hi fun _ _ _ _ _ ↦ trivial
  unlockFile h := D.unlockFile h

namespace LockRules

variable {sem : Semantics TxnId Txn Response Store} {P : Protocol TxnId Txn Response Store}
variable {i : TxnId} {O : Store → Prop} {t : Txn} {s : Store}

theorem breakLock (D : LockRules sem P i O) (observed : Token) (hi : P.inv s)
    {Q : Unit → Txn → Store → Prop} (h : ∀ s', QuietLater i s s' → P.inv s' → Q () t s') :
    Client.wp sem P i (Tx.breakLock observed) t Q s := by
  have hret : ∀ s₁, QuietLater i s s₁ → Client.wp sem P i (pure () : Tx Unit) t Q s₁ := fun s₁ h₁ ↦
    Client.wp_pure fun s₂ h₂ hi₂ ↦ h s₂ (h₁.trans (D.toDisciplined.rely h₂)) hi₂
  refine Client.wp_bind hi (D.readLock fun r s₁ h₁ hi₁ _ ↦ ?_)
  split
  · refine Client.wp_ite (fun _ ↦ ?_) fun _ ↦ hret s₁ h₁
    exact Client.wp_bind hi₁ (D.unlockFile fun _ s₂ h₂ _ ↦ hret s₂ (h₁.trans h₂))
  · exact hret s₁ h₁

theorem acquired (D : LockRules sem P i O) (token : Token) (hs : O s)
    {Q : Bool → Txn → Store → Prop}
    (h : ∀ t' s', QuietLater i s s' → P.inv s' → t.Locked t' → O s' → Q true t' s') :
    Client.wp sem P i (Tx.acquired token) t Q s :=
  Client.wp_modify_bind (Client.wp_pure fun s' hr hi' ↦
    h _ s' (D.toDisciplined.rely hr) hi' rfl (D.owned hs hr hi'))

theorem acquireLoop (D : LockRules sem P i O) (token : Token) (htoken : token.transactionId = i)
    (start : ℤ) (fuel : ℕ) {observed : Option Token} {since : ℤ} (hi : P.inv s)
    {Q : Bool → Txn → Store → Prop}
    (h : ∀ r t' s', QuietLater i s s' → P.inv s' → t.Locked t' → (r = true → O s') → Q r t' s') :
    Client.wp sem P i (Tx.acquireLoop token start fuel observed since) t Q s := by
  induction fuel generalizing s observed since with
  | zero => exact Client.wp_diverge
  | succ fuel ih =>
    have hfalse : ∀ s₁, QuietLater i s s₁ → Client.wp sem P i (pure false : Tx Bool) t Q s₁ :=
      fun s₁ h₁ ↦ Client.wp_pure fun s₂ h₂ hi₂ ↦
        h false t s₂ (h₁.trans (D.toDisciplined.rely h₂)) hi₂ (.refl t) (by simp)
    have hagain : ∀ s₁ observed since, QuietLater i s s₁ → P.inv s₁ →
        Client.wp sem P i (Tx.acquireLoop token start fuel observed since) t Q s₁ :=
      fun s₁ _ _ h₁ hi₁ ↦ ih hi₁ fun r t' s' hs' ↦ h r t' s' (h₁.trans hs')
    have hacq : ∀ s₁, QuietLater i s s₁ → O s₁ → Client.wp sem P i (Tx.acquired token) t Q s₁ :=
      fun s₁ h₁ ho ↦ D.acquired token ho fun t' s' hs' hi' ht' ho' ↦
        h true t' s' (h₁.trans hs') hi' ht' fun _ ↦ ho'
    unfold Tx.acquireLoop
    refine Client.wp_get_bind (Client.wp_get_bind (Client.wp_bind hi (D.lockFile htoken
      fun r s₁ h₁ hi₁ ho ↦ ?_)))
    split
    · exact hacq s₁ h₁ (ho rfl)
    · refine Client.wp_bind hi₁ (D.toDisciplined.ask (fun _ _ ↦ rfl)
        fun now s₂ s₃ h₂ _ _ h₃ hi₃ ↦ ?_)
      refine Client.wp_bind hi₃ (D.readLock fun r s₄ h₄ hi₄ hown ↦ ?_)
      have h₁₄ := h₁.trans ((h₂.trans h₃).trans h₄)
      split
      · refine Client.wp_ite (fun hc ↦ ?_) fun _ ↦ Client.wp_ite (fun _ ↦ ?_) fun _ ↦
          Client.wp_ite (fun _ ↦ ?_) fun _ ↦ ?_
        · exact hacq s₄ h₁₄ (hown _ _ rfl rfl (hc ▸ htoken))
        · exact Client.wp_ite (fun _ ↦ hfalse s₄ h₁₄) fun _ ↦ hagain s₄ _ _ h₁₄ hi₄
        · exact Client.wp_bind hi₄ (D.breakLock _ hi₄ fun s₅ h₅ hi₅ ↦
            hagain s₅ _ _ (h₁₄.trans h₅) hi₅)
        · exact Client.wp_ite (fun _ ↦ hfalse s₄ h₁₄) fun _ ↦ hagain s₄ _ _ h₁₄ hi₄
      · exact Client.wp_ite (fun _ ↦ hfalse s₄ h₁₄) fun _ ↦ hagain s₄ _ _ h₁₄ hi₄

theorem acquireGlobalLock (D : LockRules sem P i O) (fuel : ℕ) (hid : t.transactionId = i)
    (hi : P.inv s) {Q : Bool → Txn → Store → Prop}
    (h : ∀ r t' s', QuietLater i s s' → P.inv s' → t.Locked t' → (r = true → O s') → Q r t' s') :
    Client.wp sem P i (Tx.acquireGlobalLock fuel) t Q s := by
  refine Client.wp_get_bind (Client.wp_set_bind (Client.wp_bind hi (D.toDisciplined.ask
    (fun _ _ ↦ rfl) fun now s₁ s₂ h₁ _ _ h₂ hi₂ ↦ ?_)))
  refine D.acquireLoop _ hid _ fuel hi₂ fun r t' s' hs' hi' ht' ↦ ?_
  have hnext : t.Locked { t with nextToken := t.nextToken + 1 } := rfl
  exact h r t' s' (h₁.trans (h₂.trans hs')) hi' (hnext.trans ht')

theorem deleteAttempts (D : LockRules sem P i O) (n : ℕ) (hi : P.inv s)
    {Q : Unit → Txn → Store → Prop}
    (h : ∀ s', QuietLater i s s' → P.inv s' → Q () t s') :
    Client.wp sem P i (Tx.deleteAttempts .globalTmpLog n) t Q s := by
  induction n generalizing s with
  | zero => exact Client.wp_pure fun s' hs hi' ↦ h s' (D.toDisciplined.rely hs) hi'
  | succ n ih =>
    refine Client.wp_bind hi (D.unlockFile fun r s₁ h₁ hi₁ ↦ ?_)
    cases r with
    | true =>
      exact Client.wp_pure fun s₂ h₂ hi₂ ↦ h s₂ (h₁.trans (D.toDisciplined.rely h₂)) hi₂
    | false => exact ih hi₁ fun s' hs' ↦ h s' (h₁.trans hs')

theorem deleteLock (D : LockRules sem P i O) (token : Token) (hi : P.inv s)
    {Q : Unit → Txn → Store → Prop}
    (h : ∀ s', QuietLater i s s' → P.inv s' → Q () t s') :
    Client.wp sem P i (Tx.deleteLock token) t Q s := by
  have hret : ∀ s₁, QuietLater i s s₁ → Client.wp sem P i (pure () : Tx Unit) t Q s₁ := fun s₁ h₁ ↦
    Client.wp_pure fun s₂ h₂ hi₂ ↦ h s₂ (h₁.trans (D.toDisciplined.rely h₂)) hi₂
  refine Client.wp_bind hi (D.readLock fun r s₁ h₁ hi₁ _ ↦ ?_)
  split
  · refine Client.wp_ite (fun _ ↦ Client.wp_get_bind ?_) fun _ ↦ hret s₁ h₁
    exact D.deleteAttempts _ hi₁ fun s₂ h₂ ↦ h s₂ (h₁.trans h₂)
  · exact hret s₁ h₁

theorem releaseGlobalLock (D : LockRules sem P i O) (hi : P.inv s) {Q : Unit → Txn → Store → Prop}
    (h : ∀ t' s', QuietLater i s s' → P.inv s' → t.Locked t' → Q () t' s') :
    Client.wp sem P i Tx.releaseGlobalLock t Q s := by
  refine Client.wp_get_bind ?_
  split
  · exact Client.wp_pure fun s' hs hi' ↦ h t s' (D.toDisciplined.rely hs) hi' (.refl t)
  · refine Client.wp_bind hi (D.deleteLock _ hi fun s₁ h₁ _ ↦ Client.wp_modify fun s₂ h₂ hi₂ ↦ ?_)
    exact h _ s₂ (h₁.trans (D.toDisciplined.rely h₂)) hi₂ rfl

end LockRules

/-! ## Validation -/

/-- What holds of all maps that are built from some tables. -/
theorem VersionMaps.ofTables_induction {I : VersionMaps → Prop} {ts : List TableStats} (h₀ : I {})
    (hw : ∀ maps, ∀ tbl ∈ ts, tbl.changed = true → I maps →
      I { maps with write := AssocList.insertNew maps.write tbl.basePath tbl.markerVersion })
    (hr : ∀ maps, ∀ tbl ∈ ts, tbl.changed = false → I maps →
      I { maps with read := AssocList.insertNew maps.read tbl.basePath tbl.readVersion }) :
    I (VersionMaps.ofTables ts) := by
  unfold VersionMaps.ofTables
  generalize ({} : VersionMaps) = maps at h₀
  induction ts generalizing maps with
  | nil => exact h₀
  | cons tbl ts ih =>
    rw [List.foldl_cons]
    refine ih (fun m x hx ↦ hw m x (List.mem_cons_of_mem _ hx))
      (fun m x hx ↦ hr m x (List.mem_cons_of_mem _ hx)) _ ?_
    split
    · next hc => exact hw _ tbl List.mem_cons_self hc h₀
    · next hc => exact hr _ tbl List.mem_cons_self (by simpa using hc) h₀

/-- The versions to read exist, and those to write are reserved for changed tables. -/
structure VersionMaps.Sound (maps : VersionMaps) (tables : List TableStats) (s : Store) : Prop where
  read : ∀ e ∈ maps.read, s.Exists e.1 e.2
  write : ∀ e ∈ maps.write, ∃ tbl ∈ tables, tbl.changed = true ∧
    e = (tbl.basePath, tbl.markerVersion)

namespace VersionMaps.Sound

variable {maps : VersionMaps} {tables : List TableStats} {s s' : Store}

theorem mono (h : maps.Sound tables s) (hs : Later s s') : maps.Sound tables s' :=
  ⟨fun e he ↦ hs.exists_mono (h.read e he), h.write⟩

theorem ofTables (h : ∀ tbl ∈ tables, s.Exists tbl.basePath tbl.readVersion) :
    (VersionMaps.ofTables tables).Sound tables s := by
  refine VersionMaps.ofTables_induction (I := fun maps ↦ maps.Sound tables s)
    ⟨by simp, by simp⟩ ?_ ?_
  · refine fun maps tbl htbl hc hm ↦ ⟨hm.read, fun e he ↦ ?_⟩
    rcases AssocList.mem_insertNew he with he | rfl
    · exact hm.write e he
    · exact ⟨tbl, htbl, hc, rfl⟩
  · refine fun maps tbl htbl _ hm ↦ ⟨fun e he ↦ ?_, hm.write⟩
    rcases AssocList.mem_insertNew he with he | rfl
    · exact hm.read e he
    · exact h tbl htbl

theorem validateLine {isolation : Isolation} {path : Table} {version : ℕ} {maps' : VersionMaps}
    (h : maps.Sound tables s) (hv : s.Exists path version)
    (hm : maps.validateLine isolation path version = some maps') : maps'.Sound tables s := by
  obtain ⟨m, hm₁, hm₂⟩ := Option.bind_eq_some_iff.mp hm
  have hr : m.Sound tables s := by
    unfold VersionMaps.validateRead at hm₁
    split at hm₁
    · split at hm₁
      · split at hm₁
        · cases hm₁
        · obtain rfl := Option.some.inj hm₁
          refine ⟨fun e he ↦ ?_, h.write⟩
          rcases AssocList.mem_insertOrAssign he with he | rfl
          · exact h.read e he
          · exact hv
      · exact Option.some.inj hm₁ ▸ h
    · exact Option.some.inj hm₁ ▸ h
  unfold VersionMaps.validateWrite at hm₂
  split at hm₂
  · split at hm₂
    · cases hm₂
    · exact Option.some.inj hm₂ ▸ hr
  · obtain rfl := Option.some.inj hm₂
    refine ⟨fun e he ↦ ?_, hr.write⟩
    rcases AssocList.mem_insertNew he with he | rfl
    · exact hr.read e he
    · exact hv

theorem validateLines {isolation : Isolation} {lines : List (Table × ℕ)} {maps' : VersionMaps}
    (h : maps.Sound tables s) (hv : ∀ e ∈ lines, s.Exists e.1 e.2)
    (hm : VersionMaps.validateLines isolation lines maps = some maps') : maps'.Sound tables s := by
  induction lines generalizing maps with
  | nil => exact Option.some.inj hm ▸ h
  | cons e lines ih =>
    obtain ⟨path, version⟩ := e
    obtain ⟨m, hm₁, hm₂⟩ := Option.bind_eq_some_iff.mp hm
    exact ih (h.validateLine (hv _ List.mem_cons_self) hm₁)
      (fun e he ↦ hv e (List.mem_cons_of_mem _ he)) hm₂

theorem lines (h : maps.Sound tables s)
    (hw : ∀ tbl ∈ tables, tbl.changed = true → s.Exists tbl.basePath tbl.markerVersion) :
    ∀ e ∈ maps.lines, s.Exists e.1 e.2 := by
  intro e he
  rcases List.mem_append.mp he with he | he
  · exact h.read e (List.mem_of_mem_filter he)
  · obtain ⟨tbl, htbl, hc, rfl⟩ := h.write e he
    exact hw tbl htbl hc

end VersionMaps.Sound

/-- The lines of the global log. -/
def Object.globalLines (o : Object) : List (Table × ℕ) :=
  match o.content with
  | .globalLog lines => lines
  | _ => []

/-- The protocol allows the owner of the lock to read the global log. It may keep track of what was
read: `V lines` holds as long as the log has these lines. -/
structure LogRules (sem : Semantics TxnId Txn Response Store)
    (P : Protocol TxnId Txn Response Store) (i : TxnId) (O : Store → Prop)
    (V : List (Table × ℕ) → Store → Prop) : Prop extends LockRules sem P i O where
  lines : ∀ {ls s s'}, V ls s → P.rely sem i s s' → P.inv s' → V ls s'
  named : ∀ {ls s}, V ls s → P.inv s → ∀ e ∈ ls, s.Exists e.1 e.2
  checkLog : ∀ {t s}, O s → ∀ {Q : Bool → Txn → Store → Prop},
    (∀ r s', QuietLater i s s' → P.inv s' → O s' → (r = false → V [] s') → Q r t s') →
    Client.wp sem P i (Tx.check .globalLog) t Q s
  readLog : ∀ {t s}, O s → P.inv s → ∀ {Q : Option Object → Txn → Store → Prop},
    (∀ r s', QuietLater i s s' → P.inv s' → (∀ o, r = some o → V o.globalLines s') → Q r t s') →
    Client.wp sem P i (Tx.readRetry .globalLog) t Q s

theorem Steady.logRules {sem : Semantics TxnId Txn Response Store}
    {P : Protocol TxnId Txn Response Store} (D : Steady sem P) (i : TxnId) :
    LogRules sem P i (fun _ ↦ True) fun lines s ↦ ∀ e ∈ lines, s.Exists e.1 e.2 where
  toLockRules := D.lockRules i
  lines h hr _ e he := (D.toDisciplined.rely hr).later.exists_mono (h e he)
  named h _ := h
  checkLog _ _ h := D.toDisciplined.ask (fun _ _ ↦ rfl) fun r _ s' h₁ _ _ h₂ hi ↦
    h r s' (h₁.trans h₂) hi trivial fun _ ↦ by simp
  readLog _ hi _ h := D.toDisciplined.readRetry hi fun r s₁ s' h₁ hi₁ hr _ h₂ hi' ↦
    h r s' (h₁.trans h₂) hi' fun o ho e he ↦ by
      refine h₂.later.exists_mono ?_
      unfold Object.globalLines at he
      split at he
      · next hc => exact (D.wf hi₁).global (hr o ho).read hc e he
      · cases he

namespace LogRules

variable {sem : Semantics TxnId Txn Response Store} {P : Protocol TxnId Txn Response Store}
variable {i : TxnId} {O : Store → Prop} {V : List (Table × ℕ) → Store → Prop} {t : Txn} {s : Store}

theorem startValidation (D : LogRules sem P i O V) (fuel : ℕ) (hid : t.transactionId = i)
    (hr : ∀ tbl ∈ t.tables, s.Exists tbl.basePath tbl.readVersion) (hi : P.inv s)
    {Q : Validation × VersionMaps → Txn → Store → Prop}
    (h : ∀ r maps t' s', QuietLater i s s' → P.inv s' → t.Locked t' → maps.Sound t.tables s' →
      (r = .valid → t.cfg.levels.l2 = true → ∃ lines, V lines s' ∧ VersionMaps.validateLines
        t.cfg.options.isolation lines (VersionMaps.ofTables t.tables) = some maps) →
      Q (r, maps) t' s') :
    Client.wp sem P i (Tx.startValidation fuel) t Q s := by
  have D' := D.toDisciplined
  refine Client.wp_get_bind (Client.wp_ite (fun _ ↦ ?_) fun hl2 ↦ ?_)
  · refine Client.wp_bind hi (D.toLockRules.acquireGlobalLock fuel hid hi
      fun r t₁ s₁ h₁ hi₁ ht₁ ho ↦ ?_)
    have hsound : ∀ {s'}, QuietLater i s₁ s' →
        (VersionMaps.ofTables t.tables).Sound t.tables s' :=
      fun h₂ ↦ (VersionMaps.Sound.ofTables hr).mono (h₁.trans h₂).later
    have hinvalid : ∀ r s₂, QuietLater i s₁ s₂ → r ≠ .valid →
        Client.wp sem P i
          (pure (r, VersionMaps.ofTables t.tables) : Tx (Validation × VersionMaps)) t₁ Q s₂ :=
      fun r s₂ h₂ hv ↦ Client.wp_pure fun s₃ h₃ hi₃ ↦
        have h₁₃ := h₂.trans (D'.rely h₃)
        h r _ t₁ s₃ (h₁.trans h₁₃) hi₃ ht₁ (hsound h₁₃) (absurd · hv)
    have hvalid : ∀ lines maps s₂, QuietLater i s₁ s₂ → P.inv s₂ → V lines s₂ →
        VersionMaps.validateLines t.cfg.options.isolation lines (VersionMaps.ofTables t.tables) =
          some maps →
        Client.wp sem P i (pure (.valid, maps) : Tx (Validation × VersionMaps)) t₁ Q s₂ :=
      fun lines maps s₂ h₂ hi₂ hv hm ↦ Client.wp_pure fun s₃ h₃ hi₃ ↦
        h _ maps t₁ s₃ (h₁.trans (h₂.trans (D'.rely h₃))) hi₃ ht₁
          (((hsound h₂).validateLines (D.named hv hi₂) hm).mono (D'.rely h₃).later)
          fun _ _ ↦ ⟨lines, D.lines hv h₃ hi₃, hm⟩
    cases r with
    | false => exact hinvalid _ s₁ .refl (by simp)
    | true =>
      refine Client.wp_ite (fun _ ↦ ?_) fun h ↦ absurd rfl h
      refine Client.wp_bind hi₁ (D.checkLog (ho rfl) fun r s₂ h₂ hi₂ ho₂ hv ↦ ?_)
      cases r with
      | false => exact hvalid [] _ s₂ h₂ hi₂ (hv rfl) rfl
      | true =>
        refine Client.wp_ite (fun _ ↦ ?_) fun h ↦ absurd rfl h
        refine Client.wp_bind hi₂ (D.readLog ho₂ hi₂ fun r s₃ h₃ hi₃ hv ↦ ?_)
        have h₁₃ := h₂.trans h₃
        cases r with
        | none => exact hinvalid _ s₃ h₁₃ (by simp)
        | some o =>
          have hv := hv o rfl
          unfold Object.globalLines at hv
          simp only
          split
          · next lines hc =>
            rw [hc] at hv
            split
            · next maps hm => exact hvalid lines maps s₃ h₁₃ hi₃ hv hm
            · exact hinvalid _ s₃ h₁₃ (by simp)
          · next hc =>
            refine hvalid [] _ s₃ h₁₃ hi₃ ?_ rfl
            split at hv
            · next lines hc' => exact absurd hc' (hc lines)
            · exact hv
  · exact Client.wp_pure fun s' hs hi' ↦ h _ _ t s' (D'.rely hs) hi' (.refl t)
      ⟨by simp, by simp⟩ fun _ h ↦ absurd h hl2

theorem globalEntries (D : LogRules sem P i O V) (ho : O s) (hi : P.inv s)
    {Q : Option (List (Table × ℕ)) → Txn → Store → Prop}
    (h : ∀ r s', QuietLater i s s' → P.inv s' → (∀ lines, r = some lines → V lines s') → Q r t s') :
    Client.wp sem P i Tx.globalEntries t Q s := by
  have hret : ∀ (r : Option (List (Table × ℕ))) s₁, QuietLater i s s₁ →
      (∀ lines, r = some lines → V lines s₁) →
      Client.wp sem P i (pure r : Tx (Option (List (Table × ℕ)))) t Q s₁ := fun r s₁ h₁ hv ↦
    Client.wp_pure fun s₂ h₂ hi₂ ↦ h r s₂ (h₁.trans (D.toDisciplined.rely h₂)) hi₂
      fun lines hr ↦ D.lines (hv lines hr) h₂ hi₂
  refine Client.wp_bind hi (D.checkLog ho fun r s₁ h₁ hi₁ ho₁ hv ↦ ?_)
  cases r with
  | false => exact hret _ s₁ h₁ fun lines hr ↦ Option.some.inj hr ▸ hv rfl
  | true =>
    refine Client.wp_ite (fun _ ↦ ?_) fun h ↦ absurd rfl h
    refine Client.wp_bind hi₁ (D.readLog ho₁ hi₁ fun r s₂ h₂ _ hv ↦ ?_)
    have h₁₂ := h₁.trans h₂
    split
    · exact hret _ s₂ h₁₂ (by simp)
    · exact hret _ s₂ h₁₂ fun lines hr ↦ Option.some.inj hr ▸ hv _ rfl
    · next o hne =>
      refine hret _ s₂ h₁₂ fun lines hr ↦ ?_
      have hv := hv o rfl
      unfold Object.globalLines at hv
      split at hv
      · next lines hc => exact (hne lines o.etag o.lastModifiedMs (by rw [← hc])).elim
      · exact Option.some.inj hr ▸ hv

/-- `update_global_entry`, up to the write. -/
theorem updateGlobalEntry (D : LogRules sem P i O V) {path : Table}
    {update : Option ℕ → Option ℕ} (ho : O s) (hi : P.inv s) {Q : Bool → Txn → Store → Prop}
    (hw : ∀ entries s', QuietLater i s s' → P.inv s' → V entries s' →
      Client.wp sem P i (Tx.writeAttempts .globalLog (.globalLog (Tx.replaceEntry entries path
        (update (entries.reverse.lookup path)))) t.cfg.storageRetries) t Q s')
    (h : ∀ r s', QuietLater i s s' → P.inv s' → Q r t s') :
    Client.wp sem P i (Tx.updateGlobalEntry path update) t Q s := by
  refine Client.wp_bind hi (D.globalEntries ho hi fun r s₁ h₁ hi₁ hv ↦ ?_)
  split
  · exact Client.wp_pure fun s₂ h₂ hi₂ ↦ h _ s₂ (h₁.trans (D.toDisciplined.rely h₂)) hi₂
  · next entries =>
    refine Client.wp_ite (fun _ ↦ ?_) fun _ ↦ Client.wp_get_bind ?_
    · exact Client.wp_pure fun s₂ h₂ hi₂ ↦ h _ s₂ (h₁.trans (D.toDisciplined.rely h₂)) hi₂
    · exact hw entries s₁ h₁ hi₁ (hv entries rfl)

end LogRules

namespace Steady

variable {sem : Semantics TxnId Txn Response Store} {P : Protocol TxnId Txn Response Store}
variable {i : TxnId} {t : Txn} {s : Store}

theorem writeAttempts (D : Steady sem P) {lines : List (Table × ℕ)} (n : ℕ)
    (hl : ∀ e ∈ lines, s.Exists e.1 e.2) (hi : P.inv s) {Q : Bool → Txn → Store → Prop}
    (h : ∀ r s', QuietLater i s s' → P.inv s' → Q r t s') :
    Client.wp sem P i (Tx.writeAttempts .globalLog (.globalLog lines) n) t Q s := by
  induction n generalizing s with
  | zero => exact Client.wp_pure fun s' hs hi' ↦ h false s' (D.toDisciplined.rely hs) hi'
  | succ n ih =>
    refine Client.wp_bind hi (D.act rfl (fun d r s₁ s₂ h₁ hwf hr ↦ ?_)
      fun r s₁ s₂ s₃ h₁ _ h₂ _ h₃ hi₃ ↦ ?_)
    · have hput := Store.put_global (i := i) (c := .globalLog lines) hwf (k := .globalLog) trivial
        fun _ ls hls e he ↦ by
          cases hls
          exact h₁.later.exists_mono (hl e he)
      rcases answer_write hr with ⟨-, rfl⟩ | ⟨-, -, rfl | rfl⟩
      · exact hput
      · exact ⟨hwf, .refl _ _, .refl _⟩
      · exact hput
    · have h₁₃ := h₁.trans (h₂.trans h₃)
      cases r with
      | true =>
        exact Client.wp_pure fun s₄ h₄ hi₄ ↦
          h _ s₄ (h₁₃.trans (D.toDisciplined.rely h₄)) hi₄
      | false =>
        exact ih (fun e he ↦ h₁₃.later.exists_mono (hl e he)) hi₃ fun r s' hs' ↦
          h r s' (h₁₃.trans hs')

theorem createGlobalSnapshot (D : Steady sem P) {maps : VersionMaps}
    (hl : ∀ e ∈ maps.lines, s.Exists e.1 e.2) (hi : P.inv s) {Q : Unit → Txn → Store → Prop}
    (h : ∀ t' s', QuietLater i s s' → P.inv s' → t.Locked t' → Q () t' s') :
    Client.wp sem P i (Tx.createGlobalSnapshot maps) t Q s := by
  refine Client.wp_get_bind (Client.wp_ite (fun _ ↦ ?_) fun _ ↦ ?_)
  · refine Client.wp_bind hi (D.writeAttempts _ hl hi fun r s₁ h₁ hi₁ ↦ ?_)
    exact (D.lockRules i).releaseGlobalLock hi₁ fun t' s' hs' ↦ h t' s' (h₁.trans hs')
  · exact Client.wp_pure fun s' hs hi' ↦ h t s' (D.toDisciplined.rely hs) hi' (.refl t)

/-! ## Changing one entry -/

theorem replaceEntry_exists {entries : List (Table × ℕ)} {path : Table} {next : Option ℕ}
    (h : ∀ e ∈ entries, s.Exists e.1 e.2) (hn : ∀ v, next = some v → s.Exists path v) :
    ∀ e ∈ Tx.replaceEntry entries path next, s.Exists e.1 e.2 := by
  intro e he
  unfold Tx.replaceEntry at he
  simp only at he
  split at he
  · exact h e (List.mem_of_mem_filter he)
  · next v =>
    split at he
    · rcases List.mem_append.mp he with he | he
      · exact h e (List.takeWhile_subset _ he)
      · rcases List.mem_cons.mp he with rfl | he
        · exact hn v rfl
        · exact h e (List.dropWhile_subset _ (List.mem_of_mem_filter he))
    · rcases List.mem_append.mp he with he | he
      · exact h e (List.mem_of_mem_filter he)
      · obtain rfl := List.mem_singleton.mp he
        exact hn v rfl

theorem updateGlobalEntry (D : Steady sem P) {path : Table} {update : Option ℕ → Option ℕ}
    (hup : ∀ s', Later s s' → ∀ current v, (∀ u, current = some u → s'.Exists path u) →
      update current = some v → s'.Exists path v)
    (hi : P.inv s) {Q : Bool → Txn → Store → Prop}
    (h : ∀ r s', QuietLater i s s' → P.inv s' → Q r t s') :
    Client.wp sem P i (Tx.updateGlobalEntry path update) t Q s := by
  refine (D.logRules i).updateGlobalEntry trivial hi (fun entries s₁ h₁ hi₁ hl ↦ ?_) h
  refine D.writeAttempts _ (replaceEntry_exists hl fun v hv ↦ ?_) hi₁
    fun r s' hs' ↦ h r s' (h₁.trans hs')
  refine hup s₁ h₁.later _ v (fun u hu ↦ hl (path, u) ?_) hv
  exact List.mem_reverse.mp (AssocList.mem_of_lookup hu)

end Steady

end LakeVilla

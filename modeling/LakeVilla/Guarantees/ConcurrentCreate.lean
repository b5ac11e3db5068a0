import LakeVilla.Concurrency.Calls
import LakeVilla.Guarantees.FirstVersion
import LakeVilla.Tables.ConcurrentCreate

/-!
# Concurrent creations

However many calls create a table side by side, with transactions on it, at most one of them
returns `Ok`: only one put of version 0 takes effect, and a call that returns `Ok` has seen its own
commit there. The removal of a global-log entry is a step of its own. It leaves the entries of a
created table alone if the table is not created between the listing of another call and that step.
-/

namespace LakeVilla

open Concurrency Client
open Tables (TableResult)

/-! ## One winner -/

/-- Version 0 of table `p` is the one that client `i` created. -/
def Store.CreatedBy (s : Store) (p : Table) (i : TxnId) : Prop :=
  ∃ o, s.get (.version p 0) = some o ∧ o.content = .commit (creation i)

theorem Store.CreatedBy.unique {s : Store} {p : Table} {i j : TxnId} (h : s.CreatedBy p i)
    (h' : s.CreatedBy p j) : i = j := by
  obtain ⟨o, ho, hi⟩ := h
  obtain ⟨o', ho', hj⟩ := h'
  obtain rfl := Option.some.inj (ho.symm.trans ho')
  have hcontent : Content.commit (creation i) = .commit (creation j) := hi.symm.trans hj
  simpa [creation] using hcontent

/-- Only the calls that create the table write its version 0. -/
def Founds (party : TxnId → TableParty) (p : Table) (i : TxnId) (c : Commit) : Prop :=
  (party i).Creates p ∧ c = creation i

section Create

variable {party : TxnId → TableParty} {p q : Table} {founds : TxnId → Commit → Prop} {i j : TxnId}
  {t : Txn} {s s' : Store}

theorem Store.CreatedBy.guar {m : Txn} {c : Call} {r : Response c} (h : s.CreatedBy p i)
    (hg : (founded p founds).guar j m c s r s') : s'.CreatedBy p i := by
  obtain ⟨o, ho, hc⟩ := h
  rcases hg with hsame | ⟨hnone, -⟩
  · exact ⟨o, hsame.trans ho, hc⟩
  · rw [hnone] at ho
    cases ho

theorem Store.CreatedBy.rely (h : s.CreatedBy p i)
    (hr : (founded p founds).rely (served true) j s s') : s'.CreatedBy p i := by
  induction hr with
  | refl => exact h
  | tail _ hstep ih =>
    obtain ⟨j, -, m, c, r, -, -, -, hg⟩ := hstep
    exact ih.guar hg

/-- A put of version 0 takes effect only if nothing is there. -/
theorem Founds.put {d : Choice} {r : WriteStatus × ETag} (hfounds : founds i (creation i))
    (hi : (founded p founds).inv s)
    (hd : answer d (.writeAtomic (.version p 0) (.commit (creation i))) (s.wait d.delay) = (r, s')) :
    (founded p founds).inv s' ∧
      (founded p founds).guar i t (.writeAtomic (.version p 0) (.commit (creation i))) s r s' ∧
      (r.1 = .ok → s'.CreatedBy p i) := by
  have hput : ∀ {s₁ : Store}, s₁ = (s.wait d.delay).put (.version p 0) (.commit (creation i)) →
      ∃ o, s₁.get (.version p 0) = some o ∧ o.content = .commit (creation i) := by
    rintro _ rfl
    exact ⟨_, Store.get_put_self .., rfl⟩
  have heffect : (s.wait d.delay).get (.version p 0) = none →
      s' = (s.wait d.delay).put (.version p 0) (.commit (creation i)) →
      (founded p founds).inv s' ∧
        (founded p founds).guar i t (.writeAtomic (.version p 0) (.commit (creation i))) s r s' := by
    intro hnone hs'
    obtain ⟨o, ho, hc⟩ := hput hs'
    refine ⟨fun o' ho' ↦ ?_, .inr ⟨hnone, o, creation i, ho, hc, hfounds⟩⟩
    obtain rfl := Option.some.inj (ho'.symm.trans ho)
    exact ⟨_, hc⟩
  have hkeep : s' = s.wait d.delay → (founded p founds).inv s' ∧
      (founded p founds).guar i t (.writeAtomic (.version p 0) (.commit (creation i))) s r s' := by
    rintro rfl
    exact ⟨hi, .inl rfl⟩
  obtain ⟨status, etag⟩ := r
  rcases answer_writeAtomic hd with ⟨-, -, hn, hs'⟩ | ⟨rfl, -, hs'⟩ | ⟨rfl, -, hs' | ⟨hn, hs'⟩⟩
  · exact ⟨(heffect hn hs').1, (heffect hn hs').2, fun _ ↦ hput hs'⟩
  · exact ⟨(hkeep hs').1, (hkeep hs').2, nofun⟩
  · exact ⟨(hkeep hs').1, (hkeep hs').2, nofun⟩
  · exact ⟨(heffect hn hs').1, (heffect hn hs').2, nofun⟩

/-- A call that returns `Ok` has created the table. -/
theorem created_writeVersion0 (hfounds : founds i (creation i)) (n : ℕ) (uncertain : Bool)
    (hi : (founded p founds).inv s) :
    Client.wp (served true) (founded p founds) i
      (Tx.writeVersion0 p (.commit (creation i)) n uncertain) t
      (fun r _ s' ↦ r = .ok → s'.CreatedBy p i) s := by
  induction n generalizing uncertain s with
  | zero => exact wp_pure fun _ _ _ ↦ nofun
  | succ n ih =>
    refine wp_bind hi (wp_perform fun s₁ _ hi₁ r s₂ hs ↦ ?_)
    obtain ⟨d, hd⟩ := served_answer hs
    obtain ⟨hi₂, hg, hok⟩ := Founds.put (t := t) hfounds hi₁ hd
    refine ⟨hi₂, hg, fun s₃ h₃ hi₃ ↦ ?_⟩
    obtain ⟨status, etag⟩ := r
    cases status with
    | ok => exact wp_pure fun s' hs' _ _ ↦ ((hok rfl).rely h₃).rely hs'
    | alreadyExists =>
      refine wp_bind hi₃ (wp_perform fun s₄ _ hi₄ r s₅ hs₅ ↦ ?_)
      obtain ⟨hi₅, hg₅⟩ := Spares.step (c := .read (.version p 0)) nofun hi₄ hs₅
      refine ⟨hi₅, hg₅, fun s₆ h₆ _ ↦ ?_⟩
      obtain ⟨d, hd⟩ := served_answer hs₅
      cases r with
      | none => exact wp_pure fun _ _ _ ↦ nofun
      | some o =>
        refine wp_pure fun s' hs' _ hr ↦ ?_
        split_ifs at hr with hown
        -- the object that was read is the own commit
        have ho : s₄.get (.version p 0) = some o := (Store.get_wait ..).symm.trans (answer_read hd)
        have hcreated : s₄.CreatedBy p i := ⟨o, ho, hown.2⟩
        exact ((hcreated.guar hg₅).rely h₆).rely hs'
    | preconditionFailed => exact ih true hi₃
    | error => exact ih true hi₃

theorem Spares.removeGlobalEntry (fuel : ℕ) :
    Spares p founds i (Tx.removeGlobalEntry fuel q) :=
  .bind (plain rfl) fun _ ↦ .ite (.bind (acquireGlobalLock fuel) fun _ ↦ .ite
    (.bind (updateGlobalEntry _) fun _ ↦ .bind releaseGlobalLock fun _ ↦ ret _) (ret _)) (ret _)

/-- Version 0 of another table. -/
theorem Spares.writeVersion0 (hq : q ≠ p) (commit : Content) (n : ℕ) (uncertain : Bool) :
    Spares p founds i (Tx.writeVersion0 q commit n uncertain) := by
  have htarget : some (Key.version q 0) ≠ some (.version p 0) := by simpa using hq
  induction n generalizing uncertain with
  | zero => exact ret _
  | succ n ih =>
    refine .bind (call htarget) fun r ↦ ?_
    split
    · exact ret _
    · refine .bind (plain rfl) fun o ↦ ?_
      cases o with
      | none => exact ret _
      | some o => exact ret _
    · exact ih _

/-- What the listing shows keeps a call from creating the table, or it goes on. -/
theorem wp_createTable {fuel : ℕ} {others : OtherObjects} {Q : TableResult → Txn → Store → Prop}
    (hi : (founded p founds).inv s) (ht : t.Above) (hQ : ∀ r t' s', r ≠ .ok → Q r t' s')
    (h : ∀ t' s', (founded p founds).inv s' → t'.Above → t'.transactionId = t.transactionId →
      Client.wp (served true) (founded p founds) i (Tx.createAt fuel q) t' Q s') :
    Client.wp (served true) (founded p founds) i (Tx.createTable fuel q others) t Q s := by
  refine wp_bind hi (wp_perform fun s₁ _ hi₁ r s₂ hs ↦ ?_)
  obtain ⟨hi₂, hg⟩ := Spares.step (c := .listObjects q) nofun hi₁ hs
  refine ⟨hi₂, hg, fun s₃ h₃ hi₃ ↦ ?_⟩
  cases r with
  | none => exact wp_pure fun s' _ _ ↦ hQ _ t s' nofun
  | some versions =>
    refine wp_ite (fun _ ↦ wp_pure fun s' _ _ ↦ hQ _ t s' nofun) fun _ ↦ ?_
    exact wp_ite (fun _ ↦ wp_pure fun s' _ _ ↦ hQ _ t s' nofun) fun _ ↦ h t s₃ hi₃ ht rfl

theorem created_createAt {fuel : ℕ} (hfounds : founds i (creation i)) (ht : t.Above)
    (hid : t.transactionId = i) (hi : (founded p founds).inv s) :
    Client.wp (served true) (founded p founds) i (Tx.createAt fuel p) t
      (fun r _ s' ↦ r = .ok → s'.CreatedBy p i) s := by
  refine wp_get_bind (wp_bind hi (wp_mono (Spares.removeGlobalEntry fuel t s hi ht)
    fun b t₁ s₁ hi₁ _ ↦ wp_ite (fun _ ↦ ?_) fun _ ↦ wp_pure fun _ _ _ ↦ nofun))
  rw [hid]
  exact created_writeVersion0 hfounds _ false hi₁

theorem created_createTable {fuel : ℕ} {others : OtherObjects}
    (hfounds : q = p → founds i (creation i)) (ht : t.Above) (hid : t.transactionId = i)
    (hi : (founded p founds).inv s) :
    Client.wp (served true) (founded p founds) i (Tx.createTable fuel q others) t
      (fun r _ s' ↦ q = p → r = .ok → s'.CreatedBy p i) s := by
  refine wp_createTable hi ht (fun r t' s' hr _ hok ↦ absurd hok hr) fun t' s' hi' ht' hid' ↦ ?_
  by_cases hq : q = p
  · subst hq
    exact wp_mono (created_createAt (hfounds rfl) ht' (hid'.trans hid) hi') fun _ _ _ _ h _ ↦ h
  · have hspares : Spares p founds i (Tx.createAt fuel q) :=
      .get_bind fun _ ↦ .bind (Spares.removeGlobalEntry fuel) fun _ ↦
        .ite (Spares.writeVersion0 hq _ _ _) (Spares.ret _)
    exact wp_mono (hspares t' s' hi' ht') fun _ _ _ _ _ h ↦ absurd h hq

/-! ### The system -/

/-- What a client that created the table knows. -/
def WonBy (party : TxnId → TableParty) (p : Table) (i : TxnId) (r : TableOutcome) (s : Store) :
    Prop :=
  (party i).Creates p → r.1 = .inl .ok → s.CreatedBy p i

/-- Every client keeps version 0 as its creator wrote it. -/
theorem TableSystem.founded_safe (fuel : ℕ) (party : TxnId → TableParty) (p : Table) (s : Store)
    (hs : (founded p (Founds party p)).inv s) :
    Safe (served true) (founded p (Founds party p)) (WonBy party p)
      (TableSystem.initial fuel party s) where
  shared := hs
  client i := by
    have habove : ∀ c : Config, Txn.Above { cfg := c, transactionId := i } := fun _ _ h ↦
      absurd h List.not_mem_nil
    unfold TableSystem.initial TableParty.program
    dsimp only
    cases hparty : party i with
    | transaction cfg path =>
      refine wp.bind hs (wp.mono (Spares.transaction fuel path _ s hs (habove cfg))
        fun r s' hi' _ s'' _ _ hcreates ↦ ?_)
      rw [hparty] at hcreates
      exact hcreates.elim
    | create cfg path others =>
      have hfounds : path = p → Founds party p i (creation i) := fun hpath ↦
        ⟨by rw [hparty]; exact hpath, rfl⟩
      refine wp.bind hs (wp.mono (created_createTable hfounds (habove cfg) rfl hs)
        fun r s' _ h s'' hr _ hcreates hok ↦ ?_)
      rw [hparty] at hcreates
      exact (h hcreates (Sum.inl.inj hok)).rely hr

/-- **At most one call returns `Ok`.** -/
theorem TableSystem.one_winner {fuel : ℕ} {party : TxnId → TableParty} {p : Table} {s : Store}
    (hs : ∀ o, s.get (.version p 0) = some o → ∃ c, o.content = .commit c) {w : TableSystem}
    (h : Reachable (served true) (TableSystem.initial fuel party s) w) {i j : TxnId} {t t' : Txn}
    (hi : (party i).Creates p) (hj : (party j).Creates p)
    (hwon : w.client i = .ret (.inl .ok, t)) (hwon' : w.client j = .ret (.inl .ok, t')) :
    i = j := by
  have hsafe := (TableSystem.founded_safe fuel party p s hs).reachable h
  exact ((hsafe.ret hwon) hi rfl).unique ((hsafe.ret hwon') hj rfl)

end Create

/-! ## What a creation may still do -/

theorem answer_listObjects {d : Choice} {q : Table} {vs : List ℕ} {s s' : Store}
    (h : answer d (.listObjects q) s = (some vs, s')) : s.versions q = vs := by
  have hvs : d.fault.ask none (some (s.versions q)) = some vs := (Prod.mk.inj h).1
  cases hf : d.fault with
  | none =>
    rw [hf] at hvs
    exact Option.some.inj hvs
  | failed | lost =>
    rw [hf] at hvs
    cases hvs

/-- The call writes the global log. -/
def Call.WritesLog (c : Call) : Prop := c.target = some .globalLog

/-- The call is about the global log or its lock. -/
def Call.onLog : Call → Bool
  | .check k | .read k | .write k _ | .writeAtomic k _ | .writeIfMatch k _ _ | .deleteFile k =>
    !k.isVersion
  | .localTimeMs => true
  | _ => false

/-- The client makes calls about the global log and its lock only. -/
abbrev OnLog {α : Type} (x : Tx α) : Prop := Client.Never (fun c ↦ c.onLog = false) x

namespace OnLog

open Client.Never

theorem call {c : Call} (hc : c.onLog = true) : OnLog (perform c) :=
  .perform fun h ↦ Bool.false_ne_true (h.symm.trans hc)

theorem readAttempts {k : Key} (hk : (!k.isVersion) = true) (n : ℕ) :
    OnLog (Tx.readAttempts k n) := by
  induction n with
  | zero => exact .pure _
  | succ n ih =>
    refine .bind (call hk) fun o ↦ ?_
    cases o with
    | none => exact ih
    | some o => exact .pure _

theorem deleteAttempts {k : Key} (hk : (!k.isVersion) = true) (n : ℕ) :
    OnLog (Tx.deleteAttempts k n) := by
  induction n with
  | zero => exact .pure _
  | succ n ih => exact .bind (call hk) fun _ ↦ .ite (.pure _) ih

theorem writeAttempts {k : Key} (hk : (!k.isVersion) = true) (c : Content) (n : ℕ) :
    OnLog (Tx.writeAttempts k c n) := by
  induction n with
  | zero => exact .pure _
  | succ n ih => exact .bind (call hk) fun _ ↦ .ite (.pure _) ih

theorem breakLock (observed : Token) : OnLog (Tx.breakLock observed) := by
  refine .bind (call rfl) fun o ↦ ?_
  split
  · exact .ite (.bind (call rfl) fun _ ↦ .pure _) (.pure _)
  · exact .pure _

theorem acquired (token : Token) : OnLog (Tx.acquired token) := .bind .modify fun _ ↦ .pure _

theorem acquireLoop (token : Token) (start : ℤ) (fuel : ℕ) (observed : Option Token) (since : ℤ) :
    OnLog (Tx.acquireLoop token start fuel observed since) := by
  induction fuel generalizing observed since with
  | zero => exact .diverge
  | succ fuel ih =>
    refine .get_bind fun t ↦ .get_bind fun t' ↦ .bind (call rfl) fun r ↦ ?_
    split
    · exact acquired token
    · refine .bind (call rfl) fun now ↦ .bind (call rfl) fun o ↦ ?_
      split
      · refine .ite (acquired token) (.ite (.ite (.pure _) (ih _ _)) (.ite ?_ ?_))
        · exact .bind (breakLock _) fun _ ↦ ih _ _
        · exact .ite (.pure _) (ih _ _)
      · exact .ite (.pure _) (ih _ _)

theorem acquireGlobalLock (fuel : ℕ) : OnLog (Tx.acquireGlobalLock fuel) :=
  .get_bind fun _ ↦ .set_bind (.bind (call rfl) fun _ ↦ acquireLoop _ _ fuel none _)

theorem releaseGlobalLock : OnLog Tx.releaseGlobalLock := by
  refine .get_bind fun t ↦ ?_
  split
  · exact .pure _
  · refine .bind (.bind (call rfl) fun o ↦ ?_) fun _ ↦ .modify
    split
    · exact .ite (.get_bind fun _ ↦ deleteAttempts rfl _) (.pure _)
    · exact .pure _

theorem globalEntries : OnLog Tx.globalEntries := by
  refine .bind (call rfl) fun b ↦ .ite (.bind (.get_bind fun _ ↦ readAttempts rfl _) fun o ↦ ?_)
    (.pure _)
  split
  · exact .pure _
  · exact .pure _
  · exact .pure _

theorem updateGlobalEntry (path : Table) (update : Option ℕ → Option ℕ) :
    OnLog (Tx.updateGlobalEntry path update) := by
  refine .bind globalEntries fun entries ↦ ?_
  cases entries with
  | none => exact .pure _
  | some entries => exact .ite (.pure _) (.get_bind fun _ ↦ writeAttempts rfl _ _)

theorem removeGlobalEntry (fuel : ℕ) (path : Table) : OnLog (Tx.removeGlobalEntry fuel path) :=
  .bind (call rfl) fun _ ↦ .ite (.bind (acquireGlobalLock fuel) fun _ ↦ .ite
    (.bind (updateGlobalEntry path _) fun _ ↦ .bind releaseGlobalLock fun _ ↦ .pure _) (.pure _))
    (.pure _)

end OnLog

/-- The attempts to write version 0 leave the global log alone. -/
theorem never_writeVersion0 (path : Table) (commit : Content) (n : ℕ) (uncertain : Bool) :
    Client.Never Call.WritesLog (Tx.writeVersion0 path commit n uncertain) := by
  induction n generalizing uncertain with
  | zero => exact .pure _
  | succ n ih =>
    refine .bind (.perform fun h ↦ nomatch Option.some.inj h) fun r ↦ ?_
    split
    · exact .pure _
    · refine .bind (.perform nofun) fun o ↦ ?_
      cases o with
      | none => exact .pure _
      | some o => exact .pure _
    · exact ih _

/-- What follows a call of a creation at `p`: the global log is not written anymore after version 0
was written, nor after a listing that shows a version. -/
def Settles {α : Type} (p : Table) :
    (c : Call) → (Response c → Program Txn Response α) → Prop
  | .listObjects q, k => q = p → ∀ r, r ≠ some [] → (k r).Never Call.WritesLog
  | c, k => c.target = some (.version p 0) → ∀ r, (k r).Never Call.WritesLog

namespace Settles

variable {α β : Type} {p : Table} {c : Call} {k : Response c → Program Txn Response α}

theorem of_never (h : ∀ r, (k r).Never Call.WritesLog) : Settles p c k := by
  cases c with
  | listObjects => exact fun _ r _ ↦ h r
  | _ => exact fun _ ↦ h

/-- Calls about the global log are neither listings nor puts of a version. -/
theorem of_onLog (hc : ¬c.onLog = false) : Settles p c k := by
  have hkey : ∀ {key : Key}, ¬(!key.isVersion) = false → some key ≠ some (.version p 0) := by
    rintro key hkey h
    exact hkey (by rw [Option.some.inj h, Key.isVersion, Bool.not_true])
  cases c with
  | write | writeAtomic | writeIfMatch | deleteFile => exact fun h ↦ absurd h (hkey hc)
  | listObjects | storeTime | schedule | nextOp => exact absurd rfl hc
  | check | read | localTimeMs => exact fun h ↦ by cases h

theorem bind_ret {g : α → β} (h : Settles p c k) :
    Settles p c fun r ↦ k r >>= fun a ↦ .ret (g a) := by
  cases c with
  | listObjects => exact fun hq r hr ↦ (h hq r hr).bind fun _ ↦ trivial
  | _ => exact fun hc r ↦ (h hc r).bind fun _ ↦ trivial

end Settles

theorem always_createAt (fuel : ℕ) (p : Table) (t : Txn) :
    (Tx.createAt fuel p t).Always (Settles p) := by
  have hwrite : Client.Never Call.WritesLog
      (Tx.writeVersion0 p (.commit (creation t.transactionId)) t.cfg.storageRetries false) :=
    never_writeVersion0 p _ _ _
  refine Program.Always.bind (p := Tx.removeGlobalEntry fuel p t) (fun _ _ ↦ Settles.of_onLog)
    (OnLog.removeGlobalEntry fuel p t) fun b ↦ ?_
  exact Program.Always.of_never (fun _ _ ↦ Settles.of_never)
    ((Client.Never.ite (p := b.1 = true) hwrite (.pure _)) b.2)

theorem always_createListed (fuel : ℕ) (p : Table) (others : OtherObjects) (versions : List ℕ)
    (t : Txn) : (Tx.createListed fuel p others versions t).Always (Settles p) := by
  unfold Tx.createListed
  split_ifs
  · trivial
  · trivial
  · exact always_createAt fuel p t

theorem always_createTable (fuel : ℕ) (p : Table) (others : OtherObjects) (t : Txn) :
    (Tx.createTable fuel p others t).Always (Settles p) := by
  refine ⟨fun _ r hr ↦ ?_, fun r ↦ ?_⟩
  · cases r with
    | none => trivial
    | some versions =>
      have hexists : Tx.createListed fuel p others versions = pure .alreadyExists :=
        if_pos (.inl fun h ↦ hr (congrArg some h))
      change (Tx.createListed fuel p others versions t).Never Call.WritesLog
      rw [hexists]
      trivial
  · cases r with
    | none => trivial
    | some versions => exact always_createListed fuel p others versions t

theorem TableParty.always {fuel : ℕ} {party : TableParty} {p : Table} (h : party.Creates p)
    (i : TxnId) : (party.program fuel i).Always (Settles p) := by
  cases party with
  | transaction cfg path => exact h.elim
  | create cfg path others =>
    subst h
    exact Program.Always.bind_ret (fun _ _ ↦ Settles.bind_ret) (always_createTable fuel path others _)

/-! ## Runs in which a creation is undisturbed -/

/-- The client is about to list the location. -/
def AtListing {α : Type} (p : Table) : Program Txn Response α → Prop
  | .call _ (.listObjects q) _ => q = p
  | _ => False

/-- The client has found the location empty and may still write the global log. -/
def MayRemove {α : Type} (p : Table) (x : Program Txn Response α) : Prop :=
  ¬AtListing p x ∧ ¬x.Never Call.WritesLog

/-- Version 0 of the table is not created while another call that has found the location empty may
still write the global log. -/
def Undisturbed (party : TxnId → TableParty) (p : Table) (i : TxnId) (w w' : TableSystem) : Prop :=
  w.shared.get (.version p 0) = none → w'.shared.get (.version p 0) ≠ none →
    ∀ j, j ≠ i → (party j).Creates p → ¬MayRemove p (w.client j)

namespace TableSystem

variable {party : TxnId → TableParty} {p : Table} {i : TxnId} {w w' : TableSystem}

/-- Once version 0 exists, no creation may still write the global log. -/
def Settled (party : TxnId → TableParty) (p : Table) (w : TableSystem) : Prop :=
  w.shared.get (.version p 0) ≠ none → ∀ j, (party j).Creates p → ¬MayRemove p (w.client j)

/-- A client that takes a step to a state with version 0, if it may not write the global log while
version 0 exists. -/
theorem never_of_call {m : Txn} {c : Call} {k : Response c → Program Txn Response TableOutcome}
    {r : Response c} {d : Choice} {s s' : Store} (hset : Settles p c k)
    (hd : answer d c s = (r, s')) (hs' : s'.get (.version p 0) ≠ none)
    (h : s.get (.version p 0) ≠ none → ¬MayRemove p (.call m c k)) :
    (k r).Never Call.WritesLog := by
  by_cases hs : s.get (.version p 0) = none
  · -- the client has created the table itself
    have htarget : c.target = some (.version p 0) :=
      by_contra fun hne ↦ hs' ((answer_get hd hne).trans hs)
    cases c with
    | listObjects => cases htarget
    | _ => exact hset htarget r
  · by_cases hlist : AtListing p (.call m c k)
    · cases c with
      | listObjects q =>
        obtain rfl : q = p := hlist
        refine hset rfl r ?_
        rintro rfl
        have hmem : 0 ∈ s.versions q := Store.mem_versions.mpr (Option.isSome_iff_ne_none.mpr hs)
        rw [answer_listObjects hd] at hmem
        exact List.not_mem_nil hmem
      | _ => exact hlist.elim
    · exact (not_not.mp fun hn ↦ h hs ⟨hlist, hn⟩).2 r

theorem Settled.step (h : w.Settled party p)
    (hall : ∀ j, (party j).Creates p → (w.client j).Always (Settles p))
    (hs : StepOf (served true) i w w') (hc : Undisturbed party p i w w') : w'.Settled party p := by
  intro hw' j hj ⟨hlist, hmay⟩
  by_cases hij : j = i
  · subst hij
    obtain ⟨m, c, k, r, s', hi, hsem, rfl⟩ := hs
    obtain ⟨d, hd⟩ := served_answer hsem
    have hset := hall j hj
    rw [hi] at hset
    refine hmay ?_
    simp only [Function.update_self]
    exact never_of_call (m := m) hset.1 hd hw' fun hw ↦ hi ▸ h hw j hj
  · rw [hs.client_of_ne hij] at hlist hmay
    by_cases hw : w.shared.get (.version p 0) = none
    · exact hc hw hw' j hij hj ⟨hlist, hmay⟩
    · exact h hw j hj ⟨hlist, hmay⟩

/-- A creation leaves the global log alone once version 0 exists. -/
theorem Settled.globalLog_eq (h : w.Settled party p) (hs : StepOf (served true) i w w')
    (hi : (party i).Creates p) (hw : w.shared.get (.version p 0) ≠ none) :
    w'.shared.get .globalLog = w.shared.get .globalLog := by
  obtain ⟨m, c, k, r, s', hclient, hsem, rfl⟩ := hs
  obtain ⟨d, hd⟩ := served_answer hsem
  have hmay := h hw i hi
  rw [hclient] at hmay
  have hc : c.target ≠ some .globalLog := by
    by_cases hlist : AtListing p (.call m c k)
    · cases c with
      | listObjects => exact nofun
      | _ => exact hlist.elim
    · exact (not_not.mp fun hn ↦ hmay ⟨hlist, hn⟩).1
  exact (answer_get hd hc).trans (Store.get_wait ..)

/-- Every creation begins with its listing. -/
theorem settled_initial (fuel : ℕ) (party : TxnId → TableParty) (p : Table) (s : Store) :
    (initial fuel party s).Settled party p := by
  rintro _ j hj ⟨hlist, -⟩
  refine hlist ?_
  unfold initial TableParty.program
  dsimp only
  cases hparty : party j with
  | transaction => rw [hparty] at hj; exact hj.elim
  | create cfg path others =>
    rw [hparty] at hj
    exact hj

theorem settled {fuel : ℕ} {s : Store}
    (h : ReachableUnder (served true) (Undisturbed party p) (initial fuel party s) w) :
    w.Settled party p :=
  h.invariant (settled_initial fuel party p s) fun _ _ _ hr hset hs hc ↦
    hset.step (fun j hj ↦ hr.always (TableParty.always hj j)) hs hc

/-- **Creating a table is safe.** In every run at most one call returns `Ok`, and in the runs in
which creations are undisturbed no call changes the global log after version 0 was created.
Version 0, if the run begins with one, is a commit. -/
theorem create_table_safe {fuel : ℕ} {party : TxnId → TableParty} {p : Table} {s : Store}
    (hs : ∀ o, s.get (.version p 0) = some o → ∃ c, o.content = .commit c) :
    (∀ w, Reachable (served true) (initial fuel party s) w → ∀ i j t t',
      (party i).Creates p → (party j).Creates p →
      w.client i = .ret (.inl .ok, t) → w.client j = .ret (.inl .ok, t') → i = j) ∧
    ∀ w, ReachableUnder (served true) (Undisturbed party p) (initial fuel party s) w →
      ∀ i w', StepOf (served true) i w w' → (party i).Creates p →
      w.shared.get (.version p 0) ≠ none →
      w'.shared.get .globalLog = w.shared.get .globalLog :=
  ⟨fun _ h _ _ _ _ hi hj hwon hwon' ↦ one_winner hs h hi hj hwon hwon',
    fun _ h _ _ hstep hi hw ↦ (settled h).globalLog_eq hstep hi hw⟩

end TableSystem

/-! ### Two creations and a transaction -/

/-- The clients 0 and 1 create table 0, the others are level-2 transactions on it. -/
def creators : TxnId → TableParty
  | 0 | 1 => .create { levels := {} } 0 .none
  | _ => .transaction { levels := { l2 := true } } 0

/-- What client `i` returned. -/
def TableSystem.outcome (w : TableSystem) (i : TxnId) : Option (TableResult ⊕ Outcome) :=
  match w.client i with
  | .ret r => some r.1
  | _ => none

/-- Client 1 creates the table, and client 2 commits to it. -/
def createAndCommit : List (TxnId × Choice) :=
  steps 1 3 ++ steps 2 4 ++ asks 2 [.addRows 0 [] none, .commit false] ++ steps 2 7

/-- Version 0 is created by client 1 while client 0 is about to list. -/
def beforeListing (i : TxnId) (w w' : TableSystem) : Bool :=
  (w.shared.get (.version 0 0)).isSome || (w'.shared.get (.version 0 0)).isNone ||
    (i == 1 && match w.client 0 with
      | .call _ (.listObjects q) _ => q == 0
      | _ => false)

theorem beforeListing_sound (i : TxnId) (w w' : TableSystem) (h : beforeListing i w w' = true) :
    Undisturbed creators 0 i w w' := by
  rintro hw hw' j hj hcreates ⟨hlist, -⟩
  simp only [beforeListing, hw, Option.isSome_none, Bool.false_or, Bool.or_eq_true,
    Option.isNone_iff_eq_none, hw', false_or, Bool.and_eq_true, beq_iff_eq] at h
  obtain ⟨rfl, hclient⟩ := h
  obtain rfl : j = 0 := by
    match j with
    | 0 => rfl
    | 1 => exact absurd rfl hj
    | _ + 2 => exact hcreates.elim
  refine hlist ?_
  unfold AtListing
  split at hclient
  · next q _ hq =>
    rw [hq]
    simpa using hclient
  · cases hclient

/-- Client 1 has created the table and client 2 has committed to it before client 0 lists. -/
theorem create_table_safe_beforeListing : ∃ w : TableSystem,
    ReachableUnder (served true) (Undisturbed creators 0)
      (TableSystem.initial 20 creators (.fresh [])) w ∧
    w.outcome 1 = some (.inl .ok) ∧
    (w.shared.get .globalLog).map (·.content) = some (.globalLog [(0, 1)]) ∧
    ∀ i w', StepOf (served true) i w w' → (creators i).Creates 0 →
      w'.shared.get .globalLog = w.shared.get .globalLog := by
  have hrun : (((TableSystem.initial 20 creators (.fresh [])).runUnder (serve true)
      (fun _ _ _ _ _ ↦ true) beforeListing createAndCommit).map fun w : TableSystem ↦
        (w.outcome 1, (w.shared.get .globalLog).map (·.content),
          (w.shared.get (.version 0 0)).isSome)) =
      some (some (.inl .ok), some (.globalLog [(0, 1)]), true) := by
    decide +kernel
  obtain ⟨w, hw, hv⟩ := Option.map_eq_some_iff.mp hrun
  obtain ⟨hok, hlog, hversion⟩ : _ ∧ _ ∧ _ := by simpa only [Prod.mk.injEq] using hv
  have hreach := World.runUnder_sound beforeListing_sound hw
  have hnone : ∀ o, (Store.fresh []).get (.version 0 0) = some o →
      ∃ c, o.content = .commit c := fun o ho ↦ nomatch ho
  exact ⟨w, hreach, hok, hlog, fun i w' hs hi ↦
    (TableSystem.create_table_safe hnone).2 w hreach i w' hs hi
      (Option.isSome_iff_ne_none.mp hversion)⟩

/-- Client 1 creates the table and client 2 commits to it after client 0 has found the location
empty: client 0 removes the entry of the new table and returns `AlreadyExists`. -/
theorem entry_of_new_table_removed : ∃ w w' : TableSystem,
    (TableSystem.initial 20 creators (.fresh [])).run (serve true) (fun _ _ _ _ _ ↦ true)
      (steps 0 1 ++ createAndCommit) = some w ∧
    w.outcome 1 = some (.inl .ok) ∧
    (w.shared.get .globalLog).map (·.content) = some (.globalLog [(0, 1)]) ∧
    w.run (serve true) (fun _ _ _ _ _ ↦ true) (steps 0 10) = some w' ∧
    w'.outcome 0 = some (.inl .alreadyExists) ∧
    (w'.shared.get .globalLog).map (·.content) = some (.globalLog []) := by
  have hrun : (((TableSystem.initial 20 creators (.fresh [])).run (serve true)
      (fun _ _ _ _ _ ↦ true) (steps 0 1 ++ createAndCommit)).bind fun w : TableSystem ↦
        (w.run (serve true) (fun _ _ _ _ _ ↦ true) (steps 0 10)).map fun w' : TableSystem ↦
          (w.outcome 1, (w.shared.get .globalLog).map (·.content), w'.outcome 0,
            (w'.shared.get .globalLog).map (·.content))) =
      some (some (.inl .ok), some (.globalLog [(0, 1)]), some (.inl .alreadyExists),
        some (.globalLog [])) := by
    decide +kernel
  obtain ⟨w, hw, hmap⟩ := Option.bind_eq_some_iff.mp hrun
  obtain ⟨w', hw', hv⟩ := Option.map_eq_some_iff.mp hmap
  obtain ⟨hok, hlog, hexists, hlog'⟩ : _ ∧ _ ∧ _ ∧ _ := by simpa only [Prod.mk.injEq] using hv
  exact ⟨w, w', hw, hok, hlog, hw', hexists, hlog'⟩

end LakeVilla

import LakeVilla.Protocol.Commit
import LakeVilla.Protocol.Open
import LakeVilla.Transaction.System

/-!
# Systems of transactions

Every interleaving of transactions and of writers of other engines keeps a protocol that allows
quiet steps, the commits of the transactions (`Committing`) and the claims of the other writers
(`Admitting`).
-/

namespace LakeVilla

open Concurrency

/-- How client `i` ended. -/
def Outcome.Ended (sem : Semantics TxnId Txn Response Store) (i : TxnId) (c : Config)
    (K : Txn → Store → Prop) : Outcome → Txn → Store → Prop
  | .committed false result, t, s => Concluded sem i c K result t s
  | _, _, s => Absent sem i s

/-- A writer of another engine commits version `v` of table `p`. -/
structure Claims (p : Table) (v : ℕ) (cm : Commit) (s s' : Store) : Prop where
  put : s' = s.put (.version p v) (.commit cm)
  absent : s.get (.version p v) = none
  unsigned : cm.txnId = none

/-- The protocol allows the commits of other engines' writers. -/
def Admitting (sem : Semantics TxnId Txn Response Store) (P : Protocol TxnId Txn Response Store)
    (i : TxnId) : Prop :=
  ∀ t p v cm s₀ r s' ms, P.inv s₀ → sem i t (.writeAtomic (.version p v) (.commit cm)) s₀ r s' →
    Claims p v cm (s₀.wait ms) s' → s'.WF → Fenced i (s₀.wait ms) s' →
    P.inv s' ∧ P.guar i t (.writeAtomic (.version p v) (.commit cm)) s₀ r s'

section Operations

variable {sem : Semantics TxnId Txn Response Store} {P : Protocol TxnId Txn Response Store}
variable {i : TxnId} {c : Config} {L : Bool → Txn → Store → Prop}
variable {t : Txn} {s : Store}

theorem Loading.operated_idle (hL : Operable P i L) (hg : Good sem P i c L false t s)
    (hidle : t.Idle) (op : Op) :
    Good sem P i c L false (t.operate op) s ∧ (t.operate op).Idle := by
  have hop := t.operate_operated op
  refine ⟨hg.operated hop (.inr fun tbl htbl ↦ (hidle tbl htbl).2)
    (fun _ tbl htbl ↦ (hidle tbl htbl).1) fun hr htr hn hu ↦ ?_, hop.idle hidle⟩
  exact hL.operate (hg.locally hr htr hn hu) hidle hg.sound (hg.tracked hr hu)

end Operations

namespace Managed

variable {sem : Semantics TxnId Txn Response Store} {P : Protocol TxnId Txn Response Store}
variable {i : TxnId} {c : Config} {L : Bool → Txn → Store → Prop}
variable {H : VersionMaps → Txn → Store → Prop} {K : Txn → Store → Prop}
variable {t : Txn} {s : Store} {p : Table}

/-- The operations of a transaction. -/
theorem operations (D : Managed sem P i c H K) (hL : Operable P i L) (C : Committing sem P i c L)
    (hN : Prompting sem P i fun t s ↦ t.Idle ∧ Good sem P i c L false t s) (fuel : ℕ)
    (hg : Good sem P i c L false t s) (hidle : t.Idle) (hi : P.inv s) :
    Client.wp sem P i (Tx.operations fuel) t (Outcome.Ended sem i c K) s := by
  have D' := D.toDisciplined
  have hL' := hL.toLocal
  induction fuel generalizing t s with
  | zero => exact Client.wp_diverge
  | succ fuel ih =>
    unfold Tx.operations
    refine Client.wp_bind hi
      (D'.prompt hN (fun _ h₁ ↦ ⟨hidle, hg.mono hL' h₁⟩) fun op s₂ h₂ hi₂ ↦ ?_)
    have hg₂ := hg.mono hL' h₂
    have hlocal : ∀ op, Client.wp sem P i (do
        modify fun t ↦ t.operate op
        Tx.operations fuel : Tx Outcome) t (Outcome.Ended sem i c K) s₂ := fun op ↦
      have ⟨hg', hidle'⟩ := Loading.operated_idle hL hg₂ hidle op
      Client.wp_modify_bind (ih hg' hidle' hi₂)
    cases op with
    | openTable path =>
      refine Client.wp_bind hi₂ (D'.openNewTable hL' fuel hg₂ hidle hi₂ fun r t₁ s₃ h₃ hi₃ hr ↦ ?_)
      cases r with
      | true => exact ih (hr rfl).2 (hr rfl).1 hi₃
      | false =>
        exact Client.wp_pure fun s₄ h₄ _ ↦ hg₂.absent.mono (h₃.trans (D'.rely h₄))
    | commit readOnly =>
      refine Client.wp_bind hi₂ (Client.wp_mono (D.commit hL C fuel hg₂ hidle hi₂ readOnly)
        fun r t₁ s₃ _ hr ↦ Client.wp_pure fun s₄ h₄ hi₄ ↦ ?_)
      cases readOnly with
      | true =>
        have hr : Absent sem i s₃ := by simpa using hr
        exact hr.mono (D'.rely h₄)
      | false =>
        have hr : Concluded sem i c K r t₁ s₃ := by simpa using hr
        cases r with
        | true => exact ⟨hr.1.mono (D'.rely h₄).later, D.kept.rely hr.2 h₄ hi₄⟩
        | false => exact Absent.mono hr (D'.rely h₄)
    | abort => exact D'.abandon hg₂.sound hg₂.absent hi₂ fun _ _ _ ha ↦ ha
    | readTable i => exact hlocal _
    | readFile i key => exact hlocal _
    | addRows i rows prev => exact hlocal _
    | addPath i file overwrite prev listed => exact hlocal _
    | removePath i file prev => exact hlocal _
    | removeKey i key prev => exact hlocal _
    | registerValues values => exact hlocal _
    | registerUpdate values op impl => exact hlocal _

theorem transaction (D : Managed sem P i c H K) (hL : Operable P i L) (C : Committing sem P i c L)
    (hN : Prompting sem P i fun t s ↦ t.Idle ∧ Good sem P i c L false t s) (fuel : ℕ)
    (hg : Good sem P i c L false t s) (hidle : t.Idle) (hi : P.inv s) :
    Client.wp sem P i (Tx.transaction fuel p) t (Outcome.Ended sem i c K) s := by
  have D' := D.toDisciplined
  refine Client.wp_bind hi (D'.beginTransaction hL.toLocal fuel hg hidle hi
    fun r t₁ s₁ h₁ hi₁ hr ↦ ?_)
  cases r with
  | true => exact D.operations hL C hN fuel (hr rfl).2 (hr rfl).1 hi₁
  | false => exact Client.wp_pure fun s₂ h₂ _ ↦ hg.absent.mono (h₁.trans (D'.rely h₂))

end Managed

/-! ## Writers of other engines -/

namespace Disciplined

variable {sem : Semantics TxnId Txn Response Store} {P : Protocol TxnId Txn Response Store}
variable {i : TxnId} {t : Txn} {s : Store} {p : Table}

theorem foreignOperations (D : Disciplined sem P) (hN : Prompting sem P i fun _ _ ↦ True)
    (fuel : ℕ) (hi : P.inv s)
    {Q : Bool → Txn → Store → Prop}
    (h : ∀ r t' s', QuietLater i s s' → P.inv s' →
      t'.tables.map (·.basePath) = t.tables.map (·.basePath) → Q r t' s') :
    Client.wp sem P i (Tx.foreignOperations fuel) t Q s := by
  induction fuel generalizing t s with
  | zero => exact Client.wp_diverge
  | succ fuel ih =>
    unfold Tx.foreignOperations
    refine Client.wp_bind hi (D.prompt hN (fun _ _ ↦ trivial) fun op s₂ h₁₂ hi₂ ↦ ?_)
    have hret : ∀ r : Bool, Client.wp sem P i (pure r : Tx Bool) t Q s₂ := fun r ↦
      Client.wp_pure fun s₃ h₃ hi₃ ↦ h r t s₃ (h₁₂.trans (D.rely h₃)) hi₃ rfl
    have hlocal : ∀ op, Client.wp sem P i (do
        modify fun t ↦ t.operate op
        Tx.foreignOperations fuel : Tx Bool) t Q s₂ := fun op ↦
      Client.wp_modify_bind (ih hi₂ fun r t' s' hs' hi' hp ↦
        h r t' s' (h₁₂.trans hs') hi' (hp.trans (t.operate_operated op).paths))
    cases op with
    | openTable path => exact hret _
    | commit readOnly => exact hret _
    | abort => exact hret _
    | readTable i => exact hlocal _
    | readFile i key => exact hlocal _
    | addRows i rows prev => exact hlocal _
    | addPath i file overwrite prev listed => exact hlocal _
    | removePath i file prev => exact hlocal _
    | removeKey i key prev => exact hlocal _
    | registerValues values => exact hlocal _
    | registerUpdate values op impl => exact hlocal _

theorem foreignWriter (D : Disciplined sem P) (hA : Admitting sem P i)
    (hN : Prompting sem P i fun _ _ ↦ True) (fuel : ℕ) (hi : P.inv s) :
    Client.wp sem P i (Tx.foreignWriter fuel p) t (fun _ _ _ ↦ True) s := by
  have hret : ∀ (o : Outcome) t s, Client.wp sem P i (pure o : Tx Outcome) t (fun _ _ _ ↦ True) s :=
    fun _ _ _ ↦ Client.wp_pure fun _ _ _ ↦ trivial
  refine Client.wp_bind hi (D.ask (fun _ _ ↦ rfl) fun r s₁ s₂ h₁ hi₁ ha h₂ hi₂ ↦ ?_)
  cases r with
  | none => exact hret _ _ _
  | some versions =>
    obtain rfl := ha.listObjects
    dsimp only
    cases hmax : (s₁.versions p).max? with
    | none => exact hret _ _ _
    | some highest =>
    have hex : s₁.Exists p highest := by
      have := List.max?_mem hmax
      exact Store.mem_versions.mp this
    refine Client.wp_bind hi₂ (D.parseAll (p := p) _ hi₂ .empty
      (fun _ _ _ _ _ _ _ _ ↦ hret _ _ _) fun dl _ t₁ s₃ h₃ hi₃ _ _ _ _ _ _ _ _ ↦ ?_)
    refine Client.wp_modify_bind (Client.wp_bind hi₃ (D.foreignOperations hN fuel hi₃
      fun r t₂ s₄ h₄ hi₄ _ ↦ Client.wp_ite (fun _ ↦ Client.wp_get_bind ?_) fun _ ↦ hret _ _ _))
    split
    · next tbl _ _ =>
      refine Client.wp_bind hi₄ (Client.wp_perform fun s₅ h₅ hi₅ r s₆ hs ↦ ?_)
      obtain ⟨d, hd⟩ := D.served hs
      have hex₅ : (s₅.wait d.delay).Exists p (highest + 1 - 1) :=
        (h₂.trans (h₃.trans (h₄.trans ((D.rely h₅).trans
          (Disciplined.quietLater_wait i s₅ d.delay))))).later.exists_mono hex
      have hput : (s₅.wait d.delay).get (.version p (highest + 1)) = none →
          s₆ = (s₅.wait d.delay).put (.version p (highest + 1))
            (.commit { txnId := none, lakeVilla := false, actions := tbl.actions }) →
          P.inv s₆ ∧ P.guar i t₂ _ s₅ r s₆ := by
        intro hn hput
        have hmove : Moves i (((s₅.wait d.delay).get (.version p (highest + 1))).map (·.content))
            (.commit { txnId := none, lakeVilla := false, actions := tbl.actions }) := by
          rw [hn]
          exact .claim _ (.inr rfl)
        refine hA t₂ p (highest + 1) _ s₅ r s₆ d.delay hi₅ hs ⟨hput, hn, rfl⟩ ?_ ?_
        · rw [hput]
          exact ((D.wf hi₅).wait _).put hmove hex₅
        · rw [hput]
          exact .put hmove
      have hkeep : s₆ = s₅.wait d.delay → P.inv s₆ ∧ P.guar i t₂ _ s₅ r s₆ := by
        rintro rfl
        exact D.quiet_wait hi₅ hs
      have hinv : P.inv s₆ ∧ P.guar i t₂ _ s₅ r s₆ := by
        obtain ⟨status, etag⟩ := r
        rcases answer_writeAtomic hd with ⟨-, -, hn, h⟩ | ⟨-, -, h⟩ | ⟨-, -, h | ⟨hn, h⟩⟩
        · exact hput hn h
        · exact hkeep h
        · exact hkeep h
        · exact hput hn h
      exact ⟨hinv.1, hinv.2, fun s₇ _ _ ↦ hret _ _ _⟩
    · exact hret _ _ _

end Disciplined

/-! ## The initial state -/

/-- The store holds no commit of client `i` with actions. -/
def Store.Unused (s : Store) (i : TxnId) : Prop := ∀ p v as, as ≠ [] → ¬ s.Holds i p v as

/-- The manager of client `i` before its transaction. -/
def Config.manager (c : Config) (i : TxnId) : Txn := { cfg := c, transactionId := i }

theorem Config.manager_good {sem : Semantics TxnId Txn Response Store}
    {P : Protocol TxnId Txn Response Store} {i : TxnId} {c : Config} {L : Bool → Txn → Store → Prop}
    {s : Store} (hL : L false (c.manager i) s) (hs : s.Unused i) :
    Good sem P i c L false (c.manager i) s where
  sound := ⟨rfl, by simp [manager], by simp [manager], by simp [manager]⟩
  cfg := rfl
  recalled _ := ⟨by simp [manager], by simp [manager], by simp, by simp [manager]⟩
  tracks _ _ j tbl hj := by simp [manager] at hj
  locally _ _ _ _ := hL
  opened _ _ := by simp [manager]
  owns := ⟨fun _ _ p v as ha hv ↦ absurd hv (hs p v as ha), by simp [manager]⟩
  uncommitted _ := by simp [manager]

/-- Nothing has to be known of the operations. -/
theorem Operable.trivial (P : Protocol TxnId Txn Response Store) (i : TxnId) :
    Operable P i fun _ _ _ ↦ True := by
  constructor
  · constructor <;> intros <;> trivial
  all_goals intros; trivial

/-- How the clients of a system ended. -/
def Party.Ended (sem : Semantics TxnId Txn Response Store) (K : TxnId → Txn → Store → Prop)
    (party : TxnId → Party) (i : TxnId) (r : Result) (s : Store) : Prop :=
  match party i with
  | .lakeVilla c _ => r.1.Ended sem i c (K i) r.2 s
  | .foreign _ => True

/-- **Systems are safe.** Clients that are verified one by one keep the protocol together. -/
theorem Managed.system {sem : Semantics TxnId Txn Response Store}
    {P : Protocol TxnId Txn Response Store} {L : TxnId → Bool → Txn → Store → Prop}
    {H : TxnId → VersionMaps → Txn → Store → Prop} {K : TxnId → Txn → Store → Prop}
    (D : Disciplined sem P) {fuel : ℕ} {party : TxnId → Party} {s : Store}
    (hL : ∀ i c p, party i = .lakeVilla c p → Managed sem P i c (H i) (K i) ∧ Operable P i (L i) ∧
      Committing sem P i c (L i) ∧ L i false (c.manager i) s ∧ s.Unused i)
    (hA : ∀ i p, party i = .foreign p → Admitting sem P i)
    (hN : ∀ i, Prompting sem P i fun t s ↦
      ∀ c p, party i = .lakeVilla c p → t.Idle ∧ Good sem P i c (L i) false t s) (hi : P.inv s) :
    Safe sem P (Party.Ended sem K party) (System.initial fuel party s) where
  shared := hi
  client i := by
    cases hp : party i with
    | lakeVilla c p =>
      obtain ⟨hM, hO, hC, h₀, hs⟩ := hL i c p hp
      have hprompt : Prompting sem P i fun t s ↦ t.Idle ∧ Good sem P i c (L i) false t s :=
        fun t s r ms hi hsem hK ↦ hN i t s r ms hi hsem fun c' p' hp' ↦ by
          obtain ⟨rfl, -⟩ := Party.lakeVilla.inj (hp.symm.trans hp')
          exact hK
      have := hM.transaction (p := p) hO hC hprompt fuel (Config.manager_good h₀ hs)
        (by simp [Txn.Idle, Config.manager]) hi
      simp only [System.initial, hp, Party.program]
      refine Concurrency.wp.mono this fun r s' _ h ↦ ?_
      simpa only [Party.Ended, hp] using h
    | foreign p =>
      have hprompt : Prompting sem P i fun _ _ ↦ True :=
        fun t s r ms hi hsem _ ↦ hN i t s r ms hi hsem fun c' p' hp' ↦ by
          rw [hp] at hp'
          cases hp'
      have := D.foreignWriter (p := p)
        (t := { cfg := { levels := {} }, transactionId := i }) (hA i p hp) hprompt fuel hi
      simp only [System.initial, hp, Party.program]
      refine Concurrency.wp.mono this fun r s' _ _ ↦ ?_
      simp only [Party.Ended, hp]

theorem Steady.system {sem : Semantics TxnId Txn Response Store}
    {P : Protocol TxnId Txn Response Store} {L : TxnId → Bool → Txn → Store → Prop}
    (D : Steady sem P) {fuel : ℕ} {party : TxnId → Party} {s : Store}
    (hL : ∀ i c p, party i = .lakeVilla c p → Operable P i (L i) ∧ Committing sem P i c (L i) ∧
      L i false (c.manager i) s ∧ s.Unused i)
    (hA : ∀ i p, party i = .foreign p → Admitting sem P i)
    (hN : ∀ i, Prompting sem P i fun t s ↦
      ∀ c p, party i = .lakeVilla c p → t.Idle ∧ Good sem P i c (L i) false t s) (hi : P.inv s) :
    Safe sem P (Party.Ended sem (fun _ _ _ ↦ True) party) (System.initial fuel party s) :=
  Managed.system D.toDisciplined (fun i c p hp ↦ ⟨D.managed i c, hL i c p hp⟩) hA hN hi

/-- The protocol does not care what is known when the user is asked. -/
structure Loose (sem : Semantics TxnId Txn Response Store)
    (P : Protocol TxnId Txn Response Store) : Prop extends Steady sem P where
  prompting : ∀ i K, Prompting sem P i K

theorem Loose.system {sem : Semantics TxnId Txn Response Store}
    {P : Protocol TxnId Txn Response Store} {L : TxnId → Bool → Txn → Store → Prop}
    (D : Loose sem P) {fuel : ℕ} {party : TxnId → Party} {s : Store}
    (hL : ∀ i c p, party i = .lakeVilla c p → Operable P i (L i) ∧ Committing sem P i c (L i) ∧
      L i false (c.manager i) s ∧ s.Unused i)
    (hA : ∀ i p, party i = .foreign p → Admitting sem P i) (hi : P.inv s) :
    Safe sem P (Party.Ended sem (fun _ _ _ ↦ True) party) (System.initial fuel party s) :=
  D.toSteady.system hL hA (fun i ↦ D.prompting i _) hi

end LakeVilla

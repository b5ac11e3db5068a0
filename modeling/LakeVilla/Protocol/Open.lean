import LakeVilla.Protocol.Load

/-!
# Transactions begin

`begin` and `openNewTable` keep what a transaction knows of its tables, whatever happens to a table
that cannot be opened. The version of such a table is released with an unconditional write: the
version holds the transaction's own marker or an empty commit, since no other transaction ever adds
actions to it.
-/

namespace LakeVilla

open Concurrency

namespace Disciplined

variable {sem : Semantics TxnId Txn Response Store} {P : Protocol TxnId Txn Response Store}
variable {i : TxnId} {c : Config} {L : Bool → Txn → Store → Prop} {b : Bool}
variable {ps : List (Table × ℕ)} {js : List ℕ} {t : Txn} {s : Store} {p : Table}

theorem reopenUntilFixed (D : Disciplined sem P) (hL : Local P i L) (fuel : ℕ)
    (hg : Loading sem P i c L b ps js t s) (hc : t.markers = true ∨ t.Idle) (hi : P.inv s)
    {Q : Unit → Txn → Store → Prop}
    (h : ∀ t' s', QuietLater i s s' → P.inv s' → t.Reloads t' →
      Loading sem P i c L b ps [] t' s' → Q () t' s') :
    Client.wp sem P i (Tx.reopenUntilFixed fuel) t Q s := by
  induction fuel generalizing t s js with
  | zero => exact Client.wp_diverge
  | succ fuel ih =>
    refine Client.wp_bind hi (D.abort false hg.sound hi fun t₁ s₁ h₁ hi₁ hab hsub ↦ ?_)
    have hg₁ := (hg.mono hL h₁).aborted hL hab (hsub rfl)
    have hc₁ : t₁.markers = true ∨ t₁.Idle :=
      hc.imp (fun hm ↦ hab.grows.markers ▸ hm) hab.reloads.idle
    refine Client.wp_bind hi₁ (D.reopenTables hL fuel hg₁ hc₁ hi₁
      fun r t₂ s₂ h₂ hi₂ hrel hsome hgood _ ↦ ?_)
    have hrel' := hab.reloads.trans hrel
    cases r with
    | true =>
      exact Client.wp_pure fun s₃ h₃ hi₃ ↦ h t₂ s₃ (h₁.trans (h₂.trans (D.rely h₃))) hi₃ hrel'
        ((hgood rfl).mono hL (D.rely h₃))
    | false =>
      obtain ⟨js', hg₂⟩ := hsome
      exact ih hg₂ (hc.imp (fun hm ↦ hrel'.markers ▸ hm) hrel'.idle) hi₂ fun t' s' hs' hi' hrel'' ↦
        h t' s' (h₁.trans (h₂.trans hs')) hi' (hrel'.trans hrel'')

/-- The version of a table that could not be loaded is released. -/
theorem releaseFailed (D : Disciplined sem P) {tbl : TableStats} (hid : t.transactionId = i)
    (hm : ∀ mk, tbl.marker = some mk → t.markers = true →
      mk.Open i s ∧ s.Exists mk.table (mk.version - 1)) (hi : P.inv s)
    {Q : Unit → Txn → Store → Prop} (h : ∀ s', QuietLater i s s' → P.inv s' → Q () t s') :
    Client.wp sem P i (Tx.releaseFailed tbl) t Q s := by
  refine Client.wp_get_bind ?_
  split
  · next mk hmk hmarker =>
    obtain ⟨hopen, hex⟩ := hm mk hmarker hmk
    refine Client.wp_bind hi (D.act rfl (fun d r s₁ s₂ h₁ hwf hr ↦ ?_)
      fun r s₁ s₂ s₃ h₁ _ h₂ _ h₃ _ ↦ ?_)
    · have hput : (s₁.put mk.path (headerCommit t)).WF ∧
          Fenced i s₁ (s₁.put mk.path (headerCommit t)) ∧
          Quiet s₁ (s₁.put mk.path (headerCommit t)) ∧
          Apart s₁ (s₁.put mk.path (headerCommit t)) := by
        have hmove : Moves i ((s₁.get (.version mk.table mk.version)).map (·.content))
            (headerCommit t) := by
          rcases hopen.mono h₁ with ⟨o, d, ho, -, hc⟩ | hl
          · rw [Marker.path] at ho
            rw [ho, Option.map_some, hc]
            exact .commit d _ (.inl (congrArg some hid))
          · obtain ⟨o, c, ho, hc, hc₀⟩ := Store.log_eq_some.mp hl
            rw [ho, Option.map_some, hc]
            exact .rewrite c _ hc₀ rfl
        exact ⟨hwf.put hmove (h₁.later.exists_mono hex), .put hmove,
          .put (.inr ⟨_, rfl, rfl⟩), .put⟩
      rcases answer_write hr with ⟨-, rfl⟩ | ⟨-, -, rfl | rfl⟩
      · exact hput
      · exact ⟨hwf, .refl _ _, .refl _, .refl _⟩
      · exact hput
    · exact Client.wp_pure fun s₄ h₄ hi₄ ↦ h s₄ (h₁.trans (h₂.trans (h₃.trans (D.rely h₄)))) hi₄
  · exact Client.wp_pure fun s₁ h₁ hi₁ ↦ h s₁ (D.rely h₁) hi₁

/-- Opening a table that is not in the transaction yet. -/
theorem openTableV2 (D : Disciplined sem P) (hL : Local P i L) (fuel : ℕ)
    (hg : Loading sem P i c L b ps [] t s) (hps : ps = [] ∨ ∃ v, ps = [(p, v)]) (hidle : t.Idle)
    (hi : P.inv s) {Q : Option TableStats → Txn → Store → Prop}
    (hnone : ∀ ps' t' s', QuietLater i s s' → P.inv s' → t.Reloads t' →
      (ps' = [] ∨ ∃ v, ps' = [(p, v)]) → Loading sem P i c L b ps' [] t' s' → Q none t' s')
    (h : ∀ tbl t' s', QuietLater i s s' → P.inv s' → t.Reloads t' → tbl.basePath = p →
      Pending P i t' s' tbl →
      Loading sem P i c L b [(tbl.basePath, tbl.markerVersion)] [] t' s' → Q (some tbl) t' s') :
    Client.wp sem P i (Tx.openTableV2 fuel p) t Q s := by
  unfold Tx.openTableV2
  refine Client.wp_bind hi (D.loadTable fuel hg.sound.id (by simp) hg.sound.localLog hi ?_ ?_)
  · intro l s₁ s₂ h₁ hl _ h₂ hi₂
    refine Client.wp_bind hi₂ (D.releaseFailed ?_ ?_ hi₂ fun s₃ h₃ hi₃ ↦ ?_)
    · exact hg.sound.id
    · intro mk hmk
      cases hmk
    refine Client.wp_pure fun s₄ h₄ hi₄ ↦ ?_
    have h₂₄ := h₃.trans (D.rely h₄)
    refine hnone ps _ s₄ (h₁.trans (h₂.trans h₂₄)) hi₄ (.of_tables (Txn.Aside.grows rfl) rfl) hps ?_
    exact (hg.mono hL (h₁.trans (h₂.trans h₂₄))).aside hL rfl (hl.mono h₂₄.later)
  · intro t₁ tbl ok dep h' mk s₁ h₁ hi₁ hl
    have hg₁ := hg.opening hL hps h₁ (D.wf hi₁) hl
    have hrel : t.Reloads t₁ :=
      have ⟨_, _, hpar⟩ := hl.parsed
      .of_tables hpar.grows hpar.tables
    cases ok with
    | false =>
      refine Client.wp_bind hi₁ (D.releaseFailed hg₁.sound.id (fun mk' hmk' hm ↦ ?_) hi₁
        fun s₂ h₂ hi₂ ↦ Client.wp_pure fun s₃ h₃ hi₃ ↦ ?_)
      · rw [hl.eq] at hmk'
        obtain rfl : mk = mk' := Option.some.inj hmk'
        rw [hl.carried.markers] at hm
        obtain ⟨-, ho, -⟩ := hl.marker.placed hm
        refine ⟨ho, ?_⟩
        rw [hl.marker.table, hl.marker.version]
        exact hl.marker.before
      · exact hnone _ t₁ s₃ (h₁.trans (h₂.trans (D.rely h₃))) hi₃ hrel (.inr ⟨_, rfl⟩)
          (hg₁.mono hL (h₂.trans (D.rely h₃)))
    | true =>
      have hret : ∀ t₂ s₂, QuietLater i s₁ s₂ → P.inv s₂ → t₁.Reloads t₂ →
          Loading sem P i c L b [(p, h' + 1)] [] t₂ s₂ →
          Client.wp sem P i (pure (some tbl) : Tx (Option TableStats)) t₂ Q s₂ := by
        intro t₂ s₂ h₂ hi₂ hrel₂ hg₂
        refine Client.wp_pure fun s₃ h₃ hi₃ ↦ h tbl t₂ s₃ (h₁.trans (h₂.trans (D.rely h₃))) hi₃
          (hrel.trans hrel₂) hl.basePath ?_ ?_
        · exact hl.pending.mono hrel₂.toGrows (h₂.trans (D.rely h₃))
        · rw [hl.basePath, hl.markerVersion]
          exact hg₂.mono hL (D.rely h₃)
      refine Client.wp_bind hi₁ (Client.wp_when (fun _ ↦ ?_) fun _ s₂ h₂ hi₂ ↦ ?_)
      · exact D.reopenUntilFixed hL fuel hg₁ (.inr (hrel.idle hidle)) hi₁
          fun t₂ s₂ h₂ hi₂ hrel₂ hg₂ ↦ hret t₂ s₂ h₂ hi₂ hrel₂ hg₂
      · exact hret t₁ s₂ (D.rely h₂) hi₂ (.refl t₁) (hg₁.mono hL (D.rely h₂))

/-- Begin with the state of a manager, in which a first table may have been opened in vain. -/
theorem begin (D : Disciplined sem P) (hL : Local P i L) (fuel : ℕ)
    (hg : Loading sem P i c L false ps [] t s) (hps : ps = [] ∨ ∃ v, ps = [(p, v)])
    (hidle : t.Idle) (hi : P.inv s) {Q : Bool → Txn → Store → Prop}
    (hfalse : ∀ ps' t' s', QuietLater i s s' → P.inv s' → t'.Idle →
      (ps' = [] ∨ ∃ v, ps' = [(p, v)]) → Loading sem P i c L false ps' [] t' s' → Q false t' s')
    (htrue : ∀ t' s', QuietLater i s s' → P.inv s' → t'.Idle → Good sem P i c L false t' s' →
      Q true t' s') :
    Client.wp sem P i (Tx.begin fuel p) t Q s := by
  unfold Tx.begin
  refine Client.wp_bind hi (D.parseGlobalSnapshots hg.sound.localLog hi fun l s₁ h₁ hi₁ hl ↦ ?_)
  have hg₁ : Loading sem P i c L false ps [] { t with localLog := l } s₁ :=
    (hg.mono hL h₁).aside hL rfl hl
  refine Client.wp_bind hi₁ (D.openTableV2 hL fuel hg₁ hps hidle hi₁ ?_ ?_)
  · intro ps' t₂ s₂ h₂ hi₂ hrel hps' hg₂
    exact Client.wp_pure fun s₃ h₃ hi₃ ↦ hfalse ps' t₂ s₃ (h₁.trans (h₂.trans (D.rely h₃))) hi₃
      (hrel.idle hidle) hps' (hg₂.mono hL (D.rely h₃))
  · intro tbl t₂ s₂ h₂ hi₂ hrel _ hp hg₂
    refine Client.wp_modify_bind (Client.wp_pure fun s₃ h₃ hi₃ ↦ ?_)
    refine htrue _ s₃ (h₁.trans (h₂.trans (D.rely h₃))) hi₃ ?_
      ((hg₂.append hL hp).mono hL (D.rely h₃))
    exact hp.append_idle (hrel.idle hidle)

theorem beginAttempts (D : Disciplined sem P) (hL : Local P i L) (fuel n : ℕ)
    (hg : Loading sem P i c L false ps [] t s) (hps : ps = [] ∨ ∃ v, ps = [(p, v)])
    (hidle : t.Idle) (hi : P.inv s) {Q : Bool → Txn → Store → Prop}
    (h : ∀ r t' s', QuietLater i s s' → P.inv s' →
      (r = true → t'.Idle ∧ Good sem P i c L false t' s') → Q r t' s') :
    Client.wp sem P i (Tx.beginAttempts fuel p n) t Q s := by
  induction n generalizing t s ps with
  | zero => exact Client.wp_pure fun s' hs hi' ↦ h false t s' (D.rely hs) hi' (by simp)
  | succ n ih =>
    unfold Tx.beginAttempts
    refine Client.wp_bind hi (D.begin hL fuel hg hps hidle hi ?_ ?_)
    · intro ps' t₁ s₁ h₁ hi₁ hidle₁ hps' hg₁
      exact ih hg₁ hps' hidle₁ hi₁ fun r t' s' hs' hi' ↦ h r t' s' (h₁.trans hs') hi'
    · intro t₁ s₁ h₁ hi₁ hidle₁ hg₁
      exact Client.wp_pure fun s₂ h₂ hi₂ ↦ h true t₁ s₂ (h₁.trans (D.rely h₂)) hi₂ fun _ ↦
        ⟨hidle₁, hg₁.mono hL (D.rely h₂)⟩

theorem beginTransaction (D : Disciplined sem P) (hL : Local P i L) (fuel : ℕ)
    (hg : Good sem P i c L false t s) (hidle : t.Idle) (hi : P.inv s)
    {Q : Bool → Txn → Store → Prop}
    (h : ∀ r t' s', QuietLater i s s' → P.inv s' →
      (r = true → t'.Idle ∧ Good sem P i c L false t' s') → Q r t' s') :
    Client.wp sem P i (Tx.beginTransaction fuel p) t Q s :=
  D.beginAttempts hL fuel 5 hg (.inl rfl) hidle hi h

theorem openAttempts (D : Disciplined sem P) (hL : Local P i L) (fuel n : ℕ)
    (hg : Loading sem P i c L false ps [] t s) (hps : ps = [] ∨ ∃ v, ps = [(p, v)])
    (hidle : t.Idle) (hi : P.inv s) {Q : Bool → Txn → Store → Prop}
    (h : ∀ r t' s', QuietLater i s s' → P.inv s' →
      (r = true → t'.Idle ∧ Good sem P i c L false t' s') → Q r t' s') :
    Client.wp sem P i (Tx.openAttempts fuel p n) t Q s := by
  induction n generalizing t s ps with
  | zero =>
    refine Client.wp_bind hi (D.abort true hg.sound hi fun t₁ s₁ h₁ _ _ _ ↦ ?_)
    exact Client.wp_pure fun s₂ h₂ hi₂ ↦ h false t₁ s₂ (h₁.trans (D.rely h₂)) hi₂ (by simp)
  | succ n ih =>
    unfold Tx.openAttempts
    refine Client.wp_bind hi (D.openTableV2 hL fuel hg hps hidle hi ?_ ?_)
    · intro ps' t₁ s₁ h₁ hi₁ hrel hps' hg₁
      exact ih hg₁ hps' (hrel.idle hidle) hi₁ fun r t' s' hs' hi' ↦ h r t' s' (h₁.trans hs') hi'
    · intro tbl t₁ s₁ h₁ hi₁ hrel _ hp hg₁
      refine Client.wp_modify_bind (Client.wp_pure fun s₂ h₂ hi₂ ↦ ?_)
      exact h true _ s₂ (h₁.trans (D.rely h₂)) hi₂ fun _ ↦
        ⟨hp.append_idle (hrel.idle hidle), (hg₁.append hL hp).mono hL (D.rely h₂)⟩

theorem openNewTable (D : Disciplined sem P) (hL : Local P i L) (fuel : ℕ)
    (hg : Good sem P i c L false t s) (hidle : t.Idle) (hi : P.inv s)
    {Q : Bool → Txn → Store → Prop}
    (h : ∀ r t' s', QuietLater i s s' → P.inv s' →
      (r = true → t'.Idle ∧ Good sem P i c L false t' s') → Q r t' s') :
    Client.wp sem P i (Tx.openNewTable fuel p) t Q s :=
  D.openAttempts hL fuel 5 hg (.inl rfl) hidle hi h

end Disciplined

end LakeVilla

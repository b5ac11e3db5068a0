import LakeVilla.Protocol.Reservation

/-!
# Snapshots

What a transaction knows of a table after parsing its log: the versions whose actions were merged,
and the versions that it remembers because they held a running marker (`Seen`). The threads of
`loadTable` read the versions in any order, so nothing here depends on the order.
-/

namespace LakeVilla

open Concurrency

namespace Store

/-- The snapshot that merging some versions gives, the last one of the list first. -/
def replay (s : Store) (p : Table) (vs : List ℕ) : DeltaLogManager :=
  vs.foldr (fun u m ↦ m.applyActions u ((s.log p u).getD [])) {}

theorem replay_cons (s : Store) (p : Table) (u : ℕ) (vs : List ℕ) :
    s.replay p (u :: vs) = (s.replay p vs).applyActions u ((s.log p u).getD []) := rfl

end Store

/-- The snapshot merges versions of the log. -/
structure Replays (s : Store) (p : Table) (dl : DeltaLogManager) : Prop where
  logged : ∀ u ∈ dl.versions, ∃ as, s.log p u = some as
  eq : dl = s.replay p dl.versions

namespace Replays

variable {s s' : Store} {p : Table} {dl : DeltaLogManager}

theorem empty : Replays s p {} := ⟨fun _ h ↦ absurd h (by simp), rfl⟩

theorem mono (h : Replays s p dl) (hs : Later s s') : Replays s' p dl where
  logged u hu := by
    obtain ⟨as, has⟩ := h.logged u hu
    exact ⟨as, hs.log_mono has⟩
  eq := by
    have hvs := h.logged
    conv_lhs => rw [h.eq]
    generalize dl.versions = vs at hvs
    induction vs with
    | nil => rfl
    | cons u vs ih =>
      obtain ⟨as, has⟩ := hvs u List.mem_cons_self
      rw [Store.replay_cons, Store.replay_cons, ih fun v hv ↦ hvs v (List.mem_cons_of_mem _ hv),
        has, hs.log_mono has]

theorem apply (h : Replays s p dl) {u : ℕ} {as : List Action} (hu : s.log p u = some as) :
    Replays s p (dl.applyActions u as) where
  logged v hv := by
    rcases List.mem_cons.mp hv with rfl | hv
    · exact ⟨as, hu⟩
    · exact h.logged v hv
  eq := by
    rw [DeltaLogManager.applyActions_versions, Store.replay_cons, ← h.eq, hu, Option.getD_some]

end Replays

/-- Parsing a log of table `p` remembers the versions `vs` and may defer operations; opening the
table also notes its version. -/
structure Parsed (p : Table) (vs : List ℕ) (t t' : Txn) : Prop where
  eq : t' = { t.remember p vs with
    explicitLog := t'.explicitLog, relation := t'.relation, localLog := t'.localLog,
    hazards := t'.hazards }
  explicitLog : t'.explicitLog = t.explicitLog ∨ t.cfg.levels.l0 = true ∧ t'.explicitLog = false ∧
    (t.explicitLog = true → t.deferring ⊆ t'.hazards)
  hazards : t.hazards ⊆ t'.hazards
  opened : .reopenFailed ∈ t'.hazards → .reopenFailed ∈ t.hazards
  markers : t.markers = false → vs = []

theorem Txn.reopenFailed_notMem_deferring (t : Txn) : .reopenFailed ∉ t.deferring := by
  unfold Txn.deferring
  split
  · simp only [List.mem_append]
    split <;> split <;> simp
  · simp

theorem Txn.reopenFailed_notMem_reopening (t : Txn) (tbl : TableStats) :
    .reopenFailed ∉ t.reopening tbl := by
  unfold Txn.reopening
  simp only [List.mem_append]
  split <;> split <;> simp

namespace Parsed

variable {p : Table} {vs vs' : List ℕ} {t t' t'' : Txn}

theorem refl : Parsed p [] t t :=
  ⟨by simp [Txn.remember], .inl rfl, List.Subset.refl _, fun h ↦ h, fun _ ↦ rfl⟩

theorem tables (h : Parsed p vs t t') : t'.tables = t.tables := by rw [h.eq]; rfl

theorem cfg (h : Parsed p vs t t') : t'.cfg = t.cfg := by rw [h.eq]; rfl

theorem id (h : Parsed p vs t t') : t'.transactionId = t.transactionId := by rw [h.eq]; rfl

theorem prevMarkers (h : Parsed p vs t t') :
    t'.prevMarkers = t.prevMarkers ++ vs.map fun u ↦ (p, u) := by rw [h.eq]; rfl

theorem markers_eq (h : Parsed p vs t t') : t'.markers = t.markers := by
  rw [Txn.markers, Txn.markers, h.cfg]

theorem trans (h : Parsed p vs t t') (h' : Parsed p vs' t' t'') :
    Parsed p (vs ++ vs') t t'' where
  eq := by
    rw [h'.eq, h.eq]
    simp [Txn.remember]
  explicitLog := by
    rcases h'.explicitLog with he | ⟨hl, he, hs⟩
    · rw [he]
      exact h.explicitLog.imp_right fun ⟨h₁, h₂, h₃⟩ ↦
        ⟨h₁, h₂, fun ht ↦ List.Subset.trans (h₃ ht) h'.hazards⟩
    · refine .inr ⟨h.cfg ▸ hl, he, fun ht ↦ ?_⟩
      rcases h.explicitLog with he' | ⟨-, -, hs'⟩
      · have hd : t.deferring = t'.deferring := by
          rw [Txn.deferring, Txn.deferring, Txn.hasDeletes, Txn.hasDeletes, Txn.serializable,
            Txn.serializable, h.cfg, h.tables, he']
        exact hd ▸ hs (he'.trans ht)
      · exact List.Subset.trans (hs' ht) h'.hazards
  hazards := List.Subset.trans h.hazards h'.hazards
  opened hf := h.opened (h'.opened hf)
  markers hm := by rw [h.markers hm, h'.markers (h.markers_eq.trans hm), List.append_nil]

theorem parseMarker_hazards (t : Txn) (p : Table) (u : ℕ) (j : TxnId) :
    (t.parseMarker p u j).hazards = t.deferring ++ t.hazards := by
  cases hm : t.markers <;> simp [Txn.parseMarker, hm, Txn.remember, Txn.deferring,
    Txn.hasDeletes, Txn.serializable]

theorem marker (u : ℕ) (j : TxnId) :
    Parsed p (if t.markers then [u] else []) t (t.parseMarker p u j) where
  eq := by cases hm : t.markers <;> simp [Txn.parseMarker, hm, Txn.remember]
  explicitLog := by
    have he : (t.parseMarker p u j).explicitLog = (t.explicitLog && !t.cfg.levels.l0) := by
      cases hm : t.markers <;> simp [Txn.parseMarker, hm, Txn.remember]
    have hh := parseMarker_hazards t p u j
    rw [he]
    cases hl : t.cfg.levels.l0 with
    | false => exact .inl (by simp)
    | true => exact .inr ⟨rfl, by simp, fun _ ↦ hh ▸ List.subset_append_left _ _⟩
  hazards := by
    rw [parseMarker_hazards]
    exact List.subset_append_right _ _
  opened hf := by
    rw [parseMarker_hazards, List.mem_append] at hf
    exact hf.resolve_left t.reopenFailed_notMem_deferring
  markers hm := by simp [hm]

end Parsed

/-- Version `u` of table `p` was merged into a snapshot or is remembered; a client without markers
takes a running marker for an empty commit. -/
def Seen (P : Protocol TxnId Txn Response Store) (markers : Bool) (s : Store) (p : Table)
    (merged : List ℕ) (remembered : List (Table × ℕ)) (u : ℕ) : Prop :=
  u ∈ merged ∨ (p, u) ∈ remembered ∨ markers = false ∧
    ∃ s₁ o j d, Later s₁ s ∧ P.inv s₁ ∧ s₁.get (.version p u) = some o ∧ o.content = .marker j d

theorem Seen.mono {P : Protocol TxnId Txn Response Store} {markers : Bool} {s s' : Store}
    {p : Table}
    {merged merged' : List ℕ} {remembered remembered' : List (Table × ℕ)} {u : ℕ}
    (h : Seen P markers s p merged remembered u) (hs : Later s s') (hm : merged ⊆ merged')
    (hr : remembered ⊆ remembered') : Seen P markers s' p merged' remembered' u := by
  rcases h with h | h | ⟨h₀, s₁, o, j, d, h₁, h₂⟩
  · exact .inl (hm h)
  · exact .inr (.inl (hr h))
  · exact .inr (.inr ⟨h₀, s₁, o, j, d, h₁.trans hs, h₂⟩)

/-! ## Parsing -/

namespace Disciplined

variable {sem : Semantics TxnId Txn Response Store} {P : Protocol TxnId Txn Response Store}
variable {i : TxnId} {t : Txn} {s : Store}

theorem readAttempts (D : Disciplined sem P) (n : ℕ) {k : Key}
    {Q : Option Object → Txn → Store → Prop}
    (h : ∀ r s₁ s₂, QuietLater i s s₁ → P.inv s₁ →
      (∀ o, r = some o → Asked sem i t (.read k) s₁ (some o)) →
      (r = none → n ≠ 0 → Asked sem i t (.read k) s₁ none) → QuietLater i s₁ s₂ → P.inv s₂ →
      Q r t s₂) (hi : P.inv s) :
    Client.wp sem P i (Tx.readAttempts k n) t Q s := by
  induction n generalizing s with
  | zero =>
    exact Client.wp_pure fun s' hs hi' ↦ h none s' s' (D.rely hs) hi' (by simp) (by simp) .refl hi'
  | succ n ih =>
    refine Client.wp_bind hi (D.ask (fun _ _ ↦ rfl) fun r s₁ s₂ h₁ hi₁ ha h₂ hi₂ ↦ ?_)
    cases r with
    | some o =>
      exact Client.wp_pure fun s₃ h₃ hi₃ ↦ h _ s₁ s₃ h₁ hi₁ (fun _ he ↦ he ▸ ha) (by simp)
        (h₂.trans (D.rely h₃)) hi₃
    | none =>
      cases n with
      | zero =>
        exact Client.wp_pure fun s₃ h₃ hi₃ ↦
          h _ s₁ s₃ h₁ hi₁ (by simp) (fun _ _ ↦ ha) (h₂.trans (D.rely h₃)) hi₃
      | succ n =>
        exact ih (fun r s₃ s₄ h₃ hi₃ hr hn h₄ hi₄ ↦
          h r s₃ s₄ (h₁.trans (h₂.trans h₃)) hi₃ hr (fun hr' _ ↦ hn hr' (by simp)) h₄ hi₄) hi₂

theorem readRetry (D : Disciplined sem P) {k : Key} {Q : Option Object → Txn → Store → Prop}
    (hi : P.inv s)
    (h : ∀ r s₁ s₂, QuietLater i s s₁ → P.inv s₁ →
      (∀ o, r = some o → Asked sem i t (.read k) s₁ (some o)) →
      (r = none → t.cfg.storageRetries ≠ 0 → Asked sem i t (.read k) s₁ none) →
      QuietLater i s₁ s₂ → P.inv s₂ → Q r t s₂) :
    Client.wp sem P i (Tx.readRetry k) t Q s :=
  Client.wp_get_bind (D.readAttempts _ h hi)

/-- What one version contributes. -/
structure ParsedVersion (P : Protocol TxnId Txn Response Store) (p : Table) (u : ℕ)
    (dl dl' : DeltaLogManager) (t t' : Txn) (s : Store) : Prop where
  parsed : ∃ vs, vs ⊆ [u] ∧ Parsed p vs t t'
  localLog : t'.localLog = t.localLog
  deltaLog : dl' = dl ∨ ∃ as, s.log p u = some as ∧ dl' = dl.applyActions u as
  seen : Seen P t.markers s p dl'.versions t'.prevMarkers u
  explicit : t.cfg.levels.l0 = true → t.cfg.levels.l2 = false → t'.explicitLog = true →
    u ∈ dl'.versions

theorem parseVersion (D : Disciplined sem P) {maxVersion : Option ℕ} {p : Table}
    {dl : DeltaLogManager} {u : ℕ} (hi : P.inv s)
    (hmax : t.markers = false → maxVersion.all fun m ↦ u ≤ m)
    (hl2 : ∀ m, maxVersion = some m → t.cfg.levels.l2 = true)
    {Q : Option (DeltaLogManager × Bool) → Txn → Store → Prop}
    (hnone : ∀ s₁ s₂, QuietLater i s s₁ → P.inv s₁ →
      (t.cfg.storageRetries ≠ 0 → Asked sem i t (.read (.version p u)) s₁ none) →
      QuietLater i s₁ s₂ → P.inv s₂ → Q none t s₂)
    (h : ∀ dl' dep t' s', QuietLater i s s' → P.inv s' → ParsedVersion P p u dl dl' t t' s' →
      (maxVersion = none → (s.log p u).isSome → u ∈ dl'.versions) → Q (some (dl', dep)) t' s') :
    Client.wp sem P i (Tx.parseVersion maxVersion p dl u) t Q s := by
  unfold Tx.parseVersion
  split
  · refine Client.wp_bind hi (D.readRetry hi fun r s₁ s₂ h₁ hi₁ hr hn h₂ hi₂ ↦ ?_)
    have h₁₂ := h₁.trans h₂
    cases r with
    | none =>
      exact Client.wp_pure fun s₃ h₃ hi₃ ↦ hnone s₁ s₃ h₁ hi₁ (hn rfl) (h₂.trans (D.rely h₃)) hi₃
    | some o =>
      have ho := hr o rfl
      simp only
      split
      · next c hc =>
        refine Client.wp_pure fun s₃ h₃ hi₃ ↦ h _ _ t s₃ (h₁₂.trans (D.rely h₃)) hi₃ ?_
          fun _ _ ↦ List.mem_cons_self
        have hlog := (h₂.trans (D.rely h₃)).later.log_mono (Store.log_of_get ho.read hc)
        exact ⟨⟨[], by simp, .refl⟩, rfl, .inr ⟨_, hlog, rfl⟩, .inl List.mem_cons_self,
          fun _ _ _ ↦ List.mem_cons_self⟩
      · next j d hc =>
        refine Client.wp_get_bind (Client.wp_modify_bind (Client.wp_pure fun s₃ h₃ hi₃ ↦ ?_))
        have h₂₃ := h₂.trans (D.rely h₃)
        refine h _ _ _ s₃ (h₁₂.trans (D.rely h₃)) hi₃
          ⟨⟨_, ?_, Parsed.marker u j⟩, ?_, .inl rfl, ?_, fun hl _ he ↦ ?_⟩ fun _ hlog ↦ ?_
        · split <;> simp
        · cases hm : t.markers <;> simp [Txn.parseMarker, hm, Txn.remember]
        · by_cases hm : t.markers = true
          · exact .inr (.inl (by simp [Txn.parseMarker, hm, Txn.remember]))
          · exact .inr (.inr ⟨by simpa using hm, s₁, o, j, d, h₂₃.later, hi₁, ho.read, hc⟩)
        · cases hm : t.markers <;> simp [Txn.parseMarker, hm, hl, Txn.remember] at he
        · obtain ⟨as, has⟩ := Option.isSome_iff_exists.mp hlog
          obtain ⟨o', c, ho', hc', -⟩ := Store.log_eq_some.mp (h₁.later.log_mono has)
          rw [Option.some.inj (ho.read.symm.trans ho'), hc'] at hc
          cases hc
      · next hc hm =>
        rcases (D.wf hi₁).kind ho.read with ⟨j, d, h'⟩ | ⟨c, h'⟩
        · exact absurd h' (hm j d)
        · exact absurd h' (hc c)
  · next hu =>
    have hm : t.markers = true := by
      by_contra hm
      exact hu (hmax (by simpa using hm))
    refine Client.wp_modify_bind (Client.wp_pure fun s' hs hi' ↦ ?_)
    simp only [hm, if_true]
    refine h _ _ _ s' (D.rely hs) hi'
      ⟨⟨[u], List.Subset.refl _, rfl, .inl rfl, List.Subset.refl _, fun h ↦ h, ?_⟩, rfl, .inl rfl,
        ?_, fun _ h₂ _ ↦ ?_⟩ fun hnone ↦ ?_
    · simp [hm]
    · exact .inr (.inl (by simp [Txn.remember]))
    · cases maxVersion with
      | none => exact absurd rfl hu
      | some m => exact absurd (hl2 m rfl) (by simp [h₂])
    · rw [hnone] at hu
      exact absurd rfl hu

/-- Some version could not be read. -/
def Unread (sem : Semantics TxnId Txn Response Store) (i : TxnId) (s : Store) (p : Table)
    (us : List ℕ) : Prop :=
  ∃ u ∈ us, ∃ m s₁, Later s s₁ ∧ Asked sem i m (.read (.version p u)) s₁ none

/-- What parsing the versions `us` contributes, from the shared data `st` in store `s₀` to `st'` in
store `s`. -/
structure ParsedVersions (sem : Semantics TxnId Txn Response Store)
    (P : Protocol TxnId Txn Response Store) (i : TxnId) (p : Table) (us : List ℕ)
    (st st' : Tx.Parse) (t t' : Txn) (s₀ s : Store) : Prop where
  parsed : ∃ vs, vs ⊆ us ∧ Parsed p vs t t'
  localLog : t'.localLog = t.localLog
  replays : Replays s p st'.deltaLog
  merged : st.deltaLog.versions ⊆ st'.deltaLog.versions
  versions : ∀ u ∈ st'.deltaLog.versions, u ∈ st.deltaLog.versions ∨ u ∈ us
  seen : st'.logsOk = true → st.logsOk = true ∧
    ∀ u ∈ us, Seen P t.markers s p st'.deltaLog.versions t'.prevMarkers u
  explicit : t.cfg.levels.l0 = true → t.cfg.levels.l2 = false → t'.explicitLog = true →
    st'.logsOk = true → ∀ u ∈ us, u ∈ st'.deltaLog.versions
  failed : st'.logsOk = false →
    st.logsOk = false ∨ t.cfg.storageRetries = 0 ∨ Unread sem i s₀ p us

theorem parseRanges (D : Disciplined sem P) {maxVersion : Option ℕ} {p : Table} (fuel : ℕ)
    {ranges : List (List ℕ)} {st : Tx.Parse} (hi : P.inv s)
    (hmax : t.markers = false → ∀ u ∈ ranges.flatten, maxVersion.all fun m ↦ u ≤ m)
    (hl2 : ∀ m, maxVersion = some m → t.cfg.levels.l2 = true)
    (hne : ∀ r ∈ ranges, r ≠ []) (hfuel : ranges.flatten.length ≤ fuel)
    (hst : Replays s p st.deltaLog) {Q : Tx.Parse → Txn → Store → Prop}
    (h : ∀ st' t' s', QuietLater i s s' → P.inv s' →
      ParsedVersions sem P i p ranges.flatten st st' t t' s s' → Q st' t' s') :
    Client.wp sem P i (Tx.parseRanges maxVersion p fuel ranges st) t Q s := by
  induction fuel generalizing t s ranges st with
  | zero =>
    have hnil : ranges.flatten = [] := List.length_eq_zero_iff.mp (Nat.le_zero.mp hfuel)
    refine Client.wp_pure fun s' hs hi' ↦ h st t s' (D.rely hs) hi' ?_
    refine ⟨⟨[], by simp, .refl⟩, rfl, hst.mono (D.rely hs).later, List.Subset.refl _, ?_, ?_,
      ?_, ?_⟩
    · exact fun u hu ↦ .inl hu
    · exact fun hok ↦ ⟨hok, by simp [hnil]⟩
    · simp [hnil]
    · exact fun hok ↦ .inl hok
  | succ fuel ih =>
    unfold Tx.parseRanges
    refine Client.wp_bind hi (D.ask (fun _ _ ↦ rfl) fun j s₁ s₂ h₁ hi₁ ha h₂ hi₂ ↦ ?_)
    have h₁₂ := h₁.trans h₂
    split
    · next u rest hj =>
      obtain ⟨l₁, l₂, rfl, rfl⟩ := List.exists_append_of_getElem? hj
      refine Client.wp_bind hi₂ (D.parseVersion hi₂ (fun hm ↦ hmax hm u (by simp)) hl2 ?_ ?_)
      · intro s₃ s₄ h₃ hi₃ hun h₄ hi₄
        rw [List.eraseIdx_append_cons]
        have hsub : (l₁ ++ l₂).flatten ⊆ (l₁ ++ (u :: rest) :: l₂).flatten := by
          intro v hv
          simp only [List.flatten_append, List.flatten_cons, List.mem_append] at hv ⊢
          tauto
        refine ih hi₄ (fun hm v hv ↦ hmax hm v (hsub hv)) hl2 (fun r hr ↦ hne r ?_) ?_
          (hst.mono (h₁₂.trans (h₃.trans h₄)).later) fun st' t' s' hs' hi' hp ↦
          h st' t' s' (h₁₂.trans (h₃.trans (h₄.trans hs'))) hi' ?_
        · simp only [List.mem_append, List.mem_cons] at hr ⊢
          tauto
        · simp only [List.flatten_append, List.flatten_cons, List.length_append,
            List.length_cons] at hfuel ⊢
          omega
        · obtain ⟨vs, hvs, hpar⟩ := hp.parsed
          refine ⟨⟨vs, fun v hv ↦ hsub (hvs hv), hpar⟩, hp.localLog, hp.replays, hp.merged, ?_, ?_,
            ?_, fun _ ↦ ?_⟩
          · exact fun v hv ↦ (hp.versions v hv).imp_right fun h ↦ hsub h
          · exact fun hok ↦ absurd (hp.seen hok).1 (by simp)
          · exact fun _ _ _ hok ↦ absurd (hp.seen hok).1 (by simp)
          · by_cases hr : t.cfg.storageRetries = 0
            · exact .inr (.inl hr)
            · exact .inr (.inr ⟨u, by simp, t, s₃, (h₁₂.trans h₃).later, hun hr⟩)
      · intro dl' dep t' s₃ h₃ hi₃ hver _
        obtain ⟨vs, hvs, hpar⟩ := hver.parsed
        have hdl : Replays s₃ p dl' ∧ st.deltaLog.versions ⊆ dl'.versions ∧
            ∀ v ∈ dl'.versions, v ∈ st.deltaLog.versions ∨ v = u := by
          have hst' := hst.mono (h₁₂.trans h₃).later
          rcases hver.deltaLog with rfl | ⟨as, hlog, rfl⟩
          · exact ⟨hst', List.Subset.refl _, fun v hv ↦ .inl hv⟩
          · refine ⟨hst'.apply hlog, List.subset_cons_self _ _, fun v hv ↦ ?_⟩
            exact (List.mem_cons.mp hv).symm
        simp only [List.eraseIdx_append_cons, List.set_append_cons]
        obtain ⟨ranges', hr'⟩ : ∃ ranges', ranges' =
          if rest.isEmpty then l₁ ++ l₂ else l₁ ++ rest :: l₂ := ⟨_, rfl⟩
        rw [← hr']
        have hmem : ∀ v, v ∈ (l₁ ++ (u :: rest) :: l₂).flatten ↔ v = u ∨ v ∈ ranges'.flatten := by
          intro v
          rw [hr']
          cases rest <;> simp [or_left_comm]
        have hlen : ranges'.flatten.length + 1 = (l₁ ++ (u :: rest) :: l₂).flatten.length := by
          rw [hr']
          cases rest <;> simp <;> omega
        refine ih hi₃ (fun hm v hv ↦ hmax (hpar.markers_eq ▸ hm) v ((hmem v).mpr (.inr hv)))
          (fun m hm ↦ hpar.cfg ▸ hl2 m hm) (fun r hr ↦ ?_) (by omega) hdl.1
            fun st' t'' s' hs' hi' hp ↦
          h st' t'' s' (h₁₂.trans (h₃.trans hs')) hi' ?_
        · rw [hr'] at hr
          cases rest with
          | nil =>
            simp only [List.isEmpty_nil, if_true, List.mem_append] at hr
            exact hne r (by simp only [List.mem_append, List.mem_cons]; tauto)
          | cons v rest =>
            simp only [List.isEmpty_cons, Bool.false_eq_true, if_false, List.mem_append,
              List.mem_cons] at hr
            rcases hr with hr | rfl | hr
            · exact hne r (by simp [hr])
            · simp
            · exact hne r (by simp [hr])
        · obtain ⟨vs', hvs', hpar'⟩ := hp.parsed
          refine ⟨⟨vs ++ vs', ?_, hpar.trans hpar'⟩, hp.localLog.trans hver.localLog, hp.replays,
            ?_, ?_, ?_, ?_, ?_⟩
          · intro v hv
            rcases List.mem_append.mp hv with hv | hv
            · exact (hmem v).mpr (.inl (by simpa using hvs hv))
            · exact (hmem v).mpr (.inr (hvs' hv))
          · exact fun v hv ↦ hp.merged (hdl.2.1 hv)
          · intro v hv
            rcases hp.versions v hv with hv | hv
            · exact (hdl.2.2 v hv).imp_right fun h ↦ (hmem v).mpr (.inl h)
            · exact .inr ((hmem v).mpr (.inr hv))
          · intro hok
            obtain ⟨hok', hseen⟩ := hp.seen hok
            refine ⟨hok', fun v hv ↦ ?_⟩
            rcases (hmem v).mp hv with rfl | hv
            · refine hver.seen.mono hs'.later hp.merged ?_
              rw [hpar'.prevMarkers]
              exact List.subset_append_left _ _
            · exact hpar.markers_eq ▸ hseen v hv
          · intro hl0 hl2 he hok v hv
            rcases (hmem v).mp hv with rfl | hv
            · refine hp.merged (hver.explicit hl0 hl2 ?_)
              rcases hpar'.explicitLog with he' | ⟨-, he', -⟩
              · exact he'.symm.trans he
              · exact absurd he (by simp [he'])
            · exact hp.explicit (hpar.cfg ▸ hl0) (hpar.cfg ▸ hl2) he hok v hv
          · intro hok
            rcases hp.failed hok with h' | h' | ⟨v, hv, m, s₄, hs₄, ha'⟩
            · exact .inl h'
            · exact .inr (.inl (hpar.cfg ▸ h'))
            · exact .inr (.inr ⟨v, (hmem v).mpr (.inr hv), m, s₄,
                (h₁₂.trans h₃).later.trans hs₄, ha'⟩)
    · next hj =>
      have hnil : ranges = [] := by
        by_contra hn
        have hlt := ha.schedule (by simpa using hn)
        obtain ⟨r, hr⟩ : ∃ r, ranges[j]? = some r := ⟨ranges[j], List.getElem?_eq_getElem hlt⟩
        cases r with
        | nil => exact hne [] (List.mem_of_getElem? hr) rfl
        | cons u rest => exact hj u rest hr
      subst hnil
      refine Client.wp_pure fun s' hs hi' ↦ h st t s' (h₁₂.trans (D.rely hs)) hi' ?_
      refine ⟨⟨[], by simp, .refl⟩, rfl, hst.mono (h₁₂.trans (D.rely hs)).later, List.Subset.refl _,
        fun u hu ↦ .inl hu, fun hok ↦ ⟨hok, by simp⟩, by simp, fun hok ↦ .inl hok⟩

end Disciplined

end LakeVilla

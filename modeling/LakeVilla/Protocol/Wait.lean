import LakeVilla.Protocol.Load

/-!
# Waiting for markers

Before a commit writes, every version it remembers has to be final: it is merged into the snapshot,
or it holds an empty commit. A wait ends because the version was committed (and is merged), because
it was taken over, or because it gave up; then all tables are opened again.
-/

namespace LakeVilla

open Concurrency

/-! ## A concurrent commit is merged -/

theorem Txn.tableOf_spec {t : Txn} {p : Table} (h : p ∈ t.tables.map (·.basePath)) :
    ∃ tbl, t.tables[t.tableOf p]? = some tbl ∧ tbl.basePath = p := by
  have hany : t.tables.any fun tbl ↦ decide (tbl.basePath = p) := by
    obtain ⟨tbl, htbl, rfl⟩ := List.mem_map.mp h
    exact List.any_eq_true.mpr ⟨tbl, htbl, by simp⟩
  obtain ⟨j, hj⟩ : ∃ j, t.tables.findIdx? (fun tbl ↦ decide (tbl.basePath = p)) = some j := by
    rw [← Option.isSome_iff_exists, List.findIdx?_isSome]
    exact hany
  obtain ⟨hlt, hp, -⟩ := List.findIdx?_eq_some_iff_getElem.mp hj
  refine ⟨t.tables[j], ?_, by simpa using hp⟩
  rw [Txn.tableOf, hj, Option.getD_some, List.getElem?_eq_getElem hlt]

theorem Txn.applyConcurrent_grows (t : Txn) (p : Table) (u : ℕ) (c : Commit) :
    t.Grows (t.applyConcurrent p u c) :=
  ⟨rfl, List.Subset.refl _, List.Subset.refl _, fun h ↦ h⟩

@[simp] theorem Txn.applyConcurrent_paths (t : Txn) (p : Table) (u : ℕ) (c : Commit) :
    (t.applyConcurrent p u c).tables.map (·.basePath) = t.tables.map (·.basePath) :=
  List.map_modify_eq _ fun _ _ ↦ rfl

namespace Loading

variable {sem : Semantics TxnId Txn Response Store} {P : Protocol TxnId Txn Response Store}
variable {i : TxnId} {c : Config} {L : Bool → Txn → Store → Prop} {b : Bool}
variable {ps : List (Table × ℕ)} {js : List ℕ} {t : Txn} {s : Store}

theorem concurrent (hL : Local P i L) (hg : Loading sem P i c L b ps js t s) {p : Table} {u : ℕ}
    {cm : Commit} (hlog : s.log p u = some cm.actions)
    (hp : t.Distinct → p ∈ t.tables.map (·.basePath))
    (hu : t.Distinct → ∀ tbl ∈ t.tables, tbl.basePath = p →
      u < tbl.markerVersion ∨ t.markers = false) :
    Loading sem P i c L b ps js (t.applyConcurrent p u cm) s := by
  have hpaths := t.applyConcurrent_paths p u cm
  have hmem : ∀ {x}, x ∈ (t.applyConcurrent p u cm).tables → ∃ y ∈ t.tables, x = { y with
      deltaLog := x.deltaLog, concurrentRemoves := x.concurrentRemoves,
      concurrentChange := x.concurrentChange } := by
    intro x hx
    rcases List.mem_modify hx with hx | ⟨y, hy, rfl⟩
    · exact ⟨x, hx, rfl⟩
    · exact ⟨y, List.mem_of_getElem? hy, rfl⟩
  have husable : (t.applyConcurrent p u cm).Usable → t.Usable := fun hu ↦
    ⟨by rw [Txn.Distinct, ← hpaths]; exact hu.distinct, hu.opened⟩
  exact
    { sound :=
        { id := hg.sound.id
          tables := fun x hx ↦ by
            obtain ⟨y, hy, hxy⟩ := hmem hx
            have hr := hg.sound.tables y hy
            rw [hxy]
            exact ⟨hr.marker, hr.before, hr.placed, hr.read⟩
          localLog := fun e he ↦ by
            dsimp only [Txn.applyConcurrent] at he
            split at he
            · rcases AssocList.mem_modify he with he | ⟨v, rfl⟩
              · exact hg.sound.localLog e he
              · exact Store.exists_of_log hlog
            · exact hg.sound.localLog e he
          prevMarkers := hg.sound.prevMarkers }
      cfg := hg.cfg
      recalled := fun hd ↦ by
        have hrec := hg.recalled (by
          rw [Txn.DistinctWith, ← hpaths]
          exact hd)
        refine ⟨hrec.markers, fun e he x hx hxe ↦ ?_, hrec.below', fun e he ↦ ?_⟩
        · obtain ⟨y, hy, hxy⟩ := hmem hx
          rw [hxy] at hxe ⊢
          exact hrec.below e he y hy hxe
        · rw [hpaths]
          exact hrec.opened e he
      uncommitted := fun hf x hx ↦ by
        obtain ⟨y, hy, hxy⟩ := hmem hx
        rw [hxy]
        exact hg.uncommitted hf y hy
      tracks := fun hr hu' a x ha hn ↦ by
        have hgr := Txn.applyConcurrent_grows t p u cm
        obtain ⟨tbl, hj, hbase⟩ := Txn.tableOf_spec (hp (husable hu').distinct)
        rcases List.getElem?_modify_eq_some ha with ⟨rfl, y, hy, rfl⟩ | ⟨-, ha'⟩
        · obtain rfl : y = tbl := Option.some.inj (hy.symm.trans hj)
          have ht := hg.tracks hr (husable hu') _ y hy hn
          refine ⟨ht.fresh, fun v hv ↦ ?_, fun v hv ↦ ?_, fun v hv ↦ ?_, fun hh v hv ↦ ?_⟩
          · rcases List.mem_cons.mp hv with rfl | hv
            · exact ⟨_, hbase ▸ hlog⟩
            · exact ht.logged v hv
          · rcases List.mem_cons.mp hv with rfl | hv
            · exact hu (husable hu').distinct y (List.mem_of_getElem? hy) hbase
            · exact ht.below v hv
          · exact (ht.covered v hv).imp_left fun h' ↦
              h'.mono .refl (List.subset_cons_self _ _) (List.Subset.refl _)
          · rcases List.mem_cons.mp hv with rfl | hv
            · refine .inr fun as has ↦ ?_
              rw [hbase] at has
              obtain rfl : cm.actions = as := Option.some.inj (hlog.symm.trans has)
              refine ⟨List.subset_append_right _ _, ?_⟩
              cases hact : cm.actions <;> simp
            · refine (ht.checked hh v hv).imp_right fun hc as has ↦ ?_
              obtain ⟨h₁, h₂⟩ := hc as has
              exact ⟨List.Subset.trans h₁ (List.subset_append_left _ _),
                h₂.imp_right fun h ↦ by simp [h]⟩
        · exact (hg.tracks hr (husable hu') a x ha' hn).mono hgr .refl
      locally := fun hr htr hn hu' ↦ by
        obtain ⟨_, hj, hbase⟩ := Txn.tableOf_spec (hp (husable hu').distinct)
        exact hL.concurrent (hg.locally hr htr hn (husable hu')) hlog hj hbase
      opened := hg.opened
      owns := hg.owns.modify rfl fun _ _ ↦ ⟨rfl, rfl, rfl⟩ }

/-- The tables could not be opened again. -/
theorem failed (hg : Loading sem P i c L b ps js t s)
    (hn : ¬ (Truthful sem i ∧ c.storageRetries ≠ 0)) :
    Loading sem P i c L b ps [] { t with hazards := .reopenFailed :: t.hazards } s where
  sound := ⟨hg.sound.id, hg.sound.tables, hg.sound.localLog, hg.sound.prevMarkers⟩
  cfg := hg.cfg
  recalled hd := have hr := hg.recalled hd; ⟨hr.markers, hr.below, hr.below', hr.opened⟩
  uncommitted := hg.uncommitted
  tracks _ hu := absurd List.mem_cons_self hu.opened
  locally _ _ _ hu := absurd List.mem_cons_self hu.opened
  opened htr hret := absurd ⟨htr, hret⟩ hn
  owns := hg.owns.same rfl

end Loading

/-- A remembered version is final. -/
def Passed (t : Txn) (s : Store) (e : Table × ℕ) : Prop :=
  ∀ tbl ∈ t.tables, tbl.basePath = e.1 → e.2 ∈ tbl.deltaLog.versions ∨ s.log e.1 e.2 = some []

theorem Passed.mono {t : Txn} {s s' : Store} {e : Table × ℕ} (h : Passed t s e) (hs : Later s s') :
    Passed t s' e :=
  fun tbl htbl he ↦ (h tbl htbl he).imp_right hs.log_mono

theorem Passed.concurrent {t : Txn} {s : Store} {e : Table × ℕ} (h : Passed t s e) (p : Table)
    (u : ℕ) (c : Commit) : Passed (t.applyConcurrent p u c) s e := by
  intro x hx hxe
  rcases List.mem_modify hx with hx | ⟨y, hy, rfl⟩
  · exact h x hx hxe
  · exact (h y (List.mem_of_getElem? hy) hxe).imp_left (List.mem_cons_of_mem _)

/-- The commit that was just merged. -/
theorem Passed.merged {t : Txn} {s : Store} {p : Table} (u : ℕ) (c : Commit) (hd : t.Distinct)
    (hp : p ∈ t.tables.map (·.basePath)) : Passed (t.applyConcurrent p u c) s (p, u) := by
  obtain ⟨tbl, hj, hbase⟩ := Txn.tableOf_spec hp
  intro x hx hxe
  obtain ⟨a, ha⟩ := List.getElem?_of_mem hx
  rcases List.getElem?_modify_eq_some ha with ⟨-, y, -, rfl⟩ | ⟨hne, ha'⟩
  · exact .inl List.mem_cons_self
  · exact absurd (hd.index_eq ha' hj (hxe.trans hbase.symm)) hne

/-- What waiting changes. -/
structure Waited (t t' : Txn) (s s' : Store) : Prop extends t.Grows t' where
  remembered : t'.prevMarkers = t.prevMarkers
  paths : t'.tables.map (·.basePath) = t.tables.map (·.basePath)
  passed : ∀ e, Passed t s e → Passed t' s' e

namespace Waited

variable {t t' t'' : Txn} {s s' s'' : Store}

theorem refl (t : Txn) (h : Later s s') : Waited t t s s' :=
  ⟨.refl t, rfl, rfl, fun _ he ↦ he.mono h⟩

theorem trans (h : Waited t t' s s') (h' : Waited t' t'' s' s'') : Waited t t'' s s'' where
  toGrows := h.toGrows.trans h'.toGrows
  remembered := h'.remembered.trans h.remembered
  paths := h'.paths.trans h.paths
  passed e he := h'.passed e (h.passed e he)

theorem later (h : Waited t t' s s') (hs : Later s' s'') : Waited t t' s s'' :=
  h.trans (.refl t' hs)

theorem distinct (h : Waited t t' s s') (hd : t'.Distinct) : t.Distinct := by
  rw [Txn.Distinct, ← h.paths]
  exact hd

theorem concurrent (h : Later s s') (p : Table) (u : ℕ) (c : Commit) :
    Waited t (t.applyConcurrent p u c) s s' where
  toGrows := t.applyConcurrent_grows p u c
  remembered := rfl
  paths := t.applyConcurrent_paths p u c
  passed _ he := (he.mono h).concurrent p u c

/-- The version that the commit is waiting for is noted. -/
theorem waiting (t : Txn) (s : Store) (e : Option (Table × ℕ)) :
    Waited t { t with waiting := e } s s where
  toGrows := Txn.Aside.grows rfl
  remembered := rfl
  paths := rfl
  passed _ he := he

end Waited

/-- Every version below a reserved one is final. -/
def Caught (P : Protocol TxnId Txn Response Store) (t : Txn) (s : Store) : Prop :=
  ∀ tbl ∈ t.tables, ∀ u < tbl.markerVersion,
    Seen P t.markers s tbl.basePath tbl.deltaLog.versions [] u ∨ s.log tbl.basePath u = some []

theorem Caught.mono {P : Protocol TxnId Txn Response Store} {t : Txn} {s s' : Store}
    (h : Caught P t s) (hs : Later s s') : Caught P t s' := fun tbl htbl u hu ↦
  (h tbl htbl u hu).imp (fun h' ↦ h'.mono hs (List.Subset.refl _) (List.Subset.refl _)) hs.log_mono

theorem Loading.caught {sem : Semantics TxnId Txn Response Store}
    {P : Protocol TxnId Txn Response Store} {i : TxnId} {c : Config} {L : Bool → Txn → Store → Prop}
    {b : Bool} {t : Txn} {s : Store} (hg : Good sem P i c L b t s) (hr : Regular sem i c)
    (hu : t.Usable) (hp : ∀ e ∈ t.prevMarkers, Passed t s e) : Caught P t s := by
  intro tbl htbl u hlt
  obtain ⟨j, hj⟩ := List.getElem?_of_mem htbl
  rcases (hg.tracks hr hu j tbl hj (by simp)).covered u hlt with h | h
  · rcases h with h | h | h
    · exact .inl (.inl h)
    · exact (hp _ h tbl htbl rfl).imp_left .inl
    · exact .inl (.inr (.inr h))
  · exact .inr h

/-! ## Waiting -/

namespace Disciplined

variable {sem : Semantics TxnId Txn Response Store} {P : Protocol TxnId Txn Response Store}
variable {i : TxnId} {c : Config} {L : Bool → Txn → Store → Prop} {b : Bool}
variable {t : Txn} {s : Store} {p : Table} {v : ℕ}

theorem takeOver (D : Disciplined sem P) {o : Object} {deadline : Option ℤ} {start : ℤ}
    (ho : MarkerTag s p v o.etag) (hi : P.inv s) {Q : WriteStatus → Txn → Store → Prop}
    (h : ∀ r s', QuietLater i s s' → P.inv s' → (r = .ok → s'.log p v = some []) → Q r t s') :
    Client.wp sem P i (Tx.takeOver p v o deadline start) t Q s := by
  refine Client.wp_get_bind (Client.wp_bind hi (D.ask (fun _ _ ↦ rfl)
    fun now s₁ s₂ h₁ _ _ h₂ hi₂ ↦ ?_))
  have h₁₂ := h₁.trans h₂
  refine Client.wp_ite (fun _ ↦ ?_) fun _ ↦ ?_
  · refine D.writeEmpty (ho.mono h₁₂.later) fun r s₃ s₄ s₅ h₃ hact h₄ _ h₅ hi₅ ↦ ?_
    refine h r s₅ (h₁₂.trans (h₃.trans (h₄.trans h₅))) hi₅ fun hok ↦ ?_
    obtain ⟨-, -, d, -, -, hr⟩ := hact
    rcases answer_writeIfMatch hr with ⟨-, -, rfl⟩ | ⟨hr', -⟩ | ⟨hr', -⟩
    · exact h₅.later.log_mono (Store.log_of_get (Store.get_put_self ..) rfl)
    · rw [hok] at hr'
      cases hr'
    · rw [hok] at hr'
      cases hr'
  · exact Client.wp_pure fun s₃ h₃ hi₃ ↦ h _ s₃ (h₁₂.trans (D.rely h₃)) hi₃ (by simp)

/-- How a wait for a version ends. -/
theorem waitLoop (D : Disciplined sem P) {start : ℤ} (fuel : ℕ) (hi : P.inv s)
    {Q : Bool → Txn → Store → Prop}
    (hnone : ∀ s₁ s₂, QuietLater i s s₁ → Asked sem i t (.read (.version p v)) s₁ none →
      QuietLater i s₁ s₂ → P.inv s₂ → Q true t s₂)
    (happlied : ∀ cm s', QuietLater i s s' → P.inv s' → s'.log p v = some cm.actions →
      Q true (t.applyConcurrent p v cm) s')
    (htaken : ∀ s', QuietLater i s s' → P.inv s' → s'.log p v = some [] → Q true t s')
    (hgaveUp : ∀ s₁ s' o j d, QuietLater i s s₁ → P.inv s₁ → s₁.get (.version p v) = some o →
      o.content = .marker j d → QuietLater i s₁ s' → P.inv s' → Q false t s') :
    Client.wp sem P i (Tx.waitLoop p v start fuel) t Q s := by
  induction fuel generalizing s with
  | zero => exact Client.wp_diverge
  | succ fuel ih =>
    have hagain : ∀ s', QuietLater i s s' → P.inv s' →
        Client.wp sem P i (Tx.waitLoop p v start fuel) t Q s' := fun s' hs hi' ↦
      ih hi' (fun s₁ s₂ h₁ ↦ hnone s₁ s₂ (hs.trans h₁))
        (fun cm s₁ h₁ ↦ happlied cm s₁ (hs.trans h₁))
        (fun s₁ h₁ ↦ htaken s₁ (hs.trans h₁))
        fun s₁ s₂ o j d h₁ ↦ hgaveUp s₁ s₂ o j d (hs.trans h₁)
    unfold Tx.waitLoop
    refine Client.wp_bind hi (D.ask (fun _ _ ↦ rfl) fun r s₁ s₂ h₁ hi₁ ha h₂ hi₂ ↦ ?_)
    cases r with
    | none =>
      exact Client.wp_pure fun s₃ h₃ hi₃ ↦ hnone s₁ s₃ h₁ ha (h₂.trans (D.rely h₃)) hi₃
    | some o =>
      have ho := ha.read
      simp only
      split
      · next cm hc =>
        refine Client.wp_modify_bind (Client.wp_pure fun s₃ h₃ hi₃ ↦ ?_)
        have h₂₃ := h₂.trans (D.rely h₃)
        exact happlied cm s₃ (h₁.trans h₂₃) hi₃ (h₂₃.later.log_mono (Store.log_of_get ho hc))
      · next j d hc =>
        have htag : MarkerTag s₁ p v o.etag := by
          refine ⟨(D.wf hi₁).etag ho, fun o' ho' _ ↦ ⟨j, d, ?_⟩⟩
          rw [Option.some.inj (ho'.symm.trans ho), hc]
        refine Client.wp_bind hi₂ (D.takeOver (htag.mono h₂.later) hi₂ fun r s₃ h₃ hi₃ hok ↦ ?_)
        have h₁₃ := h₁.trans (h₂.trans h₃)
        have herror : Client.wp sem P i (do
            let options := (← get).cfg.options
            let giveUpAfter : ℤ := options.markerLeaseMs + options.markerGraceMs + 60000
            if (← Tx.localTimeMs) - start > giveUpAfter then pure false
            else Tx.waitLoop p v start fuel) t Q s₃ := by
          refine Client.wp_get_bind (Client.wp_bind hi₃ (D.ask (fun _ _ ↦ rfl)
            fun now s₄ s₅ h₄ _ _ h₅ hi₅ ↦ ?_))
          have h₃₅ := h₄.trans h₅
          split
          · exact Client.wp_pure fun s₆ h₆ hi₆ ↦ hgaveUp s₁ s₆ o j d h₁ hi₁ ho hc
              (h₂.trans (h₃.trans (h₃₅.trans (D.rely h₆)))) hi₆
          · exact hagain s₅ (h₁₃.trans h₃₅) hi₅
        cases r with
        | ok =>
          exact Client.wp_pure fun s₄ h₄ hi₄ ↦ htaken s₄ (h₁₃.trans (D.rely h₄)) hi₄
            ((D.rely h₄).later.log_mono (hok rfl))
        | preconditionFailed => exact hagain s₃ h₁₃ hi₃
        | alreadyExists => exact herror
        | error => exact herror
      · next hc hm =>
        rcases (D.wf hi₁).kind ho with ⟨j, d, h'⟩ | ⟨cm, h'⟩
        · exact absurd h' (hm j d)
        · exact absurd h' (hc cm)

theorem waitForMarker (D : Disciplined sem P) (fuel : ℕ) (hi : P.inv s)
    {Q : Bool → Txn → Store → Prop}
    (hnone : ∀ s₁ s₂, QuietLater i s s₁ → Asked sem i t (.read (.version p v)) s₁ none →
      QuietLater i s₁ s₂ → P.inv s₂ → Q true t s₂)
    (happlied : ∀ cm s', QuietLater i s s' → P.inv s' → s'.log p v = some cm.actions →
      Q true (t.applyConcurrent p v cm) s')
    (htaken : ∀ s', QuietLater i s s' → P.inv s' → s'.log p v = some [] → Q true t s')
    (hgaveUp : ∀ s₁ s' o j d, QuietLater i s s₁ → P.inv s₁ → s₁.get (.version p v) = some o →
      o.content = .marker j d → QuietLater i s₁ s' → P.inv s' → Q false t s') :
    Client.wp sem P i (Tx.waitForMarker fuel p v) t Q s := by
  refine Client.wp_bind hi (D.ask (fun _ _ ↦ rfl) fun now s₁ s₂ h₁ _ _ h₂ hi₂ ↦ ?_)
  have h₁₂ := h₁.trans h₂
  exact D.waitLoop fuel hi₂ (fun s₃ s₄ h₃ ↦ hnone s₃ s₄ (h₁₂.trans h₃))
    (fun cm s₃ h₃ ↦ happlied cm s₃ (h₁₂.trans h₃)) (fun s₃ h₃ ↦ htaken s₃ (h₁₂.trans h₃))
    fun s₃ s₄ o j d h₃ ↦ hgaveUp s₃ s₄ o j d (h₁₂.trans h₃)

/-- Passing a remembered version. -/
theorem passMarker (D : Disciplined sem P) (hL : Local P i L) (fuel : ℕ)
    (hg : Good sem P i c L b t s) (hv : (p, v) ∈ t.prevMarkers) (hw : t.waiting = some (p, v))
    (hi : P.inv s) {Q : Bool → Txn → Store → Prop}
    (h : ∀ r t' s', QuietLater i s s' → P.inv s' → Waited t t' s s' → Good sem P i c L b t' s' →
      (r = true → Regular sem i c → t.Distinct → Passed t' s' (p, v)) → Q r t' s') :
    Client.wp sem P i (Tx.passMarker fuel p v) t Q s := by
  have hex : s.Exists p v := hg.sound.prevMarkers _ hv
  have hself : ∀ r s', QuietLater i s s' → P.inv s' →
      (r = true → Regular sem i c → Passed t s' (p, v)) → Q r t s' := fun r s' hs hi' hp ↦
    h r t s' hs hi' (.refl t hs.later) (hg.mono hL hs) fun hr hreg _ ↦ hp hr hreg
  refine Client.wp_bind hi (D.ask (fun _ _ ↦ rfl) fun r s₁ s₂ h₁ hi₁ ha h₂ hi₂ ↦ ?_)
  have h₁₂ := h₁.trans h₂
  cases r with
  | false =>
    refine Client.wp_pure fun s₃ h₃ hi₃ ↦ hself _ s₃ (h₁₂.trans (D.rely h₃)) hi₃ fun _ hreg ↦ ?_
    -- the answer is wrong
    obtain ⟨s₀, d, hs, -, -⟩ := ha
    have := hreg.check hs (.inr hw)
    rw [eq_comm, Option.isSome_eq_false_iff, Option.isNone_iff_eq_none] at this
    exact absurd (h₁.later.exists_mono hex) (by simp [Store.Exists, this])
  | true =>
    refine D.waitForMarker fuel hi₂ (fun s₃ s₄ h₃ ha' h₄ hi₄ ↦ ?_) (fun cm s₃ h₃ hi₃ hlog ↦ ?_)
      (fun s₃ h₃ hi₃ hlog ↦ ?_) fun s₃ s₄ o j d h₃ _ _ _ h₄ hi₄ ↦ ?_
    · refine hself _ s₄ (h₁₂.trans (h₃.trans h₄)) hi₄ fun _ hreg ↦ ?_
      obtain ⟨s₀, d, hs, -, -⟩ := ha'
      have := hreg.read hs (.inr hw)
      exact absurd ((h₁₂.trans h₃).later.exists_mono hex) (by simp [Store.Exists, ← this])
    · have hs := h₁₂.trans h₃
      have hp : t.Distinct → p ∈ t.tables.map (·.basePath) := fun hd ↦ by
        have := (hg.recalled' hd).opened _ hv
        simpa using this
      refine h true _ s₃ hs hi₃ (.concurrent hs.later p v cm) ?_
        fun _ _ hd ↦ .merged v cm hd (hp hd)
      exact (hg.mono hL hs).concurrent hL hlog hp fun hd tbl htbl he ↦
        .inl ((hg.recalled' hd).below _ hv tbl htbl he)
    · exact hself _ s₃ (h₁₂.trans h₃) hi₃ fun _ _ _ _ _ ↦ .inr hlog
    · exact hself _ s₄ (h₁₂.trans (h₃.trans h₄)) hi₄ (by simp)

theorem waitMarkers (D : Disciplined sem P) (hL : Local P i L) (fuel : ℕ) (ms : List (Table × ℕ))
    (hg : Good sem P i c L b t s) (hms : ms ⊆ t.prevMarkers) (hi : P.inv s)
    {Q : Bool → Txn → Store → Prop}
    (h : ∀ r t' s', QuietLater i s s' → P.inv s' → Waited t t' s s' → Good sem P i c L b t' s' →
      (r = true → Regular sem i c → t.Distinct → ∀ e ∈ ms, Passed t' s' e) → Q r t' s') :
    Client.wp sem P i (Tx.waitMarkers fuel ms) t Q s := by
  induction ms generalizing t s with
  | nil =>
    exact Client.wp_pure fun s' hs hi' ↦ h true t s' (D.rely hs) hi' (.refl t (D.rely hs).later)
      (hg.mono hL (D.rely hs)) (by simp)
  | cons e ms ih =>
    obtain ⟨p, v⟩ := e
    unfold Tx.waitMarkers
    have hg₀ : Good sem P i c L b { t with waiting := some (p, v) } s :=
      hg.aside hL rfl hg.sound.localLog
    refine Client.wp_modify_bind (Client.wp_bind hi
      (D.passMarker hL fuel hg₀ (hms List.mem_cons_self)
      rfl hi fun r t₁ s₁ h₁ hi₁ hw₁ hg₁ hpass₁ ↦ ?_))
    have hg₂ : Good sem P i c L b { t₁ with waiting := none } s₁ :=
      hg₁.aside hL rfl hg₁.sound.localLog
    have hw₂ : Waited t { t₁ with waiting := none } s s₁ :=
      ((Waited.waiting t s _).trans hw₁).trans (.waiting t₁ s₁ _)
    refine Client.wp_modify_bind ?_
    cases r with
    | false =>
      exact Client.wp_pure fun s₂ h₂ hi₂ ↦ h false _ s₂ (h₁.trans (D.rely h₂)) hi₂
        (hw₂.later (D.rely h₂).later) (hg₂.mono hL (D.rely h₂)) (by simp)
    | true =>
      have hms' : ms ⊆ ({ t₁ with waiting := none } : Txn).prevMarkers := by
        rw [hw₂.remembered]
        exact List.Subset.trans (List.subset_cons_self _ _) hms
      refine ih hg₂ hms' hi₁ fun r t' s' hs' hi' hw' hg' hpass' ↦ ?_
      refine h r t' s' (h₁.trans hs') hi' (hw₂.trans hw') hg' fun hr hreg hd e he ↦ ?_
      rcases List.mem_cons.mp he with rfl | he
      · exact hw'.passed _ (hpass₁ rfl hreg hd)
      · refine hpass' hr hreg ?_ e he
        rw [Txn.Distinct, hw₂.paths]
        exact hd

/-- The commit waits until every version below its reserved ones is final. -/
theorem waitAllMarkers (D : Disciplined sem P) (hL : Local P i L) (fuel : ℕ)
    (hg : Good sem P i c L b t s) (hm : c.levels.markers = true) (hi : P.inv s)
    {Q : Bool → Txn → Store → Prop}
    (hfalse : ∀ t' s', QuietLater i s s' → P.inv s' → Q false t' s')
    (htrue : ∀ t' s', QuietLater i s s' → P.inv s' → Good sem P i c L b t' s' →
      (Regular sem i c → t'.Usable → Caught P t' s') → Q true t' s') :
    Client.wp sem P i (Tx.waitAllMarkers fuel) t Q s := by
  induction fuel generalizing t s with
  | zero => exact Client.wp_diverge
  | succ fuel ih =>
    unfold Tx.waitAllMarkers
    refine Client.wp_get_bind (Client.wp_bind hi (D.waitMarkers hL fuel _ hg (List.Subset.refl _) hi
      fun r t₁ s₁ h₁ hi₁ hw₁ hg₁ hpass ↦ ?_))
    cases r with
    | true =>
      refine Client.wp_pure fun s₂ h₂ hi₂ ↦ htrue t₁ s₂ (h₁.trans (D.rely h₂)) hi₂
        (hg₁.mono hL (D.rely h₂)) fun hreg hu ↦ ?_
      refine (hg₁.caught hreg hu fun e he ↦ ?_).mono (D.rely h₂).later
      exact hpass rfl hreg (hw₁.distinct hu.distinct) e (hw₁.remembered ▸ he)
    | false =>
      refine Client.wp_get_bind (Client.wp_ite (fun _ ↦ ?_) fun _ ↦ ?_)
      · refine Client.wp_bind hi₁ (D.abort true hg₁.sound hi₁ fun t₂ s₂ h₂ hi₂ _ _ ↦ ?_)
        exact Client.wp_pure fun s₃ h₃ hi₃ ↦ hfalse t₂ s₃ (h₁.trans (h₂.trans (D.rely h₃))) hi₃
      · have hm₁ : t₁.markers = true := by rw [Txn.markers, hg₁.cfg, hm]
        refine Client.wp_bind hi₁ (D.reopenTables hL fuel hg₁ (.inl hm₁) hi₁
          fun r t₂ s₂ h₂ hi₂ _ hsome hgood hnone ↦ Client.wp_modify_bind ?_)
        have hg₂ : Good sem P i c L b
            { t₂ with hazards := if r then t₂.hazards else .reopenFailed :: t₂.hazards } s₂ := by
          cases r with
          | true => exact hgood rfl
          | false =>
            obtain ⟨js', hg'⟩ := hsome
            exact hg'.failed (hnone rfl)
        exact ih hg₂ hi₂ (fun t' s' hs' ↦ hfalse t' s' (h₁.trans (h₂.trans hs')))
          fun t' s' hs' ↦ htrue t' s' (h₁.trans (h₂.trans hs'))

/-- The first step of a round. -/
theorem waitPhase (D : Disciplined sem P) (hL : Local P i L) (fuel : ℕ)
    (hg : Good sem P i c L b t s) (hi : P.inv s) {Q : Bool → Txn → Store → Prop}
    (hfalse : ∀ t' s', QuietLater i s s' → P.inv s' → Q false t' s')
    (htrue : ∀ t' s', QuietLater i s s' → P.inv s' → Good sem P i c L b t' s' →
      (Regular sem i c → t'.Usable → Caught P t' s') → Q true t' s') :
    Client.wp sem P i (Tx.waitPhase fuel) t Q s := by
  refine Client.wp_get_bind (Client.wp_ite (fun hm ↦ ?_) fun hm ↦ ?_)
  · refine D.waitAllMarkers hL fuel hg ?_ hi hfalse htrue
    rw [← hg.cfg]
    exact hm
  refine Client.wp_pure fun s' hs hi' ↦ htrue t s' (D.rely hs) hi' (hg.mono hL (D.rely hs))
    fun hreg hu ↦ (hg.caught hreg hu fun e he ↦ ?_).mono (D.rely hs).later
  exact absurd ((hg.recalled' hu.distinct).markers (List.ne_nil_of_mem he)) hm

end Disciplined

end LakeVilla

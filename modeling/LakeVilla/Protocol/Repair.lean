import LakeVilla.Protocol.Redo
import LakeVilla.Protocol.Global

/-!
# Catching up without markers

A transaction without markers merges versions at commit time: those of the tables that it only read
(`collectUnseenVersions`), and those that are missing in a global log which fell behind
(`waitVersions`). After a repair of the global log the transaction claims a later version
(`moveBehind`).
-/

namespace LakeVilla

open Concurrency

/-! ## Merging versions -/

/-- Versions were merged into snapshots. -/
structure Txn.Merges (t t' : Txn) : Prop extends t.Grows t' where
  tables : List.Forall₂ (fun a b ↦ b.basePath = a.basePath ∧ b.committed = a.committed ∧
    b.markerVersion = a.markerVersion ∧ a.deltaLog.versions ⊆ b.deltaLog.versions)
    t.tables t'.tables

namespace Txn.Merges

variable {t t' t'' : Txn}

theorem refl (t : Txn) : t.Merges t :=
  ⟨.refl t, List.forall₂_same.mpr fun _ _ ↦ ⟨rfl, rfl, rfl, List.Subset.refl _⟩⟩

theorem trans (h : t.Merges t') (h' : t'.Merges t'') : t.Merges t'' where
  toGrows := h.toGrows.trans h'.toGrows
  tables := h.tables.comp (fun ⟨h₁, h₂, h₃, h₄⟩ ⟨h₁', h₂', h₃', h₄'⟩ ↦
    ⟨h₁'.trans h₁, h₂'.trans h₂, h₃'.trans h₃, List.Subset.trans h₄ h₄'⟩) h'.tables

theorem paths (h : t.Merges t') : t'.tables.map (·.basePath) = t.tables.map (·.basePath) := by
  have hts := h.tables
  generalize t.tables = ts at hts
  generalize t'.tables = ts' at hts
  induction hts with
  | nil => rfl
  | cons hab _ ih => rw [List.map_cons, List.map_cons, ih, hab.1]

theorem caught {P : Protocol TxnId Txn Response Store} {s : Store} (h : t.Merges t')
    (hc : Caught P t s) : Caught P t' s := by
  intro x hx u hu
  obtain ⟨y, hy, hp, -, hmv, hv⟩ := h.tables.exists_left hx
  rw [hp, h.markers]
  exact (hc y hy u (hmv ▸ hu)).imp_left fun hs ↦ hs.mono .refl hv (List.Subset.refl _)

theorem concurrent (t : Txn) (p : Table) (u : ℕ) (c : Commit) :
    t.Merges (t.applyConcurrent p u c) where
  toGrows := t.applyConcurrent_grows p u c
  tables := List.forall₂_modify (fun _ ↦ ⟨rfl, rfl, rfl, List.Subset.refl _⟩) fun _ _ ↦
    ⟨rfl, rfl, rfl, List.subset_cons_self _ _⟩

theorem reread (t : Txn) (j v : ℕ) :
    t.Merges (t.modifyTable j fun tbl ↦ { tbl with readVersion := v }) where
  toGrows := .modifyTable ..
  tables := List.forall₂_modify (fun _ ↦ ⟨rfl, rfl, rfl, List.Subset.refl _⟩) fun _ _ ↦
    ⟨rfl, rfl, rfl, List.Subset.refl _⟩

end Txn.Merges

theorem Txn.remember_nil (t : Txn) (p : Table) : t.remember p [] = t := by
  simp [Txn.remember]

/-- The read version of a table is raised. -/
theorem Loading.reread {sem : Semantics TxnId Txn Response Store}
    {P : Protocol TxnId Txn Response Store} {i : TxnId} {c : Config} {L : Bool → Txn → Store → Prop}
    {b : Bool} {t : Txn} {s : Store} {j : ℕ} {tbl : TableStats} {v : ℕ} (hL : Local P i L)
    (hg : Good sem P i c L b t s) (hj : t.tables[j]? = some tbl) (hv : s.Exists tbl.basePath v) :
    Good sem P i c L b (t.modifyTable j fun tbl ↦ { tbl with readVersion := v }) s := by
  have hres := hg.sound.tables tbl (List.mem_of_getElem? hj)
  have hmoved : tbl.Moved { tbl with readVersion := v } := rfl
  have hnone : ∀ u ∈ ([] : List ℕ), s.Exists tbl.basePath u ∧ u < tbl.markerVersion := by simp
  have := hg.move hL hj hmoved (Nat.le_refl _) rfl
    ⟨hres.marker, hres.before, hres.placed, hv⟩ hnone (by simp) fun hr hu ↦ by
      rw [Txn.remember_nil]
      have ht := (hg.tracks hr hu j tbl hj (by simp)).mono
        (Txn.Grows.modifyTable t j fun _ ↦ { tbl with readVersion := v }) .refl
      exact ⟨ht.fresh, ht.logged, ht.below, ht.covered, ht.checked⟩
  rw [Txn.remember_nil] at this
  rwa [Txn.modifyTable_const hj]

namespace Disciplined

variable {sem : Semantics TxnId Txn Response Store} {P : Protocol TxnId Txn Response Store}
variable {i : TxnId} {c : Config} {L : Bool → Txn → Store → Prop} {b : Bool}
variable {t : Txn} {s : Store} {p : Table} {v : ℕ}

/-- Waiting for a version, of a table that is opened, without markers. -/
theorem waitUnseen (D : Disciplined sem P) (hL : Local P i L) (fuel : ℕ)
    (hg : Good sem P i c L b t s) (hm : t.markers = false) (hp : p ∈ t.tables.map (·.basePath))
    (hex : s.Exists p v) (hi : P.inv s) {Q : Bool → Txn → Store → Prop}
    (h : ∀ r t' s', QuietLater i s s' → P.inv s' → t.Merges t' → Good sem P i c L b t' s' →
      (Regular sem i c → t'.Distinct → ∀ tbl ∈ t'.tables, tbl.basePath = p →
        Seen P t'.markers s' p tbl.deltaLog.versions t'.prevMarkers v ∨ s'.log p v = some []) →
      Q r t' s') :
    Client.wp sem P i (Tx.waitForMarker fuel p v) t Q s := by
  refine D.waitForMarker fuel hi (fun s₁ s₂ h₁ ha h₂ hi₂ ↦ ?_) (fun cm s' hs hi' hlog ↦ ?_)
    (fun s' hs hi' hlog ↦ ?_) fun s₁ s₂ o j d h₁ hi₁ ho hc h₂ hi₂ ↦ ?_
  · refine h _ t s₂ (h₁.trans h₂) hi₂ (.refl t) (hg.mono hL (h₁.trans h₂)) fun hreg _ ↦ ?_
    -- the version exists, so the answer is wrong
    obtain ⟨s₀, d, hs, -, -⟩ := ha
    have hn := hreg.read hs (.inl (by rw [← hg.cfg]; exact hm))
    exact absurd (h₁.later.exists_mono hex) (by simp [Store.Exists, ← hn])
  · refine h _ _ s' hs hi' (.concurrent t p v cm)
      ((hg.mono hL hs).concurrent hL hlog (fun _ ↦ hp) fun _ _ _ _ ↦ .inr hm) fun _ hd x hx hxp ↦ ?_
    have hd' : t.Distinct := by
      rw [Txn.Distinct, ← t.applyConcurrent_paths p v cm]
      exact hd
    exact (Passed.merged v cm hd' hp x hx hxp).imp_left .inl
  · exact h _ t s' hs hi' (.refl t) (hg.mono hL hs) fun _ _ _ _ _ ↦ .inr hlog
  · refine h _ t s₂ (h₁.trans h₂) hi₂ (.refl t) (hg.mono hL (h₁.trans h₂)) fun _ _ _ _ _ ↦ ?_
    exact .inl (.inr (.inr ⟨hm, s₁, o, j, d, h₂.later, hi₁, ho, hc⟩))

/-! ## Tables that were only read -/

theorem collectTable (D : Disciplined sem P) (hL : Local P i L) (j fuel : ℕ) {tbl : TableStats}
    (hg : Good sem P i c L b t s) (hm : t.markers = false)
    (hj : ∃ x, t.tables[j]? = some x ∧ x.basePath = tbl.basePath) (hi : P.inv s)
    {Q : Unit → Txn → Store → Prop}
    (h : ∀ t' s', QuietLater i s s' → P.inv s' → t.Merges t' → Good sem P i c L b t' s' →
      Q () t' s') :
    Client.wp sem P i (Tx.collectTable j fuel tbl v) t Q s := by
  induction fuel generalizing t s v with
  | zero => exact Client.wp_diverge
  | succ fuel ih =>
    unfold Tx.collectTable
    refine Client.wp_bind hi (D.ask (fun _ _ ↦ rfl) fun r s₁ s₂ h₁ _ ha h₂ hi₂ ↦ ?_)
    have h₁₂ := h₁.trans h₂
    cases r with
    | false =>
      exact Client.wp_pure fun s₃ h₃ hi₃ ↦ h t s₃ (h₁₂.trans (D.rely h₃)) hi₃ (.refl t)
        (hg.mono hL (h₁₂.trans (D.rely h₃)))
    | true =>
      have hex : s₂.Exists tbl.basePath v := h₂.later.exists_mono ha.check
      obtain ⟨x, hx, hxp⟩ := hj
      have hp : tbl.basePath ∈ t.tables.map (·.basePath) :=
        List.mem_map.mpr ⟨x, List.mem_of_getElem? hx, hxp⟩
      refine Client.wp_bind hi₂ (D.waitUnseen hL _ (hg.mono hL h₁₂) hm hp hex hi₂
        fun _ t₁ s₃ h₃ hi₃ hm₁ hg₁ _ ↦ Client.wp_modify_bind ?_)
      have hex₃ := h₃.later.exists_mono hex
      obtain ⟨y, hy, hyx, -⟩ := hm₁.tables.getElem?_right hx
      refine ih (hg₁.reread hL hy (by rw [hyx, hxp]; exact hex₃)) (hm₁.markers.trans hm) ?_ hi₃
        fun t' s' hs' hi' hm' ↦
          h t' s' (h₁₂.trans (h₃.trans hs')) hi' (hm₁.trans ((Txn.Merges.reread t₁ j v).trans hm'))
      refine ⟨{ y with readVersion := v }, ?_, hyx.trans hxp⟩
      show (t₁.tables.modify j _)[j]? = _
      rw [List.getElem?_modify_eq, hy]
      rfl

theorem collectTables (D : Disciplined sem P) (hL : Local P i L) (fuel : ℕ) (js : List ℕ)
    (hg : Good sem P i c L b t s) (hm : t.markers = false) (hi : P.inv s)
    {Q : Unit → Txn → Store → Prop}
    (h : ∀ t' s', QuietLater i s s' → P.inv s' → t.Merges t' → Good sem P i c L b t' s' →
      Q () t' s') :
    Client.wp sem P i (Tx.collectTables fuel js) t Q s := by
  induction js generalizing t s with
  | nil =>
    exact Client.wp_pure fun s' hs hi' ↦ h t s' (D.rely hs) hi' (.refl t) (hg.mono hL (D.rely hs))
  | cons j js ih =>
    refine Client.wp_get_bind ?_
    split
    · next tbl hj =>
      refine Client.wp_bind hi (Client.wp_when (fun _ ↦ ?_) fun _ s₁ h₁ hi₁ ↦ ?_)
      · refine D.collectTable hL j fuel hg hm ⟨tbl, hj, rfl⟩ hi fun t₁ s₁ h₁ hi₁ hm₁ hg₁ ↦ ?_
        exact ih hg₁ (hm₁.markers.trans hm) hi₁ fun t' s' hs' hi' hm' ↦
          h t' s' (h₁.trans hs') hi' (hm₁.trans hm')
      · exact ih (hg.mono hL (D.rely h₁)) hm hi₁ fun t' s' hs' ↦ h t' s' ((D.rely h₁).trans hs')
    · exact ih hg hm hi h

theorem collectUnseenVersions (D : Disciplined sem P) (hL : Local P i L) (fuel : ℕ)
    (hg : Good sem P i c L b t s) (hi : P.inv s) {Q : Unit → Txn → Store → Prop}
    (h : ∀ t' s', QuietLater i s s' → P.inv s' → t.Merges t' → Good sem P i c L b t' s' →
      Q () t' s') :
    Client.wp sem P i (Tx.collectUnseenVersions fuel) t Q s := by
  refine Client.wp_get_bind (Client.wp_ite (fun _ ↦ ?_) fun hn ↦ ?_)
  · exact Client.wp_pure fun s' hs hi' ↦ h t s' (D.rely hs) hi' (.refl t) (hg.mono hL (D.rely hs))
  · refine D.collectTables hL fuel _ hg ?_ hi h
    simp only [Bool.or_eq_true, not_or, Bool.not_eq_true] at hn
    simp [Txn.markers, Levels.markers, hn.1.1.1, hn.1.1.2]

end Disciplined

/-! ## Repair of the global log -/

namespace Disciplined

variable {sem : Semantics TxnId Txn Response Store} {P : Protocol TxnId Txn Response Store}
variable {i : TxnId} {c : Config} {L : Bool → Txn → Store → Prop} {b : Bool}
variable {t : Txn} {s : Store} {p : Table} {v : ℕ}

theorem highestCommitted (D : Disciplined sem P) (fuel : ℕ) (hv : s.Exists p (v - 1))
    (hi : P.inv s) {Q : Option ℕ → Txn → Store → Prop}
    (h : ∀ r s', QuietLater i s s' → P.inv s' → (∀ h, r = some h → s'.Exists p h) → Q r t s') :
    Client.wp sem P i (Tx.highestCommitted p fuel v) t Q s := by
  induction fuel generalizing s v with
  | zero => exact Client.wp_diverge
  | succ fuel ih =>
    unfold Tx.highestCommitted
    refine Client.wp_bind hi (D.classifyVersion hi fun r s₁ h₁ hi₁ hex ↦ ?_)
    have hnext : r ≠ .missing → Client.wp sem P i (Tx.highestCommitted p fuel (v + 1)) t Q s₁ :=
      fun hr ↦ ih (by simpa using hex hr) hi₁ fun r s' hs' ↦ h r s' (h₁.trans hs')
    cases r with
    | missing =>
      exact Client.wp_pure fun s₂ h₂ hi₂ ↦ h _ s₂ (h₁.trans (D.rely h₂)) hi₂ fun x hx ↦
        Option.some.inj hx ▸ (h₁.trans (D.rely h₂)).later.exists_mono hv
    | marker =>
      exact Client.wp_pure fun s₂ h₂ hi₂ ↦ h _ s₂ (h₁.trans (D.rely h₂)) hi₂ (by simp)
    | empty => exact hnext (by simp)
    | lakeVillaCommit => exact hnext (by simp)
    | foreignCommit => exact hnext (by simp)

theorem waitVersions (D : Disciplined sem P) (hL : Local P i L) (fuel : ℕ) (vs : List ℕ)
    (hg : Good sem P i c L b t s) (hm : t.markers = false) (hp : p ∈ t.tables.map (·.basePath))
    (hex : ∀ v ∈ vs, s.Exists p v) (hi : P.inv s) {Q : Unit → Txn → Store → Prop}
    (h : ∀ t' s', QuietLater i s s' → P.inv s' → t.Merges t' → Good sem P i c L b t' s' →
      (Regular sem i c → t'.Distinct → ∀ v ∈ vs, ∀ tbl ∈ t'.tables, tbl.basePath = p →
        Seen P t'.markers s' p tbl.deltaLog.versions t'.prevMarkers v ∨ s'.log p v = some []) →
      Q () t' s') :
    Client.wp sem P i (Tx.waitVersions fuel p vs) t Q s := by
  induction vs generalizing t s with
  | nil =>
    exact Client.wp_pure fun s' hs hi' ↦ h t s' (D.rely hs) hi' (.refl t) (hg.mono hL (D.rely hs))
      (by simp)
  | cons v vs ih =>
    unfold Tx.waitVersions
    refine Client.wp_bind hi (D.waitUnseen hL fuel hg hm hp (hex v List.mem_cons_self) hi
      fun _ t₁ s₁ h₁ hi₁ hm₁ hg₁ hseen ↦ ?_)
    refine ih hg₁ (hm₁.markers.trans hm) (hm₁.paths ▸ hp)
      (fun u hu ↦ h₁.later.exists_mono (hex u (List.mem_cons_of_mem _ hu))) hi₁
      fun t' s' hs' hi' hm' hg' hseen' ↦ h t' s' (h₁.trans hs') hi' (hm₁.trans hm') hg' ?_
    intro hreg hd u hu x hx hxp
    rcases List.mem_cons.mp hu with rfl | hu
    · have hd₁ : t₁.Distinct := by
        rw [Txn.Distinct, ← hm'.paths]
        exact hd
      obtain ⟨y, hy, hyp, -, -, hsub⟩ := hm'.tables.exists_left hx
      refine (hseen hreg hd₁ y hy (hyp ▸ hxp)).imp (fun hs ↦ ?_) hs'.later.log_mono
      exact hm'.markers ▸ hs.mono hs'.later hsub hm'.prevMarkers
    · exact hseen' hreg hd u hu x hx hxp

/-- The transaction claims the version after the highest one. -/
theorem moveBehind (D : Disciplined sem P) (hL : Local P i L) (fuel : ℕ) {j highest : ℕ}
    {tbl : TableStats} (hg : Good sem P i c L b t s) (hm : t.markers = false)
    (hj : t.tables[j]? = some tbl) (hcm : tbl.committed = false)
    (hle : tbl.markerVersion ≤ highest) (hex : s.Exists tbl.basePath highest) (hi : P.inv s)
    {Q : Bool → Txn → Store → Prop}
    (h : ∀ r t' s', QuietLater i s s' → P.inv s' → Good sem P i c L b t' s' → Q r t' s') :
    Client.wp sem P i (Tx.moveBehind fuel j tbl.basePath tbl.markerVersion highest) t Q s := by
  have hp : tbl.basePath ∈ t.tables.map (·.basePath) :=
    List.mem_map.mpr ⟨tbl, List.mem_of_getElem? hj, rfl⟩
  have hbelow : ∀ v ∈ List.range' tbl.markerVersion (highest + 1 - tbl.markerVersion),
      s.Exists tbl.basePath v := fun v hv ↦ by
    rw [List.mem_range'_1] at hv
    exact (D.wf hi).below (by omega) hex
  unfold Tx.moveBehind
  refine Client.wp_bind hi (D.waitVersions hL fuel _ hg hm hp hbelow hi
    fun t₁ s₁ h₁ hi₁ hm₁ hg₁ hseen ↦ Client.wp_get_bind ?_)
  obtain ⟨y, hy, hyp, hyc, hymv, -⟩ := hm₁.tables.getElem?_right hj
  have hm₁' : t₁.markers = false := hm₁.markers.trans hm
  have hres := hg₁.sound.tables y (List.mem_of_getElem? hy)
  have hex₁ : s₁.Exists y.basePath highest := hyp ▸ h₁.later.exists_mono hex
  simp only [hy]
  refine Client.wp_bind hi₁ (D.reserveVersion fuel { y with readVersion := highest }
    hg₁.sound.id (fun mk hmk ↦ ?_) hex₁ hi₁
    fun h' mk s₂ h₂ hi₂ _ hnew _ heq ↦ ?_)
  · obtain ⟨mk', hmk', -, -, hheld⟩ := hres.marker
    exact Option.some.inj (hmk'.symm.trans hmk) ▸ hheld
  obtain rfl := heq hm₁'
  refine Client.wp_modify_bind (Client.wp_pure fun s₃ h₃ hi₃ ↦ ?_)
  have h₁₃ := h₂.trans (D.rely h₃)
  refine h true _ s₃ (h₁.trans h₁₃) hi₃ ?_
  have hnew₃ := hnew.mono (D.rely h₃)
  have hmoved : y.Moved { y with readVersion := h', marker := some mk, markerVersion := h' + 1 } :=
    rfl
  have hnone : ∀ u ∈ ([] : List ℕ), s₃.Exists y.basePath u ∧ u < h' + 1 := by simp
  have hmove := (hg₁.mono hL h₁₃).move hL hy hmoved (by dsimp only; omega) rfl
    ⟨⟨mk, rfl, hnew₃.table, hnew₃.version, hnew₃.held⟩, hnew₃.before, fun hf ↦ ?_,
      h₁₃.later.exists_mono hex₁⟩ hnone (by simp) fun hr hu ↦ ?_
  · rwa [Txn.remember_nil] at hmove
  · rcases hf with hf | hf
    · rw [hm₁'] at hf
      cases hf
    · rw [hyc, hcm] at hf
      cases hf
  · rw [Txn.remember_nil]
    have ht := (hg₁.tracks hr hu j y hy (by simp)).mono (Txn.Grows.refl t₁) h₁₃
    refine ⟨fun hf ↦ ?_, ht.logged, fun _ _ ↦ .inr hm₁', fun u hlt ↦ ?_, ht.checked⟩
    · have hf : t₁.markers = true := hf
      rw [hm₁'] at hf
      cases hf
    · dsimp only at hlt ⊢
      by_cases hu' : u < y.markerVersion
      · exact ht.covered u hu'
      · refine (hseen hr hu.distinct u ?_ y (List.mem_of_getElem? hy) hyp).imp (fun hs ↦ ?_)
          fun hl ↦ hyp ▸ h₁₃.later.log_mono hl
        · rw [List.mem_range'_1]
          omega
        · rw [hyp]
          exact hs.mono h₁₃.later (List.Subset.refl _) (List.Subset.refl _)

end Disciplined

end LakeVilla

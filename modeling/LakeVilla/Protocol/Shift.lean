import LakeVilla.Protocol.Wait

/-!
# Moving to a later version

A transaction whose lease ends, or whose version was taken over, reserves a later version. It knows
that the old version will never hold actions, and it remembers the versions in between.
-/

namespace LakeVilla

open Concurrency

theorem Txn.modifyTable_const {t : Txn} {j : ℕ} {tbl : TableStats} (hj : t.tables[j]? = some tbl)
    (f : TableStats → TableStats) : t.modifyTable j f = t.modifyTable j fun _ ↦ f tbl := by
  rw [Txn.modifyTable, Txn.modifyTable, List.modify_eq_of_getElem? hj]

namespace Loading

variable {sem : Semantics TxnId Txn Response Store} {P : Protocol TxnId Txn Response Store}
variable {i : TxnId} {c : Config} {L : Bool → Txn → Store → Prop} {b : Bool}
variable {t : Txn} {s : Store} {j : ℕ} {tbl tbl' : TableStats} {vs : List ℕ}

/-- The reserved version of a table changes, and versions below it are remembered. -/
theorem move (hL : Local P i L) (hg : Good sem P i c L b t s) (hj : t.tables[j]? = some tbl)
    (hmv : tbl.Moved tbl') (hle : tbl.markerVersion ≤ tbl'.markerVersion)
    (hcm : tbl'.committed = tbl.committed) (hres : Reserved i t.markers s tbl')
    (hvs : ∀ v ∈ vs, s.Exists tbl.basePath v ∧ v < tbl'.markerVersion)
    (hmk : vs ≠ [] → t.markers = true)
    (htr : Regular sem i c → t.Usable →
      Tracks P i ((t.modifyTable j fun _ ↦ tbl').remember tbl.basePath vs) s tbl') :
    Good sem P i c L b ((t.modifyTable j fun _ ↦ tbl').remember tbl.basePath vs) s := by
  have hpaths : (t.modifyTable j fun _ ↦ tbl').tables.map (·.basePath) =
      t.tables.map (·.basePath) := by
    refine List.map_modify_eq _ fun a ha ↦ ?_
    rw [hmv.basePath, Option.some.inj (hj.symm.trans ha)]
  have hmem : ∀ {x}, x ∈ (t.modifyTable j fun _ ↦ tbl').tables → x ∈ t.tables ∨ x = tbl' := by
    intro x hx
    exact (List.mem_modify hx).imp_right fun ⟨_, _, hx⟩ ↦ hx
  have husable : ((t.modifyTable j fun _ ↦ tbl').remember tbl.basePath vs).Usable → t.Usable :=
    fun hu ↦ ⟨by rw [Txn.Distinct, ← hpaths]; exact hu.distinct, hu.opened⟩
  have hgr : t.Grows ((t.modifyTable j fun _ ↦ tbl').remember tbl.basePath vs) :=
    ⟨rfl, List.subset_append_left _ _, List.Subset.refl _, fun h ↦ h⟩
  have hframe : t.Frame ((t.modifyTable j fun _ ↦ tbl').remember tbl.basePath vs) := by
    refine ⟨rfl, List.forall₂_modify TableStats.Moved.refl fun a ha ↦ ?_, .inl rfl,
      List.Subset.refl _⟩
    obtain rfl := Option.some.inj (hj.symm.trans ha)
    exact hmv
  exact
    { sound :=
        { id := hg.sound.id
          tables := fun x hx ↦ by
            rcases hmem hx with hx | rfl
            · exact hg.sound.tables x hx
            · exact hres
          localLog := hg.sound.localLog
          prevMarkers := fun e he ↦ by
            rcases List.mem_append.mp he with he | he
            · exact hg.sound.prevMarkers e he
            · obtain ⟨v, hv, rfl⟩ := List.mem_map.mp he
              exact (hvs v hv).1 }
      cfg := hg.cfg
      recalled := fun hd ↦ by
        have hd' : t.Distinct := by
          rw [Txn.Distinct, ← hpaths]
          exact hd.distinct
        have hrec := hg.recalled' hd'
        refine ⟨fun hne ↦ ?_, fun e he x hx hxe ↦ ?_, by simp, fun e he ↦ ?_⟩
        · rcases eq_or_ne vs [] with rfl | hvs'
          · simp only [Txn.remember, Txn.modifyTable, List.map_nil, List.append_nil] at hne
            exact hrec.markers hne
          · exact hmk hvs'
        · obtain ⟨a, ha⟩ := List.getElem?_of_mem hx
          rcases List.getElem?_modify_eq_some ha with ⟨-, -, -, rfl⟩ | ⟨hne, ha'⟩
          · rcases List.mem_append.mp he with he | he
            · rw [hmv.basePath] at hxe
              exact lt_of_lt_of_le (hrec.below e he tbl (List.mem_of_getElem? hj) hxe) hle
            · obtain ⟨v, hv, rfl⟩ := List.mem_map.mp he
              exact (hvs v hv).2
          · rcases List.mem_append.mp he with he | he
            · exact hrec.below e he x (List.mem_of_getElem? ha') hxe
            · obtain ⟨v, hv, rfl⟩ := List.mem_map.mp he
              exact absurd (hd'.index_eq ha' hj hxe) hne
        · rw [List.map_nil, List.append_nil]
          show e.1 ∈ (t.modifyTable j fun _ ↦ tbl').tables.map (·.basePath)
          rw [hpaths]
          rcases List.mem_append.mp he with he | he
          · simpa using hrec.opened e he
          · obtain ⟨v, hv, rfl⟩ := List.mem_map.mp he
            exact List.mem_map.mpr ⟨tbl, List.mem_of_getElem? hj, rfl⟩
      uncommitted := fun hf x hx ↦ by
        rcases hmem hx with hx | rfl
        · exact hg.uncommitted hf x hx
        · rw [hcm]
          exact hg.uncommitted hf tbl (List.mem_of_getElem? hj)
      tracks := fun hr hu a x ha hn ↦ by
        rcases List.getElem?_modify_eq_some ha with ⟨-, -, -, rfl⟩ | ⟨-, ha'⟩
        · exact htr hr (husable hu)
        · exact (hg.tracks hr (husable hu) a x ha' hn).mono hgr .refl
      locally := fun hr htr' hn hu ↦ hL.frame (hg.locally hr htr' hn (husable hu)) hframe
      opened := hg.opened
      owns := hg.owns.modify rfl fun a ha ↦ by
        obtain rfl := Option.some.inj (hj.symm.trans ha)
        rw [hmv]
        exact ⟨rfl, hcm, rfl⟩ }

end Loading

/-- The transaction may have found out that the marker of table `j` is lost. -/
inductive Lost (sem : Semantics TxnId Txn Response Store) (i : TxnId) (c : Config) (j : ℕ)
    (tbl : TableStats) (s : Store) (t : Txn) : Txn → Prop
  | kept : Lost sem i c j tbl s t t
  | lost (mk : Marker) (hmk : tbl.marker = some mk)
    (h : Regular sem i c → t.Usable → s.log tbl.basePath tbl.markerVersion = some []) :
    Lost sem i c j tbl s t (t.modifyTable j fun tbl ↦ { tbl with marker := some mk.setInvalid })

/-- The table as the transaction has it then. -/
theorem Lost.table {sem : Semantics TxnId Txn Response Store} {i : TxnId} {c : Config} {j : ℕ}
    {tbl : TableStats} {s : Store} {t t' : Txn} {mk : Marker} (h : Lost sem i c j tbl s t t')
    (hj : t.tables[j]? = some tbl) (hmk : tbl.marker = some mk) :
    t'.markers = t.markers ∧ t'.transactionId = t.transactionId ∧ ∃ mk',
      t'.tables[j]? = some { tbl with marker := some mk' } ∧
      (mk' = mk ∨ mk' = mk.setInvalid ∧
        (Regular sem i c → t.Usable → s.log tbl.basePath tbl.markerVersion = some [])) ∧
      ∀ x, t'.modifyTable j (fun _ ↦ x) = t.modifyTable j fun _ ↦ x := by
  cases h with
  | kept =>
    refine ⟨rfl, rfl, mk, ?_, .inl rfl, fun _ ↦ rfl⟩
    rw [hj, ← hmk]
  | lost mk' hmk' h =>
    obtain rfl := Option.some.inj (hmk.symm.trans hmk')
    refine ⟨rfl, rfl, mk.setInvalid, ?_, .inr ⟨rfl, h⟩, fun x ↦ ?_⟩
    · simp [Txn.modifyTable, hj]
    · simp only [Txn.modifyTable]
      congr 1
      rw [List.modify_modify_eq]
      rfl

namespace Disciplined

variable {sem : Semantics TxnId Txn Response Store} {P : Protocol TxnId Txn Response Store}
variable {i : TxnId} {c : Config} {L : Bool → Txn → Store → Prop} {b : Bool}
variable {t t' : Txn} {s : Store}

theorem releaseMarker (D : Disciplined sem P) {m : Option Marker}
    (hm : ∀ mk, m = some mk → mk.Held i t.markers s) (hi : P.inv s)
    {Q : Option Marker → Txn → Store → Prop}
    (h : ∀ m' s', QuietLater i s s' → P.inv s' →
      (∀ mk', m' = some mk' → ∃ mk, m = some mk ∧ (mk' = mk.setInvalid ∨ mk' = mk)) →
      (Reliable sem i → ∀ mk, m = some mk → mk.valid = true → mk.Open i s →
        s'.log mk.table mk.version = some []) → Q m' t s') :
    Client.wp sem P i (Tx.releaseMarker m) t Q s := by
  cases m with
  | none =>
    exact Client.wp_pure fun s' hs hi' ↦ h none s' (D.rely hs) hi' (by simp) (by simp)
  | some mk =>
    refine Client.wp_bind hi (D.release (hm mk rfl) hi fun ok mk' s₁ h₁ hi₁ hr ↦ ?_)
    refine Client.wp_pure fun s₂ h₂ hi₂ ↦ h _ s₂ (h₁.trans (D.rely h₂)) hi₂ (fun x hx ↦ ?_)
      fun hrel x hx hv ho ↦ ?_
    · obtain rfl := Option.some.inj hx
      exact ⟨mk, rfl, hr.marker.imp_right (·.1)⟩
    · obtain rfl := Option.some.inj hx
      exact (D.rely h₂).later.log_mono (hr.empty hrel hv ho)

/-- Moving table `j` to a later version. -/
theorem shiftMarker (D : Disciplined sem P) (hL : Local P i L) (fuel : ℕ) {j : ℕ}
    {tbl : TableStats} (hg : Good sem P i c L b t s) (hj : t.tables[j]? = some tbl)
    (hm : t.markers = true) (hcm : tbl.committed = false)
    (hl : Lost sem i c j tbl s t t') (hi : P.inv s) {Q : Unit → Txn → Store → Prop}
    (h : ∀ t' s', QuietLater i s s' → P.inv s' → Good sem P i c L b t' s' → Q () t' s') :
    Client.wp sem P i (Tx.shiftMarker fuel j) t' Q s := by
  have htbl := hg.sound.tables tbl (List.mem_of_getElem? hj)
  obtain ⟨mk, hmk, hmt, hmv, hheld⟩ := htbl.marker
  obtain ⟨hms, hid, mk₀, hj', hmk₀, hover⟩ := hl.table hj hmk
  have hheld₀ : mk₀.Held i t.markers s := by
    rcases hmk₀ with rfl | ⟨rfl, -⟩
    · exact hheld
    · exact hheld.setInvalid
  unfold Tx.shiftMarker
  refine Client.wp_get_bind ?_
  rw [hj']
  refine Client.wp_bind hi (D.releaseMarker (fun mk' hmk' ↦
    Option.some.inj hmk' ▸ hms ▸ hheld₀) hi fun m' s₁ h₁ hi₁ hm' hempty ↦ ?_)
  refine Client.wp_bind hi₁ (D.reserveVersion fuel _ (hid.trans hg.sound.id) ?_ ?_ hi₁
    fun h' mk' s₂ h₂ hi₂ hle hnew _ _ ↦ ?_)
  · intro mk' hmk'
    obtain ⟨mk'', hmk'', hx⟩ := hm' mk' hmk'
    obtain rfl := Option.some.inj hmk''
    rw [hms]
    rcases hx with rfl | rfl
    · exact (hheld₀.mono h₁.later).setInvalid
    · exact hheld₀.mono h₁.later
  · exact h₁.later.exists_mono (htbl.placed (.inl hm))
  · refine Client.wp_modify_bind (Client.wp_modify fun s₃ h₃ hi₃ ↦ ?_)
    have h₁₃ := h₂.trans (D.rely h₃)
    rw [hms] at hnew
    have hnew₃ := hnew.mono (D.rely h₃)
    have hex : ∀ u ≤ h', s₃.Exists tbl.basePath u := fun u hu ↦
      (D.wf hi₃).below hu hnew₃.before
    refine h _ s₃ (h₁.trans h₁₃) hi₃ ?_
    have hover' := hover { tbl with marker := some mk', markerVersion := h' + 1 }
    rw [Txn.modifyTable] at hover'
    dsimp only
    rw [hover']
    refine (hg.mono hL (h₁.trans h₁₃)).move hL hj ?_ ?_ ?_ ?_ ?_ ?_ ?_
    · rfl
    · exact Nat.le_succ_of_le hle
    · rfl
    · exact ⟨⟨mk', rfl, hnew₃.table, hnew₃.version, hnew₃.held⟩, hnew₃.before,
        fun _ ↦ (hnew₃.placed hm).2.2, (h₁.trans h₁₃).later.exists_mono htbl.read⟩
    · intro v hv
      rw [List.mem_range'_1] at hv
      dsimp only at hv ⊢
      exact ⟨hex v (by omega), by omega⟩
    · exact fun _ ↦ hm
    · intro hr hu
      have ht := hg.tracks hr hu j tbl hj (by simp)
      obtain ⟨mk₁, hmk₁, hval, hopen⟩ := ht.fresh hm hcm
      obtain rfl := Option.some.inj (hmk.symm.trans hmk₁)
      have hlog : s₃.log tbl.basePath tbl.markerVersion = some [] := by
        rcases hmk₀ with rfl | ⟨rfl, hlost⟩
        · rw [← hmt, ← hmv]
          exact h₁₃.later.log_mono (hempty hr.toReliable mk₀ rfl hval hopen)
        · exact (h₁.trans h₁₃).later.log_mono (hlost hr hu)
      have ht₃ := ht.mono (.refl t) (h₁.trans h₁₃)
      refine ⟨fun hm _ ↦ ?_, ht₃.logged, fun u hu ↦ ?_, fun u hu ↦ ?_, ht₃.checked⟩
      · obtain ⟨hv, ho, -⟩ := hnew₃.placed hm
        exact ⟨mk', rfl, hv, ho⟩
      · refine (ht₃.below u hu).imp_left fun hlt ↦ ?_
        dsimp only at hle ⊢
        omega
      · dsimp only at hu ⊢
        rcases lt_trichotomy u tbl.markerVersion with hlt | rfl | hlt
        · refine (ht₃.covered u hlt).imp_left fun hs ↦ ?_
          exact hs.mono .refl (List.Subset.refl _) (List.subset_append_left _ _)
        · exact .inr hlog
        · refine .inl (.inr (.inl (List.mem_append_right _ (List.mem_map.mpr ⟨u, ?_, rfl⟩))))
          rw [List.mem_range'_1]
          omega

theorem leaseExpiring (D : Disciplined sem P) (tbl : TableStats) (hi : P.inv s)
    {Q : Bool → Txn → Store → Prop}
    (h : ∀ r s', QuietLater i s s' → P.inv s' → (r = true → t.markers = true) → Q r t s') :
    Client.wp sem P i (Tx.leaseExpiring tbl) t Q s := by
  have hfalse : Client.wp sem P i (pure false : Tx Bool) t Q s :=
    Client.wp_pure fun s' hs hi' ↦ h false s' (D.rely hs) hi' (by simp)
  refine Client.wp_get_bind ?_
  split
  · refine Client.wp_ite (fun _ ↦ hfalse) fun hn ↦ ?_
    have hm : t.markers = true := by
      by_contra hm
      simp [hm] at hn
    refine Client.wp_bind hi (D.ask (fun _ _ ↦ rfl) fun now s₁ s₂ h₁ _ _ h₂ hi₂ ↦ ?_)
    exact Client.wp_pure fun s₃ h₃ hi₃ ↦ h _ s₃ (h₁.trans (h₂.trans (D.rely h₃))) hi₃ fun _ ↦ hm
  · exact hfalse

theorem expiring (D : Disciplined sem P) (tbl : TableStats) (hi : P.inv s)
    {Q : Bool → Txn → Store → Prop}
    (h : ∀ r s', QuietLater i s s' → P.inv s' →
      (r = true → t.markers = true ∧ tbl.committed = false) → Q r t s') :
    Client.wp sem P i (Tx.expiring tbl) t Q s := by
  refine Client.wp_ite (fun hp ↦ D.leaseExpiring tbl hi fun r s' hs hi' hr ↦ ?_) fun _ ↦ ?_
  · refine h r s' hs hi' fun hr' ↦ ⟨hr hr', ?_⟩
    simpa using (Bool.and_eq_true_iff.mp hp).1
  · exact Client.wp_pure fun s' hs hi' ↦ h false s' (D.rely hs) hi' (by simp)

/-- Moving the tables whose leases end. -/
theorem shiftExpiring (D : Disciplined sem P) (hL : Local P i L) (fuel rounds : ℕ) (js : List ℕ)
    {shifted : Bool} (hg : Good sem P i c L b t s) (hi : P.inv s)
    {Q : Option Bool → Txn → Store → Prop}
    (hnone : ∀ t' s', QuietLater i s s' → P.inv s' → Q none t' s')
    (hsome : ∀ r t' s', QuietLater i s s' → P.inv s' → Good sem P i c L b t' s' →
      (r = false → t' = t) → Q (some r) t' s') :
    Client.wp sem P i (Tx.shiftExpiring fuel rounds js shifted) t Q s := by
  have key : ∀ (js : List ℕ) (shifted : Bool) (t' : Txn) (s' : Store), QuietLater i s s' →
      P.inv s' → Good sem P i c L b t' s' → (shifted = false → t' = t) →
      Client.wp sem P i (Tx.shiftExpiring fuel rounds js shifted) t' Q s' := by
    intro js
    induction js with
    | nil =>
      intro shifted t' s' hs hi' hg' ht'
      exact Client.wp_pure fun s₁ h₁ hi₁ ↦ hsome shifted t' s₁ (hs.trans (D.rely h₁)) hi₁
        (hg'.mono hL (D.rely h₁)) ht'
    | cons j js ih =>
      intro shifted t' s' hs hi' hg' ht'
      refine Client.wp_get_bind ?_
      split
      · exact ih shifted t' s' hs hi' hg' ht'
      · next tbl hj =>
        refine Client.wp_bind hi' (D.expiring tbl hi' fun r s₁ h₁ hi₁ hr ↦ ?_)
        have hg₁ := hg'.mono hL h₁
        cases r with
        | false => exact ih shifted t' s₁ (hs.trans h₁) hi₁ hg₁ ht'
        | true =>
          obtain ⟨hm, hcm⟩ := hr rfl
          refine Client.wp_ite (fun _ ↦ Client.wp_ite (fun _ ↦ ?_) fun _ ↦ ?_) fun h ↦ absurd rfl h
          · refine Client.wp_bind hi₁ (D.abort true hg₁.sound hi₁ fun t₂ s₂ h₂ hi₂ _ _ ↦ ?_)
            exact Client.wp_pure fun s₃ h₃ hi₃ ↦
              hnone t₂ s₃ (hs.trans (h₁.trans (h₂.trans (D.rely h₃)))) hi₃
          · refine Client.wp_bind hi₁ (D.shiftMarker hL fuel hg₁ hj hm hcm .kept hi₁
              fun t₂ s₂ h₂ hi₂ hg₂ ↦ ?_)
            exact ih true t₂ s₂ (hs.trans (h₁.trans h₂)) hi₂ hg₂ (by simp)
  refine key js shifted t s .refl hi hg fun _ ↦ rfl

/-- Finding out that a reserved version was taken over. -/
theorem markerLost (D : Disciplined sem P) (hL : Local P i L) (j : ℕ) {tbl : TableStats}
    (hj : t.tables[j]? = some tbl) (hg : Good sem P i c L b t s) (hm : t.markers = true)
    (hcm : tbl.committed = false) (hi : P.inv s) {Q : Bool → Txn → Store → Prop}
    (hfalse : ∀ s', QuietLater i s s' → P.inv s' → Q false t s')
    (htrue : ∀ t' s', QuietLater i s s' → P.inv s' → Lost sem i c j tbl s' t t' → Q true t' s') :
    Client.wp sem P i (Tx.markerLost j tbl) t Q s := by
  have hself : ∀ s', QuietLater i s s' → Client.wp sem P i (pure false : Tx Bool) t Q s' :=
    fun s' hs ↦ Client.wp_pure fun s₁ h₁ hi₁ ↦ hfalse s₁ (hs.trans (D.rely h₁)) hi₁
  unfold Tx.markerLost
  split
  · next mk hmk =>
    split
    · next etag hv he =>
      refine Client.wp_bind hi (D.ask (fun _ _ ↦ rfl) fun r s₁ s₂ h₁ _ ha h₂ hi₂ ↦ ?_)
      have h₁₂ := h₁.trans h₂
      cases r with
      | none => exact hself s₂ h₁₂
      | some o =>
        refine Client.wp_ite (fun hne ↦ ?_) fun _ ↦ hself s₂ h₁₂
        refine Client.wp_modify_bind (Client.wp_pure fun s₃ h₃ hi₃ ↦ ?_)
        have h₂₃ := h₂.trans (D.rely h₃)
        refine htrue _ s₃ (h₁.trans h₂₃) hi₃ (.lost mk hmk fun hr hu ↦ ?_)
        obtain ⟨mk', hmk', -, hopen⟩ :=
          ((hg.mono hL h₁).tracks hr hu j tbl hj (by simp)).fresh hm hcm
        obtain rfl := Option.some.inj (hmk.symm.trans hmk')
        obtain ⟨mk'', hmk'', hmt, hmv, -⟩ :=
          (hg.sound.tables tbl (List.mem_of_getElem? hj)).marker
        obtain rfl := Option.some.inj (hmk.symm.trans hmk'')
        -- the marker is gone, so the version was taken over
        have hlog : s₁.log mk.table mk.version = some [] := by
          rcases hopen with ⟨o', d, ho', he', -⟩ | hl
          · rw [ha.read] at ho'
            obtain rfl := Option.some.inj ho'
            exact absurd (Option.some.inj (he'.symm.trans he)) hne
          · exact hl
        exact hmt ▸ hmv ▸ h₂₃.later.log_mono hlog
    · exact hself s .refl
  · exact hself s .refl

/-- Moving the tables whose versions were taken over. -/
theorem shiftLost (D : Disciplined sem P) (hL : Local P i L) (fuel : ℕ) (js : List ℕ)
    {moved : Bool} (hg : Good sem P i c L b t s) (hm : c.levels.markers = true) (hi : P.inv s)
    {Q : Bool → Txn → Store → Prop}
    (h : ∀ r t' s', QuietLater i s s' → P.inv s' → Good sem P i c L b t' s' → Q r t' s') :
    Client.wp sem P i (Tx.shiftLost fuel js moved) t Q s := by
  induction js generalizing t s moved with
  | nil =>
    exact Client.wp_pure fun s' hs hi' ↦ h _ t s' (D.rely hs) hi' (hg.mono hL (D.rely hs))
  | cons j js ih =>
    have hm' : t.markers = true := by rw [Txn.markers, hg.cfg, hm]
    have hnext : ∀ moved s', QuietLater i s s' → P.inv s' →
        Client.wp sem P i (Tx.shiftLost fuel js moved) t Q s' := fun moved s' hs hi' ↦
      ih (hg.mono hL hs) hi' fun r t' s'' hs' ↦ h r t' s'' (hs.trans hs')
    refine Client.wp_get_bind ?_
    split
    · exact hnext _ s .refl hi
    · next tbl hj =>
      refine Client.wp_bind hi (Client.wp_ite (fun hp ↦ ?_) fun _ ↦ ?_)
      · have hcm : tbl.committed = false := by simpa using (Bool.and_eq_true_iff.mp hp).1
        refine D.markerLost hL j hj hg hm' hcm hi (fun s₁ h₁ hi₁ ↦ ?_)
          fun t₁ s₁ h₁ hi₁ hl ↦ ?_
        · exact hnext _ s₁ h₁ hi₁
        · refine Client.wp_bind hi₁ (D.shiftMarker hL fuel (hg.mono hL h₁) hj hm' hcm hl hi₁
            fun t₂ s₂ h₂ hi₂ hg₂ ↦ ?_)
          exact ih hg₂ hi₂ fun r t' s' hs' ↦ h r t' s' (h₁.trans (h₂.trans hs'))
      · exact Client.wp_pure fun s₁ h₁ hi₁ ↦ hnext _ s₁ (D.rely h₁) hi₁

theorem moveLost (D : Disciplined sem P) (hL : Local P i L) (fuel rounds : ℕ)
    (hg : Good sem P i c L b t s) (hi : P.inv s) {Q : Bool → Txn → Store → Prop}
    (h : ∀ r t' s', QuietLater i s s' → P.inv s' → Good sem P i c L b t' s' → Q r t' s') :
    Client.wp sem P i (Tx.moveLost fuel rounds) t Q s := by
  refine Client.wp_get_bind (Client.wp_ite (fun hm ↦ ?_) fun _ ↦ ?_)
  · refine D.shiftLost hL fuel _ hg ?_ hi h
    rw [← hg.cfg]
    exact (Bool.and_eq_true_iff.mp hm).1
  · exact Client.wp_pure fun s' hs hi' ↦ h _ t s' (D.rely hs) hi' (hg.mono hL (D.rely hs))

end Disciplined

end LakeVilla

import LakeVilla.Protocol.Custody

/-!
# The commit

A commit runs in rounds. Between two rounds no table is written, unless a commit was left half-way;
a commit that returns true has written every changed table.
-/

namespace LakeVilla

open Concurrency

/-! ## The outcome of a commit -/

/-- No version holds actions of client `i`, unless its commit was left half-way or an answer was
lost. -/
def Absent (sem : Semantics TxnId Txn Response Store) (i : TxnId) (s : Store) : Prop :=
  Firm sem i → Reliable sem i → Rereads sem i → ∀ p v as, as ≠ [] → ¬ s.Holds i p v as

/-- Every changed table was written. -/
def Published (sem : Semantics TxnId Txn Response Store) (i : TxnId) (c : Config) (t : Txn)
    (s : Store) : Prop :=
  c.levels.l0 = false ∨ Firm sem i → ∀ tbl ∈ t.tables, tbl.changed = true → tbl.actions ≠ [] →
    ∃ v, s.Holds i tbl.basePath v tbl.actions

section Outcome

variable {sem : Semantics TxnId Txn Response Store} {P : Protocol TxnId Txn Response Store}
variable {i : TxnId} {c : Config} {L : Bool → Txn → Store → Prop} {b : Bool}
variable {ps : List (Table × ℕ)} {js : List ℕ} {t t' : Txn} {s s' : Store}

theorem Absent.mono (h : Absent sem i s) (hs : QuietLater i s s') : Absent sem i s' :=
  fun hf hr hre p v as ha hv ↦ h hf hr hre p v as ha (hs.holds_back ha hv)

theorem Owns.absent (ho : Owns sem i c t s)
    (h : Firm sem i → ∀ tbl ∈ t.tables, tbl.committed = false) : Absent sem i s := by
  intro hf _ hre p v as ha hv
  obtain ⟨tbl, htbl, -, hc⟩ := ho.own hre (.inr hf) p v as ha hv
  exact absurd hc (by simp [h hf tbl htbl])

theorem Loading.absent (hg : Loading sem P i c L b ps js t s) : Absent sem i s :=
  hg.owns.absent hg.uncommitted

theorem Published.mono (h : Published sem i c t s) (hs : Later s s') : Published sem i c t s' :=
  fun hf tbl htbl hc ha ↦ have ⟨v, hv⟩ := h hf tbl htbl hc ha; ⟨v, hs.holds_mono ha hv⟩

theorem Published.aborted (h : Published sem i c t s) (hab : Aborted t t') :
    Published sem i c t' s := by
  intro hf x hx hc ha
  obtain ⟨y, hy, hxy⟩ := hab.tables.exists_left hx
  rw [hxy.eq] at hc ha ⊢
  exact h hf y hy hc ha

theorem Txn.Locked.sound (h : t.Locked t') (hs : Sound i t s) : Sound i t' s := by
  rw [h]
  exact ⟨hs.id, hs.tables, hs.localLog, hs.prevMarkers⟩

theorem Txn.Locked.good (h : t.Locked t') (hL : Local P i L) (hg : Good sem P i c L b t s) :
    Good sem P i c L b t' s :=
  hg.aside hL h.aside (by rw [h]; exact hg.sound.localLog)

end Outcome

/-! ## The loop over the tables -/

/-- The table may have been written. -/
structure TableStats.Written (a b : TableStats) : Prop where
  eq : b = { a with marker := b.marker, committed := b.committed }
  committed : a.committed = true → b.committed = true

namespace TableStats.Written

variable {a b c : TableStats}

theorem refl (a : TableStats) : a.Written a := ⟨rfl, id⟩

theorem trans (h : a.Written b) (h' : b.Written c) : a.Written c :=
  ⟨by rw [h'.eq, h.eq], fun ha ↦ h'.committed (h.committed ha)⟩

theorem pending (h : a.Written b) (ha : a.pending = false) : b.pending = false := by
  have hch : b.changed = a.changed := by rw [h.eq]; rfl
  rw [TableStats.pending] at ha ⊢
  rw [hch]
  cases hc : a.committed with
  | true => simp [h.committed hc]
  | false =>
    have : a.changed = false := by simpa [hc] using ha
    simp [this]

end TableStats.Written

/-- Some tables were written. -/
structure Txn.Written (t t' : Txn) : Prop where
  eq : t' = { t with tables := t'.tables }
  tables : List.Forall₂ TableStats.Written t.tables t'.tables

namespace Txn.Written

variable {t t' t'' : Txn}

theorem refl (t : Txn) : t.Written t := ⟨rfl, List.forall₂_same.mpr fun a _ ↦ .refl a⟩

theorem trans (h : t.Written t') (h' : t'.Written t'') : t.Written t'' :=
  ⟨by rw [h'.eq, h.eq], h.tables.comp (fun h₁ h₂ ↦ h₁.trans h₂) h'.tables⟩

theorem write (t : Txn) (j : ℕ) (mk : Marker) :
    t.Written (t.modifyTable j (TableStats.write mk)) :=
  ⟨rfl, List.forall₂_modify TableStats.Written.refl fun _ _ ↦ ⟨rfl, fun _ ↦ rfl⟩⟩

theorem alike (h : t.Written t') : t.Alike t' := by
  refine .of_tables (by rw [h.eq]) (h.tables.imp fun a b hab ↦ ?_)
  rw [hab.eq]
  exact ⟨rfl, rfl, rfl, rfl⟩

end Txn.Written

theorem Txn.modifyTable_write (t : Txn) (j : ℕ) (mk : Marker) :
    ((t.modifyTable j fun tbl ↦ { tbl with marker := some mk.setInvalid }).modifyTable j
      fun tbl ↦ { tbl with committed := true }) = t.modifyTable j (TableStats.write mk) := by
  simp only [Txn.modifyTable]
  congr 1
  rw [List.modify_modify_eq]
  rfl

section Torn

variable {t : Txn} {j : ℕ} {tbl : TableStats}

/-- Before the first table is written, none is. -/
theorem Txn.uncommitted_of_torn (h : t.torn = false) (hj : t.tables[j]? = some tbl)
    (hp : tbl.pending = true) : ∀ x ∈ t.tables, x.committed = false := by
  intro x hx
  by_contra hc
  have : t.torn = true := by
    rw [Txn.torn, Bool.and_eq_true]
    exact ⟨List.any_eq_true.mpr ⟨x, hx, by simpa using hc⟩,
      List.any_eq_true.mpr ⟨tbl, List.mem_of_getElem? hj, hp⟩⟩
  rw [h] at this
  cases this

end Torn

theorem Known.unwritten {sem : Semantics TxnId Txn Response Store}
    {P : Protocol TxnId Txn Response Store} {i : TxnId} {c : Config} {L : Bool → Txn → Store → Prop}
    {b : Bool} {t : Txn} {s s' : Store} (hL : Local P i L) (hk : Known sem P i c L b [] [] t s)
    (h : Disciplined.Unwritten sem i s s') : Known sem P i c L b [] [] t s' :=
  h.elim (hk.mono hL) fun ⟨hs, hr, hre⟩ ↦ hk.dirty hs hr hre

/-- The marker of table `j` becomes invalid. -/
theorem Sound.invalidate {i : TxnId} {t : Txn} {s : Store} {j : ℕ} {tbl : TableStats} {mk : Marker}
    (h : Sound i t s) (hj : t.tables[j]? = some tbl) (hmk : tbl.marker = some mk) :
    Sound i (t.modifyTable j fun tbl ↦ { tbl with marker := some mk.setInvalid }) s := by
  refine Aborted.sound ⟨rfl, List.forall₂_modify Unmarked.refl fun a ha ↦ ?_⟩ h
  obtain rfl := Option.some.inj (hj.symm.trans ha)
  exact ⟨rfl, .inr ⟨mk, hmk, rfl⟩⟩

namespace Disciplined

variable {sem : Semantics TxnId Txn Response Store} {P : Protocol TxnId Txn Response Store}
variable {i : TxnId} {c : Config} {L : Bool → Txn → Store → Prop} {b : Bool}
variable {t : Txn} {s : Store} {j : ℕ} {tbl : TableStats}

theorem writeCommit (D : Disciplined sem P) (hL : Local P i L) (C : Committing sem P i c L)
    (h : Ready sem P i c L b t s j tbl) (hi : P.inv s) {Q : Tx.CommitWrite → Txn → Store → Prop}
    (hok : ∀ mk s', P.inv s' → tbl.marker = some mk → c.storageRetries ≠ 0 →
      Succeeded sem i t tbl s s' →
      Q .ok (t.modifyTable j fun tbl ↦ { tbl with marker := some mk.setInvalid }) s')
    (hlost : ∀ mk s', P.inv s' → tbl.marker = some mk → t.markers = true →
      Unwritten sem i s s' → Refused sem i c t tbl s' →
      Q .lost (t.modifyTable j fun tbl ↦ { tbl with marker := some mk.setInvalid }) s')
    (htaken : ∀ s', P.inv s' → t.markers = false → Unwritten sem i s s' →
      Refused sem i c t tbl s' → Q .taken t s')
    (hfailed : ∀ s', P.inv s' → Effect i t tbl s s' → (QuietLater i s s' ∨ ¬ Reliable sem i) →
      (c.storageRetries ≠ 0 → Firm sem i → t.torn = false) → Q .failed t s') :
    Client.wp sem P i (Tx.writeCommit j tbl) t Q s := by
  obtain ⟨mk, hmk, -⟩ := h.reserved.marker
  unfold Tx.writeCommit
  refine Client.wp_get_bind ?_
  simp only [hmk, h.known.cfg]
  by_cases hn : c.storageRetries = 0
  · rw [hn]
    refine Client.wp_pure fun s' hs hi' ↦ ?_
    have hs := D.rely hs
    exact hfailed s' hi' (.none hs) (.inl hs) (absurd hn)
  · refine D.writeCommitAttempts hL C h hmk _ hi (.inl ⟨.refl, by simp⟩)
      (fun s' hi' ↦ hok mk s' hi' hmk hn) (fun s' hi' ↦ hlost mk s' hi' hmk) htaken ?_
    exact fun s' hi' he hq hf ↦ hfailed s' hi' he (hq.imp_left And.left) hf

/-- The loop over the tables: all are written, or the first write fails. -/
theorem writeTables (D : Disciplined sem P) (hL : Local P i L) (C : Committing sem P i c L)
    (fuel rounds : ℕ) (js : List ℕ) (hk : Known sem P i c L b [] [] t s)
    (hcl : Clear sem P i c b t s)
    (hn : Firm sem i → c.storageRetries = 0 → ∀ tbl ∈ t.tables, tbl.committed = false)
    (hi : P.inv s) {Q : Tx.WriteTables → Txn → Store → Prop}
    (hwritten : ∀ t' s', Later s s' → P.inv s' → t.Written t' → Known sem P i c L b [] [] t' s' →
      (∀ k ∈ js, ∀ x, t'.tables[k]? = some x → x.pending = false) → Q .written t' s')
    (hlost : ∀ t' s', P.inv s' → t'.cfg = c → Sound i t' s' → Absent sem i s' →
      (rounds < c.options.maxRedos → Good sem P i c L b t' s') → Q .lost t' s')
    (htaken : ∀ k x t' s', P.inv s' → t.Written t' → t'.canRepairGlobalLog = true →
      t'.markers = false → t'.tables[k]? = some x → x.committed = false →
      Good sem P i c L b t' s' → Q (.taken k) t' s')
    (hfailed : ∀ t' s', P.inv s' → Sound i t' s' → Absent sem i s' → Q .failed t' s') :
    Client.wp sem P i (Tx.writeTables fuel rounds js) t Q s := by
  induction js generalizing t s with
  | nil =>
    refine Client.wp_pure fun s' hs hi' ↦ ?_
    have hs := D.rely hs
    exact hwritten t s' hs.later hi' (.refl t) (hk.mono hL hs) (by simp)
  | cons j js ih =>
    -- a table that need not be written
    have hskip : ∀ {t₁ s₁}, Later s s₁ → P.inv s₁ → t.Written t₁ →
        Known sem P i c L b [] [] t₁ s₁ → Clear sem P i c b t₁ s₁ →
        (Firm sem i → c.storageRetries = 0 → ∀ tbl ∈ t₁.tables, tbl.committed = false) →
        (∀ x, t₁.tables[j]? = some x → x.pending = false) →
        Client.wp sem P i (Tx.writeTables fuel rounds js) t₁ Q s₁ := by
      intro t₁ s₁ h₁ hi₁ hw₁ hk₁ hcl₁ hn₁ hp₁
      refine ih hk₁ hcl₁ hn₁ hi₁ (fun t' s' hs' hi' hw hk' hp ↦
        hwritten t' s' (h₁.trans hs') hi' (hw₁.trans hw) hk' fun k hk x hx ↦ ?_)
        fun k x t' s' hi' hw ↦ htaken k x t' s' hi' (hw₁.trans hw)
      rcases List.mem_cons.mp hk with rfl | hk
      · obtain ⟨a, ha, hax⟩ := hw.tables.getElem?_left hx
        exact hax.pending (hp₁ a ha)
      · exact hp k hk x hx
    refine Client.wp_get_bind ?_
    split
    · next hj => exact hskip .refl hi (.refl t) hk hcl hn (by simp [hj])
    next tbl hj =>
    refine Client.wp_ite (fun hp ↦ ?_) fun hp ↦ ?_
    · have hr : Ready sem P i c L b t s j tbl := ⟨hk, hcl, hj, hp⟩
      have hunc : ∀ {s'}, Refused sem i c t tbl s' → Firm sem i →
          ∀ x ∈ t.tables, x.committed = false :=
        fun href hf ↦ Txn.uncommitted_of_torn (href.firm hf) hj hp
      refine Client.wp_bind hi (D.writeCommit hL C hr hi ?_ ?_ ?_ ?_)
      · intro mk s₁ hi₁ hmk hret hsu
        refine Client.wp_modify_bind ?_
        show Client.wp sem P i _ ((t.modifyTable j fun tbl ↦
          { tbl with marker := some mk.setInvalid }).modifyTable j
            fun tbl ↦ { tbl with committed := true }) Q s₁
        rw [Txn.modifyTable_write]
        refine hskip (hsu.effect.later hk.sound.id) hi₁ (.write t j mk)
          (hr.write_known hL hmk hsu.effect hsu.log hsu.holds) (hr.write_clear hsu.effect mk)
          (fun _ h ↦ absurd h hret) fun x hx ↦ ?_
        rcases List.getElem?_modify_eq_some hx with ⟨-, a, -, rfl⟩ | ⟨hne, -⟩
        · rfl
        · exact absurd rfl hne
      · intro mk s₁ hi₁ hmk hm hun href
        have hg : Good sem P i c L b t s₁ := ⟨hk.unwritten hL hun, hunc href⟩
        have hcm := hr.uncommitted
        refine Client.wp_bind hi₁ (Client.wp_when (fun _ ↦ ?_) fun hlt s₂ h₂ hi₂ ↦ ?_)
        · refine D.shiftMarker hL fuel hg hj hm hcm
            (.lost mk hmk fun hreg hu ↦ href.taken hreg hu hm) hi₁ fun t₂ s₂ h₂ hi₂ hg₂ ↦ ?_
          refine Client.wp_pure fun s₃ h₃ hi₃ ↦ ?_
          have hg₃ := hg₂.mono hL (D.rely h₃)
          exact hlost t₂ s₃ hi₃ hg₃.cfg hg₃.sound hg₃.absent fun _ ↦ hg₃
        · refine Client.wp_pure fun s₃ h₃ hi₃ ↦ ?_
          have h₁₃ := (D.rely h₂).trans (D.rely h₃)
          refine hlost _ s₃ hi₃ hk.cfg ((hg.sound.mono h₁₃.later).invalidate hj hmk)
            (hg.absent.mono h₁₃) fun hlt' ↦ ?_
          rw [hk.cfg] at hlt
          exact absurd hlt' (by simpa using hlt)
      · intro s₁ hi₁ hm hun href
        have hg : Good sem P i c L b t s₁ := ⟨hk.unwritten hL hun, hunc href⟩
        refine Client.wp_ite (fun hrep ↦ Client.wp_pure fun s₂ h₂ hi₂ ↦ ?_) fun _ ↦
          Client.wp_pure fun s₂ h₂ hi₂ ↦ ?_
        · exact htaken j tbl t s₂ hi₂ (.refl t) hrep hm hj hr.uncommitted
            (hg.mono hL (D.rely h₂))
        · have hg₂ := hg.mono hL (D.rely h₂)
          exact hfailed t s₂ hi₂ hg₂.sound hg₂.absent
      · intro s₁ hi₁ he hq hf
        refine Client.wp_pure fun s₂ h₂ hi₂ ↦ ?_
        have h₂ := D.rely h₂
        refine hfailed t s₂ hi₂ (hk.sound.mono ((he.later hk.sound.id).trans h₂.later)) ?_
        intro hfirm hrel
        refine (hk.owns.absent fun _ ↦ ?_).mono ((hq.resolve_right (absurd hrel)).trans h₂)
          hfirm hrel
        by_cases hret : c.storageRetries = 0
        · exact hn hfirm hret
        · exact Txn.uncommitted_of_torn (hf hret hfirm) hj hp
    · exact hskip .refl hi (.refl t) hk hcl hn fun x hx ↦ by
        obtain rfl := Option.some.inj (hj.symm.trans hx)
        simpa using hp

end Disciplined

/-! ## The end of a round -/

namespace Disciplined

variable {sem : Semantics TxnId Txn Response Store} {P : Protocol TxnId Txn Response Store}
variable {i : TxnId} {c : Config} {L : Bool → Txn → Store → Prop} {b : Bool}
variable {t : Txn} {s : Store}

theorem releaseTable (D : Disciplined sem P) (j : ℕ) (ht : Sound i t s) (hi : P.inv s)
    {Q : Unit → Txn → Store → Prop}
    (h : ∀ t' s', QuietLater i s s' → P.inv s' → Aborted t t' → Q () t' s') :
    Client.wp sem P i (Tx.releaseTable j) t Q s := by
  refine Client.wp_get_bind ?_
  split
  · next tbl hj =>
    split
    · next mk hmk =>
      obtain ⟨mk', hmk', -, -, hheld⟩ := (ht.tables tbl (List.mem_of_getElem? hj)).marker
      obtain rfl := Option.some.inj (hmk.symm.trans hmk')
      refine Client.wp_bind hi (D.release hheld hi fun ok mk' s₁ h₁ hi₁ hr ↦
        Client.wp_modify fun s₂ h₂ hi₂ ↦ h _ s₂ (h₁.trans (D.rely h₂)) hi₂ ⟨rfl, ?_⟩)
      refine List.forall₂_modify Unmarked.refl fun a ha ↦ ?_
      obtain rfl := Option.some.inj (hj.symm.trans ha)
      refine ⟨rfl, ?_⟩
      rcases hr.marker with rfl | ⟨rfl, -⟩
      · exact .inr ⟨mk, hmk, rfl⟩
      · exact .inl hmk.symm
    · exact Client.wp_pure fun s₁ h₁ hi₁ ↦ h t s₁ (D.rely h₁) hi₁ (.refl t)
  · exact Client.wp_pure fun s₁ h₁ hi₁ ↦ h t s₁ (D.rely h₁) hi₁ (.refl t)

theorem releaseTables (D : Disciplined sem P) (js : List ℕ) (ht : Sound i t s) (hi : P.inv s)
    {Q : Unit → Txn → Store → Prop}
    (h : ∀ t' s', QuietLater i s s' → P.inv s' → Aborted t t' → Q () t' s') :
    Client.wp sem P i (Tx.releaseTables js) t Q s := by
  induction js generalizing t s with
  | nil => exact Client.wp_pure fun s₁ h₁ hi₁ ↦ h t s₁ (D.rely h₁) hi₁ (.refl t)
  | cons j js ih =>
    refine Client.wp_bind hi (D.releaseTable j ht hi fun t₁ s₁ h₁ hi₁ hab₁ ↦ ?_)
    refine ih (hab₁.sound (ht.mono h₁.later)) hi₁ fun t₂ s₂ h₂ hi₂ hab₂ ↦ ?_
    exact h t₂ s₂ (h₁.trans h₂) hi₂ (hab₁.trans hab₂)

/-- The transaction ends without a result. -/
theorem abandon {α : Type} (D : Disciplined sem P) {clear : Bool} {a : α} (ht : Sound i t s)
    (hs : Absent sem i s) (hi : P.inv s) {Q : α → Txn → Store → Prop}
    (h : ∀ t' s', P.inv s' → Absent sem i s' → Q a t' s') :
    Client.wp sem P i (do Tx.abort clear; pure a : Tx α) t Q s :=
  Client.wp_bind hi (D.abort clear ht hi fun t₁ _ h₁ _ _ _ ↦ Client.wp_pure fun s₂ h₂ hi₂ ↦
    h t₁ s₂ hi₂ (hs.mono (h₁.trans (D.rely h₂))))

end Disciplined

namespace Managed

variable {sem : Semantics TxnId Txn Response Store} {P : Protocol TxnId Txn Response Store}
variable {i : TxnId} {c : Config} {L : Bool → Txn → Store → Prop} {b : Bool}
variable {H : VersionMaps → Txn → Store → Prop} {K : Txn → Store → Prop}
variable {t : Txn} {s : Store} {j : ℕ} {tbl : TableStats} {maps : VersionMaps}

theorem keeping (D : Managed sem P i c H K) {A : Txn → Store → Prop} (hA : Guarded sem P i A)
    (t₀ : Txn) : Disciplined sem (P.keeping i (A t₀)) :=
  D.toDisciplined.keeping hA.apart

theorem repairGlobalLog (D : Managed sem P i c H K) (hL : Local P i L) (fuel : ℕ)
    (hH : H maps t s) (hl2 : t.cfg.levels.l2 = true)
    (hg : Good sem P i c L b t s) (hm : t.markers = false) (hj : t.tables[j]? = some tbl)
    (hcm : tbl.committed = false) (hi : P.inv s) {Q : Bool → Txn → Store → Prop}
    (h : ∀ r t' s', QuietLater i s s' → P.inv s' → Good sem P i c L b t' s' → Q r t' s') :
    Client.wp sem P i (Tx.repairGlobalLog fuel j) t Q s := by
  have hfalse : ∀ s₁, QuietLater i s s₁ → Client.wp sem P i (pure false : Tx Bool) t Q s₁ :=
    fun s₁ h₁ ↦ Client.wp_pure fun s₂ h₂ hi₂ ↦
      h false t s₂ (h₁.trans (D.toDisciplined.rely h₂)) hi₂
        (hg.mono hL (h₁.trans (D.toDisciplined.rely h₂)))
  refine Client.wp_get_bind ?_
  simp only [hj]
  refine (D.held maps).wp_bind hH hi ((D.keeping (D.held maps) t).highestCommitted fuel
    (hg.sound.tables tbl (List.mem_of_getElem? hj)).before hi fun r s₁ h₁ hi₁ hex hH₁ ↦ ?_)
  cases r with
  | none => exact hfalse s₁ h₁
  | some highest =>
    refine Client.wp_ite (fun _ ↦ hfalse s₁ h₁) fun hle ↦ ?_
    have hex := hex highest rfl
    refine Client.wp_bind hi₁ (D.updateGlobalEntry hH₁ hl2
      (List.mem_map.mpr ⟨tbl, List.mem_of_getElem? hj, rfl⟩) (fun s' hs' current v hcur hv ↦ ?_)
      (fun current ↦ ⟨_, rfl, fun u hu ↦ ?_⟩) hi₁ fun r s₂ h₂ hi₂ ↦ ?_)
    · obtain rfl := Option.some.inj hv
      have hex' := hs'.exists_mono hex
      cases current with
      | none => simpa using hex'
      | some u =>
        simp only [Option.getD_some, Nat.max_def]
        split
        · exact hex'
        · exact hcur u rfl
    · rw [hu]
      exact le_max_left _ _
    · have h₁₂ := h₁.trans h₂
      cases r with
      | false => exact hfalse s₂ h₁₂
      | true =>
        exact D.toDisciplined.moveBehind hL fuel (hg.mono hL h₁₂) hm hj hcm (by omega)
          (h₂.later.exists_mono hex) hi₂ fun r t' s' hs' ↦ h r t' s' (h₁₂.trans hs')

theorem afterTaken (D : Managed sem P i c H K) (hL : Local P i L) (fuel claimFailures : ℕ)
    (hH : H maps t s) (hl2 : t.cfg.levels.l2 = true) (hg : Good sem P i c L b t s)
    (hm : t.markers = false)
    (hj : t.tables[j]? = some tbl) (hcm : tbl.committed = false) (hi : P.inv s)
    {Q : Bool → Txn → Store → Prop}
    (htrue : ∀ t' s', P.inv s' → Good sem P i c L b t' s' → Q true t' s')
    (hfalse : ∀ t' s', P.inv s' → Absent sem i s' → Q false t' s') :
    Client.wp sem P i (Tx.afterTaken fuel j claimFailures) t Q s := by
  have hrest : ∀ repaired t₁ s₁, P.inv s₁ → Good sem P i c L b t₁ s₁ →
      Client.wp sem P i (do
        Tx.releaseGlobalLock
        let t ← get
        if !repaired && t.cfg.options.globalLogRepairAfter ≤ claimFailures then do
          Tx.abort false
          pure false
        else pure true : Tx Bool) t₁ Q s₁ := by
    intro repaired t₁ s₁ hi₁ hg₁
    refine Client.wp_bind hi₁ (D.releaseGlobalLock hi₁ fun t₂ s₂ h₂ hi₂ hl ↦ ?_)
    have hg₂ := hl.good hL (hg₁.mono hL h₂)
    refine Client.wp_get_bind (Client.wp_ite (fun _ ↦ ?_) fun _ ↦ Client.wp_pure fun s₃ h₃ hi₃ ↦ ?_)
    · exact D.toDisciplined.abandon hg₂.sound hg₂.absent hi₂ hfalse
    · exact htrue t₂ s₃ hi₃ (hg₂.mono hL (D.toDisciplined.rely h₃))
  refine Client.wp_bind hi (Client.wp_get_bind (Client.wp_ite (fun _ ↦ ?_) fun _ ↦ ?_))
  · exact D.repairGlobalLog hL fuel hH hl2 hg hm hj hcm hi
      fun r t₁ s₁ _ hi₁ hg₁ ↦ hrest r t₁ s₁ hi₁ hg₁
  · exact Client.wp_pure fun s₁ h₁ hi₁ ↦
      hrest false t s₁ hi₁ (hg.mono hL (D.toDisciplined.rely h₁))

theorem afterInvalid (D : Managed sem P i c H K) (hL : Local P i L) (fuel rounds : ℕ)
    (hg : Good sem P i c L b t s) (hi : P.inv s) {Q : Option ℕ → Txn → Store → Prop}
    (hsome : ∀ n t' s', P.inv s' → Good sem P i c L b t' s' → Q (some n) t' s')
    (hnone : ∀ t' s', P.inv s' → Absent sem i s' → Q none t' s') :
    Client.wp sem P i (Tx.afterInvalid fuel rounds) t Q s := by
  refine Client.wp_bind hi (D.releaseGlobalLock hi fun t₁ s₁ h₁ hi₁ hl ↦ ?_)
  have hg₁ := hl.good hL (hg.mono hL h₁)
  refine Client.wp_bind hi₁ (D.toDisciplined.moveLost hL fuel rounds hg₁ hi₁
    fun r t₂ s₂ _ hi₂ hg₂ ↦ ?_)
  cases r with
  | true =>
    exact Client.wp_pure fun s₃ h₃ hi₃ ↦ hsome _ t₂ s₃ hi₃ (hg₂.mono hL (D.toDisciplined.rely h₃))
  | false =>
    refine Client.wp_get_bind (Client.wp_bind hi₂ (D.toDisciplined.abort false hg₂.sound hi₂
      fun t₃ s₃ h₃ hi₃ hab hsub ↦ ?_))
    have hg₃ := (hg₂.mono hL h₃).aborted hL hab (hsub rfl)
    have hnone' : ∀ t₄ s₄, QuietLater i s₃ s₄ →
        Client.wp sem P i (pure none : Tx (Option ℕ)) t₄ Q s₄ := fun t₄ s₄ h₄ ↦
      Client.wp_pure fun s₅ h₅ hi₅ ↦
        hnone t₄ s₅ hi₅ (hg₃.absent.mono (h₄.trans (D.toDisciplined.rely h₅)))
    refine Client.wp_ite (fun hl0 ↦ ?_) fun _ ↦ hnone' t₃ s₃ .refl
    have hm : t₃.markers = true := by
      rw [hab.grows.markers, Txn.markers, Levels.markers]
      simp only [Bool.and_eq_true] at hl0
      rw [hl0.1.1, Bool.true_or]
    refine Client.wp_bind hi₃ (D.toDisciplined.reopenTables hL fuel hg₃ (.inl hm) hi₃
      fun r t₄ s₄ h₄ hi₄ _ _ hgood _ ↦ ?_)
    cases r with
    | true =>
      exact Client.wp_pure fun s₅ h₅ hi₅ ↦
        hsome _ t₄ s₅ hi₅ ((hgood rfl).mono hL (D.toDisciplined.rely h₅))
    | false => exact hnone' t₄ s₄ h₄

theorem afterLost (D : Managed sem P i c H K) (hL : Local P i L) (rounds : ℕ) (hcfg : t.cfg = c)
    (ht : Sound i t s) (ha : Absent sem i s)
    (hg : rounds < c.options.maxRedos → Good sem P i c L b t s) (hi : P.inv s)
    {Q : Bool → Txn → Store → Prop}
    (htrue : ∀ t' s', P.inv s' → Good sem P i c L b t' s' → Q true t' s')
    (hfalse : ∀ t' s', P.inv s' → Absent sem i s' → Q false t' s') :
    Client.wp sem P i (Tx.afterLost rounds) t Q s := by
  refine Client.wp_bind hi (D.releaseGlobalLock hi fun t₁ s₁ h₁ hi₁ hl ↦ Client.wp_get_bind ?_)
  have hcfg₁ : t₁.cfg = c := by rw [hl]; exact hcfg
  refine Client.wp_ite (fun _ ↦ ?_) fun hlt ↦ Client.wp_pure fun s₂ h₂ hi₂ ↦ ?_
  · exact D.toDisciplined.abandon (hl.sound (ht.mono h₁.later)) (ha.mono h₁) hi₁ hfalse
  · rw [hcfg₁, Nat.not_le] at hlt
    exact htrue t₁ s₂ hi₂ (hl.good hL ((hg hlt).mono hL (h₁.trans (D.toDisciplined.rely h₂)))
      |>.mono hL .refl)

theorem finish (D : Managed sem P i c H K) (hH : H maps t s)
    (hmaps : ∀ e ∈ maps.lines, s.Exists e.1 e.2) (ht : Sound i t s) (hp : Published sem i c t s)
    (hi : P.inv s) {Q : Bool → Txn → Store → Prop}
    (h : ∀ t' s', P.inv s' → Published sem i c t' s' → K t' s' → Q true t' s') :
    Client.wp sem P i (Tx.finish maps) t Q s := by
  refine Client.wp_bind hi (D.createGlobalSnapshot hH hmaps hi fun t₁ s₁ h₁ hi₁ hl hK ↦
    Client.wp_modify_bind (Client.wp_get_bind ?_))
  have hK₁ : K { t₁ with decided := true } s₁ := D.kept.alike hK ⟨rfl, rfl, rfl⟩
  have ht₁ : Sound i { t₁ with decided := true } s₁ := by
    have := hl.sound (ht.mono h₁.later)
    exact ⟨this.id, this.tables, this.localLog, this.prevMarkers⟩
  have hp₁ : Published sem i c { t₁ with decided := true } s₁ := by
    have := hp.mono h₁.later
    rw [hl]
    exact this
  refine D.kept.wp_bind hK₁ hi₁ ((D.keeping D.kept _).releaseTables _ ht₁ hi₁
    fun t₂ s₂ h₂ hi₂ hab hK₂ ↦ Client.wp_pure fun s₃ h₃ hi₃ ↦ ?_)
  exact h t₂ s₃ hi₃ ((hp₁.aborted hab).mono (h₂.trans (D.toDisciplined.rely h₃)).later)
    (D.kept.rely (D.kept.alike hK₂ hab.alike) h₃ hi₃)

end Managed

/-- What holds after a round. -/
def Tx.Round.Ended (sem : Semantics TxnId Txn Response Store)
    (P : Protocol TxnId Txn Response Store) (i : TxnId) (c : Config)
    (L : Bool → Txn → Store → Prop) (K : Txn → Store → Prop) : Tx.Round → Txn → Store → Prop
  | .done true, t, s => Published sem i c t s ∧ K t s
  | .done false, _, s => Absent sem i s
  | .again st, t, s => Good sem P i c L st.redoDone t s

/-- What holds after a commit. -/
def Concluded (sem : Semantics TxnId Txn Response Store) (i : TxnId) (c : Config)
    (K : Txn → Store → Prop) : Bool → Txn → Store → Prop
  | true, t, s => Published sem i c t s ∧ K t s
  | false, _, s => Absent sem i s

namespace Managed

variable {sem : Semantics TxnId Txn Response Store} {P : Protocol TxnId Txn Response Store}
variable {i : TxnId} {c : Config} {L : Bool → Txn → Store → Prop} {b : Bool}
variable {H : VersionMaps → Txn → Store → Prop} {K : Txn → Store → Prop}
variable {t : Txn} {s : Store} {st : Tx.CommitState}

theorem written_published {t' : Txn} (hw : t.Written t')
    (hp : ∀ k ∈ List.range t.tables.length, ∀ x, t'.tables[k]? = some x → x.pending = false) :
    ∀ x ∈ t'.tables, x.changed = true → x.committed = true := by
  intro x hx hc
  obtain ⟨k, hxk⟩ := List.getElem?_of_mem hx
  have hlt : k < t.tables.length := by
    rw [hw.tables.length_eq]
    exact (List.getElem?_eq_some_iff.mp hxk).1
  have := hp k (List.mem_range.mpr hlt) x hxk
  rw [TableStats.pending, hc, Bool.and_true] at this
  simpa using this

theorem writePhase (D : Managed sem P i c H K) (hL : Local P i L) (C : Committing sem P i c L)
    (fuel : ℕ)
    (hg : Good sem P i c L st.redoDone t s) (hcl : Clear sem P i c st.redoDone t s) (hi : P.inv s) :
    Client.wp sem P i (Tx.writePhase fuel st) t (Tx.Round.Ended sem P i c L K) s := by
  unfold Tx.writePhase
  refine Client.wp_bind hi (D.startValidation fuel hg.cfg hg.sound.id
    (fun tbl htbl ↦ (hg.sound.tables tbl htbl).read) hi fun r maps t₁ s₁ h₁ hi₁ hl hmaps hH ↦ ?_)
  have hg₁ := hl.good hL (hg.mono hL h₁)
  have hcl₁ : Clear sem P i c st.redoDone t₁ s₁ := by
    have := hcl.mono h₁.later
    rw [hl]
    exact ⟨fun hr hu ↦ this.caught hr ⟨hu.distinct, hu.opened⟩, this.conflict, this.redone⟩
  have htables : t₁.tables = t.tables := by rw [hl]
  cases r with
  | valid =>
    have hheld := D.held maps
    refine Client.wp_get_bind (hheld.wp_bind (hH rfl) hi₁ ((D.keeping hheld t₁).writeTables
      hL.keeping (C.keeping hheld.apart) fuel st.rounds _ (Known.keeping.mpr hg₁.toKnown)
      (Clear.keeping.mpr hcl₁) (fun hf _ ↦ hg₁.uncommitted hf) hi₁ ?_ ?_ ?_ ?_))
    · intro t₂ s₂ h₂ hi₂ hw hk₂ hp hH₂
      have hk₂ := Known.keeping.mp hk₂
      have hcm := written_published hw hp
      refine Client.wp_bind hi₂ (D.finish (hheld.alike hH₂ hw.alike)
        ((hmaps.mono h₂).lines fun tbl htbl hc ↦ ?_)
        hk₂.sound (fun hor x hx hc ha ↦ hk₂.owns.written hor x hx (hcm x hx hc) ha) hi₂
        fun t₃ s₃ hi₃ hpub hK ↦ Client.wp_pure fun s₄ h₄ hi₄ ↦
          ⟨hpub.mono (D.toDisciplined.rely h₄).later, D.kept.rely hK h₄ hi₄⟩)
      obtain ⟨x, hx, hax⟩ := hw.tables.exists_right (htables ▸ htbl)
      have hch : x.changed = true := by rw [hax.eq]; exact hc
      have := (hk₂.sound.tables x hx).placed (.inr (hcm x hx hch))
      rw [hax.eq] at this
      exact this
    · intro t₂ s₂ hi₂ hcfg hsound habs hgood _
      refine Client.wp_bind hi₂ (D.afterLost hL st.rounds hcfg hsound habs
        (fun h ↦ Loading.keeping.mp (hgood h)) hi₂ ?_ ?_)
      · exact fun t₃ s₃ hi₃ hg₃ ↦ Client.wp_pure fun s₄ h₄ hi₄ ↦
          hg₃.mono hL (D.toDisciplined.rely h₄)
      · exact fun t₃ s₃ hi₃ ha ↦ Client.wp_pure fun s₄ h₄ hi₄ ↦ ha.mono (D.toDisciplined.rely h₄)
    · intro k x t₂ s₂ hi₂ hw hrep hm hx hc hg₂ hH₂
      have hl2 : t₂.cfg.levels.l2 = true := by
        simp only [Txn.canRepairGlobalLog, Bool.and_eq_true] at hrep
        exact hrep.1.1.2
      refine Client.wp_bind hi₂ (D.afterTaken hL fuel _ (hheld.alike hH₂ hw.alike) hl2
        (Loading.keeping.mp hg₂) hm hx hc hi₂ ?_ ?_)
      · exact fun t₃ s₃ hi₃ hg₃ ↦ Client.wp_pure fun s₄ h₄ hi₄ ↦
          hg₃.mono hL (D.toDisciplined.rely h₄)
      · exact fun t₃ s₃ hi₃ ha ↦ Client.wp_pure fun s₄ h₄ hi₄ ↦ ha.mono (D.toDisciplined.rely h₄)
    · intro t₂ s₂ hi₂ hsound habs _
      refine Client.wp_bind hi₂ (D.releaseGlobalLock hi₂ fun t₃ s₃ h₃ hi₃ hl₃ ↦ ?_)
      exact D.toDisciplined.abandon (hl₃.sound (hsound.mono h₃.later)) (habs.mono h₃) hi₃
        fun _ _ _ ha ↦ ha
  | invalid =>
    refine Client.wp_bind hi₁ (D.afterInvalid hL fuel st.rounds hg₁ hi₁ ?_ ?_)
    · exact fun n t₃ s₃ hi₃ hg₃ ↦ Client.wp_pure fun s₄ h₄ hi₄ ↦
        hg₃.mono hL (D.toDisciplined.rely h₄)
    · exact fun t₃ s₃ hi₃ ha ↦ Client.wp_pure fun s₄ h₄ hi₄ ↦ ha.mono (D.toDisciplined.rely h₄)
  | lockTimeout =>
    exact D.toDisciplined.abandon hg₁.sound hg₁.absent hi₁ fun _ _ _ ha ↦ ha

/-- One round of a commit. -/
theorem commitRound (D : Managed sem P i c H K) (hL : Operable P i L) (C : Committing sem P i c L)
    (fuel : ℕ)
    (hg : Good sem P i c L st.redoDone t s) (hi : P.inv s) :
    Client.wp sem P i (Tx.commitRound fuel st) t (Tx.Round.Ended sem P i c L K) s := by
  have D' := D.toDisciplined
  have hL' := hL.toLocal
  have hfalse : ∀ t₁ s₁, Absent sem i s₁ → Client.wp sem P i (pure (.done false) : Tx Tx.Round) t₁
      (Tx.Round.Ended sem P i c L K) s₁ := fun t₁ s₁ ha ↦
    Client.wp_pure fun s₂ h₂ _ ↦ ha.mono (D'.rely h₂)
  unfold Tx.commitRound
  refine Client.wp_bind hi (D'.waitPhase hL' fuel hg hi (fun t₁ s₁ h₁ _ ↦ ?_)
    fun t₁ s₁ h₁ hi₁ hg₁ hc₁ ↦ ?_)
  · exact hfalse t₁ s₁ (hg.absent.mono h₁)
  refine Client.wp_get_bind (Client.wp_bind hi₁ (D'.shiftExpiring hL' fuel st.rounds _ hg₁ hi₁
    (fun t₂ s₂ h₂ _ ↦ ?_) fun r t₂ s₂ h₂ hi₂ hg₂ hsame ↦ ?_))
  · exact hfalse t₂ s₂ (hg₁.absent.mono h₂)
  cases r with
  | true => exact Client.wp_pure fun s₃ h₃ _ ↦ hg₂.mono hL' (D'.rely h₃)
  | false =>
    obtain rfl := hsame rfl
    refine Client.wp_bind hi₂ (D'.collectUnseenVersions hL' fuel hg₂ hi₂
      fun t₃ s₃ h₃ hi₃ hm₃ hg₃ ↦ ?_)
    have hc₃ : Regular sem i c → t₃.Usable → Caught P t₃ s₃ := fun hr hu ↦ by
      have hu₂ : t₂.Usable := ⟨by rw [Txn.Distinct, ← hm₃.paths]; exact hu.distinct,
        fun hf ↦ hu.opened (hm₃.hazards hf)⟩
      exact hm₃.caught ((hc₁ hr hu₂).mono (h₂.trans h₃).later)
    refine Client.wp_bind hi₃ (D'.resolveConflicts hL hg₃ hc₃ hi₃ (fun t₄ s₄ h₄ _ ↦ ?_)
      fun st' t₄ s₄ _ hi₄ hg₄ hcl₄ ↦ ?_)
    · exact hfalse t₄ s₄ (hg₃.absent.mono h₄)
    · exact D.writePhase hL' C fuel hg₄ hcl₄ hi₄

theorem commitRounds (D : Managed sem P i c H K) (hL : Operable P i L) (C : Committing sem P i c L)
    (fuel n : ℕ) (hg : Good sem P i c L st.redoDone t s) (hi : P.inv s) :
    Client.wp sem P i (Tx.commitRounds fuel n st) t (Concluded sem i c K) s := by
  induction n generalizing t s st with
  | zero => exact Client.wp_diverge
  | succ n ih =>
    refine Client.wp_bind hi (Client.wp_mono (D.commitRound hL C fuel hg hi)
      fun r t₁ s₁ hi₁ hr ↦ ?_)
    cases r with
    | again st' => exact ih hr hi₁
    | done result =>
      refine Client.wp_pure fun s₂ h₂ hi₂ ↦ ?_
      cases result with
      | true => exact ⟨hr.1.mono (D.toDisciplined.rely h₂).later, D.kept.rely hr.2 h₂ hi₂⟩
      | false => exact Absent.mono hr (D.toDisciplined.rely h₂)

theorem commit (D : Managed sem P i c H K) (hL : Operable P i L) (C : Committing sem P i c L)
    (fuel : ℕ)
    (hg : Good sem P i c L false t s) (hidle : t.Idle) (hi : P.inv s) (readOnly : Bool) :
    Client.wp sem P i (Tx.commit fuel readOnly) t
      (fun r t' s' ↦ if readOnly then Absent sem i s' else Concluded sem i c K r t' s') s := by
  refine Client.wp_ite (fun hro ↦ ?_) fun hro ↦ Client.wp_modify_bind ?_
  · refine D.toDisciplined.abandon hg.sound hg.absent hi fun _ _ _ ha ↦ ?_
    simpa [hro] using ha
  · have hid : t.tables.map (fun tbl ↦ { tbl with committed := false }) = t.tables := by
      have h : ∀ tbl ∈ t.tables, ({ tbl with committed := false } : TableStats) = id tbl :=
        fun tbl htbl ↦ by rw [← (hidle tbl htbl).1]; rfl
      rw [List.map_congr_left h, List.map_id]
    rw [hid]
    refine Client.wp_mono (D.commitRounds hL C fuel fuel hg hi) fun r t' s' _ hr ↦ ?_
    simpa [hro] using hr

end Managed

end LakeVilla

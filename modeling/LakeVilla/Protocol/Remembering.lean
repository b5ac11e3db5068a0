import LakeVilla.Protocol.Keeping

/-!
# What a transaction remembers

A transaction reserves a version of a table before it reads the versions below, and remembers the
versions that it has to wait for. So every remembered version lies below one that the transaction
has reserved (`Behind`), in every call of its code.
-/

namespace LakeVilla

open Concurrency Client

namespace Store

/-- Client `i` has placed a marker in version `v` of table `p`, now or before. -/
def Placed (s : Store) (i : TxnId) (p : Table) (v : ℕ) : Prop :=
  ∃ o d, (Key.version p v, some o) ∈ s.journal ∧ o.content = .marker i d

/-- Version `v` of table `p` holds a running marker of client `j`. -/
def Running (s : Store) (p : Table) (v : ℕ) (j : TxnId) : Prop :=
  ∃ o d, s.get (.version p v) = some o ∧ o.content = .marker j d

theorem Placed.mono {s s' : Store} (h : s.journal <:+ s'.journal) {i : TxnId} {p : Table} {v : ℕ}
    (hp : s.Placed i p v) : s'.Placed i p v := by
  obtain ⟨o, d, ho, hc⟩ := hp
  exact ⟨o, d, h.subset ho, hc⟩

theorem Running.placed {s : Store} {j : TxnId} {p : Table} {v : ℕ} (h : s.Running p v j) :
    s.Placed j p v := by
  obtain ⟨o, d, ho, hc⟩ := h
  exact ⟨o, d, mem_of_get ho, hc⟩

theorem Running.exists_ {s : Store} {j : TxnId} {p : Table} {v : ℕ} (h : s.Running p v j) :
    s.Exists p v := by
  obtain ⟨o, d, ho, -⟩ := h
  simp [Exists, ho]

end Store

/-! ## What a transaction remembers -/

/-- Every remembered version lies below one that the client has reserved. -/
structure Behind (i : TxnId) (c : Config) (t : Txn) (s : Store) : Prop where
  cfg : t.cfg = c
  id : t.transactionId = i
  prev : ∀ e ∈ t.prevMarkers, ∃ v, e.2 < v ∧ s.Placed i e.1 v
  waiting : ∀ e, t.waiting = some e → ∃ v, e.2 < v ∧ s.Placed i e.1 v
  tables : c.levels.markers = true → ∀ tbl ∈ t.tables, s.Placed i tbl.basePath tbl.markerVersion

/-- What the journal says once, it says from then on. -/
def Durable (E : Store → Prop) : Prop := ∀ s s', s.journal <:+ s'.journal → E s → E s'

/-- The calls are answered by the store, and the protocol allows client `i` every call in which it
remembers such versions only. -/
structure Watching (sem : Semantics TxnId Txn Response Store)
    (P : Protocol TxnId Txn Response Store) (i : TxnId) (c : Config) : Prop where
  served : ∀ {j m c s r s'}, sem j m c s r s' → ∃ d, answer d c (s.wait d.delay) = (r, s')
  inv : ∀ s, P.inv s
  guar : ∀ {t k s r s'}, Behind i c t s → P.guar i t k s r s'

/-- The client remembers versions below its own, and `E` was seen in the journal. -/
def Remembers (i : TxnId) (c : Config) (E : Store → Prop) (t : Txn) (s : Store) : Prop :=
  Behind i c t s ∧ E s

theorem Durable.and {E F : Store → Prop} (hE : Durable E) (hF : Durable F) :
    Durable fun s ↦ E s ∧ F s :=
  fun s s' hs h ↦ ⟨hE s s' hs h.1, hF s s' hs h.2⟩

theorem Durable.placed (i : TxnId) (p : Table) (v : ℕ) : Durable fun s ↦ s.Placed i p v :=
  fun _ _ hs h ↦ h.mono hs

theorem Durable.imp {E : Store → Prop} (hE : Durable E) (q : Prop) : Durable fun s ↦ q → E s :=
  fun s s' hs h hq ↦ hE s s' hs (h hq)

namespace Behind

variable {i : TxnId} {c : Config} {t t' : Txn} {s s' : Store} {p : Table} {w : ℕ}

theorem mono (h : Behind i c t s) (hs : s.journal <:+ s'.journal) : Behind i c t s' where
  cfg := h.cfg
  id := h.id
  prev e he :=
    have ⟨v, hv, hp⟩ := h.prev e he
    ⟨v, hv, hp.mono hs⟩
  waiting e he :=
    have ⟨v, hv, hp⟩ := h.waiting e he
    ⟨v, hv, hp.mono hs⟩
  tables hm tbl htbl := (h.tables hm tbl htbl).mono hs

/-- Only the paths and the reserved versions of the tables matter. -/
theorem frame (h : Behind i c t s) (hc : t'.cfg = t.cfg)
    (hid : t'.transactionId = t.transactionId) (hp : t'.prevMarkers = t.prevMarkers)
    (hw : t'.waiting = t.waiting)
    (ht : ∀ tbl' ∈ t'.tables, ∃ tbl ∈ t.tables, tbl'.basePath = tbl.basePath ∧
      tbl'.markerVersion = tbl.markerVersion) : Behind i c t' s where
  cfg := hc.trans h.cfg
  id := hid.trans h.id
  prev := by rw [hp]; exact h.prev
  waiting := by rw [hw]; exact h.waiting
  tables hm tbl' htbl' := by
    obtain ⟨tbl, htbl, hb, hv⟩ := ht tbl' htbl'
    rw [hb, hv]
    exact h.tables hm tbl htbl

theorem sameMarkers (h : Behind i c t s) (hs : t.SameMarkers t') : Behind i c t' s := by
  refine h.frame hs.cfg hs.transactionId hs.prevMarkers hs.waiting fun tbl' htbl' ↦ ?_
  have hmem := List.mem_map_of_mem (f := (·.reservation)) htbl'
  rw [hs.tables] at hmem
  obtain ⟨tbl, htbl, heq⟩ := List.mem_map.mp hmem
  obtain ⟨hb, hr⟩ := Prod.mk.inj heq
  exact ⟨tbl, htbl, hb.symm, (Prod.mk.inj hr).2.symm⟩

/-- Versions below a reserved one are remembered. -/
theorem remember (h : Behind i c t s) (hw : s.Placed i p w) {vs : List ℕ}
    (hvs : ∀ v ∈ vs, v < w) : Behind i c (t.remember p vs) s where
  cfg := h.cfg
  id := h.id
  prev e he := by
    rcases List.mem_append.mp he with he | he
    · exact h.prev e he
    · obtain ⟨v, hv, rfl⟩ := List.mem_map.mp he
      exact ⟨w, hvs v hv, hw⟩
  waiting := h.waiting
  tables := h.tables

/-- The transaction waits for a version that it remembers, or for none. -/
theorem waitFor (h : Behind i c t s) {e : Option (Table × ℕ)}
    (he : ∀ x, e = some x → ∃ v, x.2 < v ∧ s.Placed i x.1 v) :
    Behind i c { t with waiting := e } s :=
  ⟨h.cfg, h.id, h.prev, he, h.tables⟩

theorem modifyTable (h : Behind i c t s) {j : ℕ} {f : TableStats → TableStats}
    (hf : ∀ tbl, (f tbl).basePath = tbl.basePath ∧ (f tbl).markerVersion = tbl.markerVersion) :
    Behind i c { t with tables := t.tables.modify j f } s := by
  refine h.frame rfl rfl rfl rfl fun tbl' htbl' ↦ ?_
  rcases List.mem_modify htbl' with htbl' | ⟨tbl, htbl, rfl⟩
  · exact ⟨tbl', htbl', rfl, rfl⟩
  · exact ⟨tbl, List.mem_of_getElem? htbl, hf tbl⟩

/-- A table that was loaded replaces another one. -/
theorem setTable (h : Behind i c t s) {j : ℕ} {tbl : TableStats}
    (ht : c.levels.markers = true → s.Placed i tbl.basePath tbl.markerVersion) :
    Behind i c { t with tables := t.tables.modify j fun _ ↦ tbl } s where
  cfg := h.cfg
  id := h.id
  prev := h.prev
  waiting := h.waiting
  tables hm tbl' htbl' := by
    rcases List.mem_modify htbl' with htbl' | ⟨_, _, rfl⟩
    · exact h.tables hm tbl' htbl'
    · exact ht hm

theorem addTable (h : Behind i c t s) {tbl : TableStats}
    (ht : c.levels.markers = true → s.Placed i tbl.basePath tbl.markerVersion) :
    Behind i c { t with tables := t.tables ++ [tbl] } s where
  cfg := h.cfg
  id := h.id
  prev := h.prev
  waiting := h.waiting
  tables hm tbl' htbl' := by
    rcases List.mem_append.mp htbl' with htbl' | htbl'
    · exact h.tables hm tbl' htbl'
    · obtain rfl := List.mem_singleton.mp htbl'
      exact ht hm

end Behind

/-- `r` is table `tbl` with the version that was reserved for it, and the version before. -/
structure Reserves (i : TxnId) (c : Config) (tbl : TableStats) (highest : ℕ) (r : TableStats × ℕ)
    (s : Store) : Prop where
  placed : c.levels.markers = true → s.Placed i tbl.basePath (r.2 + 1)
  unmarked : c.levels.markers = false → r.2 = highest
  basePath : r.1.basePath = tbl.basePath
  markerVersion : r.1.markerVersion = r.2 + 1

theorem Reserves.skip {i : TxnId} {c : Config} {tbl : TableStats} {highest : ℕ}
    {r : TableStats × ℕ} {s : Store} (h : Reserves i c tbl (highest + 1) r s)
    (hm : c.levels.markers = true) : Reserves i c tbl highest r s :=
  ⟨h.placed, by simp [hm], h.basePath, h.markerVersion⟩

namespace Watching

variable {sem : Semantics TxnId Txn Response Store} {P : Protocol TxnId Txn Response Store}
variable {i : TxnId} {c : Config} (D : Watching sem P i c)
include D

theorem journal {j : TxnId} {m : Txn} {k : Call} {s s' : Store} {r : Response k}
    (h : sem j m k s r s') : s.journal <:+ s'.journal := by
  obtain ⟨d, hd⟩ := D.served h
  rcases answer_journal hd with h | ⟨e, h⟩
  · rw [h]
    exact List.suffix_rfl
  · rw [h]
    exact List.suffix_cons e _

theorem rely {s s' : Store} (h : P.rely sem i s s') : s.journal <:+ s'.journal := by
  induction h with
  | refl => exact List.suffix_rfl
  | tail _ hstep ih =>
    obtain ⟨j, -, m, c, r, hs, -⟩ := hstep
    exact ih.trans (D.journal hs)

variable {E : Store → Prop} (hE : Durable E)
include hE

/-- The protocol allows every call. -/
theorem call (k : Call) : Keeps sem P i (Remembers i c E) (Tx.call k) := by
  have hstable : Stable sem P i (Remembers i c E) :=
    fun _ _ _ hr h ↦ ⟨h.1.mono (D.rely hr), hE _ _ (D.rely hr) h.2⟩
  refine .perform (fun t s s₁ h hr _ _ s₂ hs ↦ ?_) hstable
  obtain ⟨hb, he⟩ := hstable t s s₁ hr h
  exact ⟨D.inv s₂, D.guar hb, hb.mono (D.journal hs), hE _ _ (D.journal hs) he⟩

theorem keeper : Keeper sem P i (Remembers i c E) where
  stable _ _ _ hr h := ⟨h.1.mono (D.rely hr), hE _ _ (D.rely hr) h.2⟩
  frame ht h := ⟨h.1.sameMarkers ht, h.2⟩
  step _ _ hs h := ⟨D.inv _, D.guar h.1, h.1.mono (D.journal hs), hE _ _ (D.journal hs) h.2⟩

/-- A marker is placed, unless the version exists or the request failed. -/
theorem placeMarker {t : Txn} {s : Store} {p : Table} {v : ℕ} {j : TxnId} {dl : Option ℤ}
    (h : Behind i c t s) (he : E s) (hj : j = i) {Q : WriteStatus × ETag → Txn → Store → Prop}
    (hQ : ∀ r s', Behind i c t s' → E s' → (r.1 = .ok → s'.Placed i p v) → Q r t s') :
    Client.wp sem P i (Tx.writeAtomic (.version p v) (.marker j dl)) t Q s := by
  refine wp_perform fun s₁ h₁ _ r s₂ hs ↦ ?_
  have hb₁ := h.mono (D.rely h₁)
  have hs₂ := (D.rely h₁).trans (D.journal hs)
  refine ⟨D.inv s₂, D.guar hb₁, fun s₃ h₃ _ ↦ ?_⟩
  have hs₃ := hs₂.trans (D.rely h₃)
  refine hQ r s₃ (h.mono hs₃) (hE _ _ hs₃ he) fun hr ↦ ?_
  obtain ⟨d, hd⟩ := D.served hs
  obtain ⟨status, etag⟩ := r
  obtain rfl : status = .ok := hr
  rcases answer_writeAtomic hd with ⟨-, -, -, rfl⟩ | ⟨hr, -⟩ | ⟨hr, -⟩
  · have hp : ((s₁.wait d.delay).put (.version p v) (.marker j dl)).Placed i p v :=
      ⟨_, dl, List.mem_cons_self, by rw [hj]⟩
    exact hp.mono (D.rely h₃)
  · cases hr
  · cases hr

/-- A version is reserved. -/
theorem reserveVersion {t : Txn} {s : Store} (fuel : ℕ) (tbl : TableStats) (highest : ℕ)
    (h : Behind i c t s) (he : E s) :
    Client.wp sem P i (Tx.reserveVersion fuel tbl highest) t
      (fun r t' s' ↦ Behind i c t' s' ∧ E s' ∧ Reserves i c tbl highest r s') s := by
  have K := D.keeper hE
  induction fuel generalizing highest t s with
  | zero => exact wp_diverge
  | succ fuel ih =>
    refine wp_get_bind (wp_ite (fun hm ↦ ?_) fun hm ↦ ?_)
    · replace hm : c.levels.markers = true := by rwa [Txn.markers, h.cfg] at hm
      refine wp_bind (D.inv s) (wp_mono (K.call rfl t s (D.inv s) ⟨h, he⟩)
        fun b t₁ s₁ _ h₁ ↦ wp_ite (fun _ ↦ wp_mono (ih _ h₁.1 h₁.2)
          fun _ _ _ _ h ↦ ⟨h.1, h.2.1, h.2.2.skip hm⟩) fun _ ↦ ?_)
      refine wp_bind (D.inv s₁) (wp_mono (K.call rfl t₁ s₁ (D.inv s₁) h₁) fun now t₂ s₂ _ h₂ ↦ ?_)
      refine wp_bind (D.inv s₂) (D.placeMarker hE h₂.1 h₂.2 h.id fun r s₃ h₃ he₃ hr ↦ ?_)
      obtain ⟨status, etag⟩ := r
      cases status with
      | ok =>
        have R := D.keeper (hE.and (.placed i tbl.basePath (highest + 1)))
        refine wp_bind (D.inv s₃) (wp_mono (R.destroyMarker tbl.marker t₂ s₃ (D.inv s₃)
          ⟨h₃, he₃, hr rfl⟩) fun _ t₄ s₄ _ h₄ ↦ wp_pure fun s' hs' _ ↦ ?_)
        obtain ⟨hb, he, hp⟩ := R.stable t₄ s₄ s' hs' h₄
        exact ⟨hb, he, fun _ ↦ hp, by simp [hm], rfl, rfl⟩
      | alreadyExists => exact wp_mono (ih _ h₃ he₃) fun _ _ _ _ h ↦ ⟨h.1, h.2.1, h.2.2.skip hm⟩
      | preconditionFailed =>
        exact wp_mono (ih _ h₃ he₃) fun _ _ _ _ h ↦ ⟨h.1, h.2.1, h.2.2.skip hm⟩
      | error => exact ih _ h₃ he₃
    · replace hm : c.levels.markers = false := by
        rw [Txn.markers, h.cfg] at hm
        exact Bool.not_eq_true _ ▸ hm
      refine wp_pure fun s' hr _ ↦ ?_
      exact ⟨h.mono (D.rely hr), hE _ _ (D.rely hr) he, by simp [hm], fun _ ↦ rfl, rfl, rfl⟩

/-- A table is loaded: the version reserved for it lies above the versions that are read. -/
theorem loadTable {t : Txn} {s : Store} (fuel : ℕ) (tbl : TableStats) (dependencies : Bool)
    (h : Behind i c t s) (he : E s) :
    Client.wp sem P i (Tx.loadTable fuel tbl dependencies) t
      (fun r t' s' ↦ Behind i c t' s' ∧ E s' ∧ r.1.basePath = tbl.basePath ∧
        ((c.levels.markers = true → s'.Placed i tbl.basePath r.1.markerVersion) ∨
          r.2.1 = false ∧ r.1.markerVersion = tbl.markerVersion)) s := by
  have K := D.keeper hE
  refine wp_get_bind (wp_bind (D.inv s) (wp_mono (K.snapshotVersion fuel _ t s (D.inv s) ⟨h, he⟩)
    fun mv t₁ s₁ _ h₁ ↦ wp_bind (D.inv s₁) (wp_mono (K.highestVersion _ mv t₁ s₁ (D.inv s₁) h₁)
      fun hv t₂ s₂ _ h₂ ↦ ?_)))
  cases hv with
  | none =>
    refine wp_pure fun s' hs' _ ↦ ?_
    obtain ⟨hb, he⟩ := K.stable t₂ s₂ s' hs' h₂
    exact ⟨hb, he, rfl, .inr ⟨rfl, rfl⟩⟩
  | some highest =>
    refine wp_bind (D.inv s₂) (wp_mono (D.reserveVersion hE fuel _ highest h₂.1 h₂.2)
      fun r t₃ s₃ _ h₃ ↦ ?_)
    obtain ⟨tbl', highest'⟩ := r
    obtain ⟨h₃, he₃, hr⟩ := h₃
    have R := D.keeper (hE.and ((Durable.placed i tbl.basePath (highest' + 1)).imp
      (c.levels.markers = true)))
    refine wp_bind (D.inv s₃) (wp_mono (R.parseRanges (highest' + 1)
      (fun vs hvs v hv t' s' hm hK ↦ ?_) _ t₃ s₃ (D.inv s₃) ⟨h₃, he₃, hr.placed⟩)
      fun st t₄ s₄ _ h₄ ↦ ?_)
    · have hlt : v < highest' + 1 := by
        have := List.mem_flatten_of_mem hvs hv
        rw [splitRange_flatten, List.mem_range'_1] at this
        omega
      have hm : c.levels.markers = true := by rwa [Txn.markers, hK.1.cfg] at hm
      rw [hr.basePath]
      refine ⟨hK.1.remember (hK.2.2 hm) fun u hu ↦ ?_, hK.2⟩
      rwa [List.mem_singleton.mp hu]
    · refine wp_modify_bind (wp_pure fun s' hs' _ ↦ ?_)
      obtain ⟨hb, he, hp⟩ := R.stable t₄ s₄ s' hs' h₄
      refine ⟨hb.sameMarkers (.of_tables rfl), he, hr.basePath, .inl fun hm ↦ ?_⟩
      rw [hr.markerVersion]
      exact hp hm

/-- Every table is loaded again. -/
theorem loadTables (fuel : ℕ) (is : List ℕ) (dependencies : Bool) :
    Keeps sem P i (Remembers i c E) (Tx.loadTables fuel is dependencies) := by
  have K := D.keeper hE
  induction is generalizing dependencies with
  | nil => exact K.pure _
  | cons j is ih =>
    intro t s hi h
    refine wp_get_bind ?_
    split
    · exact K.pure _ t s hi h
    · next tbl htbl =>
      have hbefore : c.levels.markers = true → s.Placed i tbl.basePath tbl.markerVersion :=
        fun hm ↦ h.1.tables hm tbl (List.mem_of_getElem? htbl)
      have hF := (Durable.placed i tbl.basePath tbl.markerVersion).imp (c.levels.markers = true)
      refine wp_bind hi (wp_mono (D.loadTable (hE.and hF) fuel tbl dependencies h.1
        ⟨h.2, hbefore⟩) fun r t₁ s₁ _ h₁ ↦ ?_)
      obtain ⟨tbl', ok, dependencies'⟩ := r
      obtain ⟨hb, ⟨he, hplaced⟩, hpath, hr⟩ := h₁
      have hset : c.levels.markers = true → s₁.Placed i tbl'.basePath tbl'.markerVersion := by
        intro hm
        rw [hpath]
        rcases hr with hr | ⟨-, hr⟩
        · exact hr hm
        · rw [show tbl'.markerVersion = tbl.markerVersion from hr]
          exact hplaced hm
      refine wp_modify_bind ?_
      exact Keeps.ite (ih _) (K.pure _) _ s₁ (D.inv s₁) ⟨hb.setTable hset, he⟩

theorem reopenTables (fuel : ℕ) (retry : Bool) :
    Keeps sem P i (Remembers i c E) (Tx.reopenTables fuel retry) := by
  have K := D.keeper hE
  induction fuel generalizing retry with
  | zero => exact .diverge
  | succ fuel ih =>
    refine .bind K.resetSnapshots fun _ ↦ .get_bind fun t ↦
      .bind (D.loadTables hE fuel _ false) fun r ↦ ?_
    cases r with
    | none => exact .ite (ih true) (K.pure _)
    | some b =>
      cases b with
      | false => exact K.pure _
      | true => exact ih true

theorem modifyTable (j : ℕ) {f : TableStats → TableStats}
    (hf : ∀ tbl, (f tbl).basePath = tbl.basePath ∧ (f tbl).markerVersion = tbl.markerVersion) :
    Keeps sem P i (Remembers i c E) (Tx.modifyTable j f) :=
  .modify (D.keeper hE).stable fun _ _ h ↦ ⟨h.1.modifyTable hf, h.2⟩

theorem abort (clear : Bool) : Keeps sem P i (Remembers i c E) (Tx.abort clear) := by
  have K := D.keeper hE
  have tables : ∀ is, Keeps sem P i (Remembers i c E) (Tx.abortTables is) := by
    intro is
    induction is with
    | nil => exact K.pure _
    | cons j is ih =>
      refine .bind (.get_bind fun t ↦ ?_) fun _ ↦ ih
      split
      · split
        · exact .bind (K.release _) fun _ ↦ D.modifyTable hE j fun _ ↦ ⟨rfl, rfl⟩
        · exact K.pure _
      · exact K.pure _
  refine .get_bind fun t ↦ .bind (.when K.stable (tables _)) fun _ ↦ .when K.stable ?_
  exact K.modify fun _ ↦ .of_tables rfl

theorem reopenUntilFixed (fuel : ℕ) :
    Keeps sem P i (Remembers i c E) (Tx.reopenUntilFixed fuel) := by
  have K := D.keeper hE
  induction fuel with
  | zero => exact .diverge
  | succ fuel ih =>
    exact .bind (D.abort hE false) fun _ ↦ .bind (D.reopenTables hE fuel false) fun _ ↦
      .ite (K.pure _) ih

/-- A table is opened. -/
theorem openTableV2 {t : Txn} {s : Store} (fuel : ℕ) (p : Table) (h : Behind i c t s) (he : E s) :
    Client.wp sem P i (Tx.openTableV2 fuel p) t (fun r t' s' ↦ Behind i c t' s' ∧ E s' ∧
      ∀ tbl, r = some tbl → c.levels.markers = true →
        s'.Placed i tbl.basePath tbl.markerVersion) s := by
  have K := D.keeper hE
  refine wp_bind (D.inv s) (wp_mono (D.loadTable hE fuel { basePath := p } false h he)
    fun r t₁ s₁ _ h₁ ↦ ?_)
  obtain ⟨tbl, ok, dependencies⟩ := r
  obtain ⟨hb, he₁, hpath, hr⟩ := h₁
  refine wp_ite (fun hok ↦ ?_) fun _ ↦ ?_
  · have hplaced : c.levels.markers = true → s₁.Placed i tbl.basePath tbl.markerVersion := by
      rw [hpath]
      rcases hr with hr | ⟨hr, -⟩
      · exact hr
      · rw [show ok = false from hr] at hok
        cases hok
    have hF := (Durable.placed i tbl.basePath tbl.markerVersion).imp (c.levels.markers = true)
    have R := D.keeper (hE.and hF)
    refine wp_bind (D.inv s₁) (wp_mono (Keeps.when R.stable (D.reopenUntilFixed (hE.and hF) fuel)
      t₁ s₁ (D.inv s₁) ⟨hb, he₁, hplaced⟩) fun _ t₂ s₂ _ h₂ ↦ wp_pure fun s' hs' _ ↦ ?_)
    obtain ⟨hb', he', hp'⟩ := R.stable t₂ s₂ s' hs' h₂
    refine ⟨hb', he', fun tbl' htbl' ↦ ?_⟩
    obtain rfl := Option.some.inj htbl'
    exact hp'
  · refine wp_bind (D.inv s₁) (wp_mono (K.releaseFailed tbl t₁ s₁ (D.inv s₁) ⟨hb, he₁⟩)
      fun _ t₂ s₂ _ h₂ ↦ wp_pure fun s' hs' _ ↦ ?_)
    obtain ⟨hb', he'⟩ := K.stable t₂ s₂ s' hs' h₂
    exact ⟨hb', he', by simp⟩

omit hE in
/-- The opened table joins the others. -/
theorem addTable {t : Txn} {s : Store} {tbl : TableStats} (h : Behind i c t s) (he : E s)
    (ht : c.levels.markers = true → s.Placed i tbl.basePath tbl.markerVersion) {x : Tx Bool}
    (hx : Keeps sem P i (Remembers i c E) x) :
    Client.wp sem P i (do
      modify fun t ↦ { t with tables := t.tables ++ [tbl] }
      x) t (fun _ t' s' ↦ Behind i c t' s' ∧ E s') s :=
  wp_modify_bind (hx _ s (D.inv s) ⟨h.addTable ht, he⟩)

theorem beginTransaction (fuel : ℕ) (p : Table) :
    Keeps sem P i (Remembers i c E) (Tx.beginTransaction fuel p) := by
  have K := D.keeper hE
  have begin : Keeps sem P i (Remembers i c E) (Tx.begin fuel p) := by
    refine .bind K.parseGlobalSnapshots fun _ t s hi h ↦ ?_
    refine wp_bind hi (wp_mono (D.openTableV2 hE fuel p h.1 h.2) fun r t₁ s₁ _ h₁ ↦ ?_)
    obtain ⟨hb, he, hr⟩ := h₁
    cases r with
    | none => exact K.pure _ t₁ s₁ (D.inv s₁) ⟨hb, he⟩
    | some tbl => exact D.addTable hb he (hr tbl rfl) (K.pure _)
  have attempts : ∀ n, Keeps sem P i (Remembers i c E)
      (Tx.beginAttempts fuel p n) := by
    intro n
    induction n with
    | zero => exact K.pure _
    | succ n ih => exact .bind begin fun _ ↦ .ite (K.pure _) ih
  exact attempts 5

theorem openNewTable (fuel : ℕ) (p : Table) :
    Keeps sem P i (Remembers i c E) (Tx.openNewTable fuel p) := by
  have K := D.keeper hE
  have attempts : ∀ n, Keeps sem P i (Remembers i c E)
      (Tx.openAttempts fuel p n) := by
    intro n
    induction n with
    | zero => exact .bind (D.abort hE true) fun _ ↦ K.pure _
    | succ n ih =>
      intro t s hi h
      refine wp_bind hi (wp_mono (D.openTableV2 hE fuel p h.1 h.2) fun r t₁ s₁ _ h₁ ↦ ?_)
      obtain ⟨hb, he, hr⟩ := h₁
      cases r with
      | none => exact ih t₁ s₁ (D.inv s₁) ⟨hb, he⟩
      | some tbl => exact D.addTable hb he (hr tbl rfl) (K.pure _)
  exact attempts 5

/-! ### The commit -/

/-- A version moves: the versions in between are remembered. -/
theorem shiftMarker (fuel j : ℕ) :
    Keeps sem P i (Remembers i c E) (Tx.shiftMarker fuel j) := by
  have K := D.keeper hE
  intro t s hi h
  refine wp_get_bind ?_
  split
  · exact K.pure _ t s hi h
  · next tbl _ =>
    refine wp_bind hi (wp_mono (K.releaseMarker tbl.marker t s hi h) fun mk t₁ s₁ _ h₁ ↦ ?_)
    refine wp_bind (D.inv s₁) (wp_mono (D.reserveVersion hE fuel _ _ h₁.1 h₁.2)
      fun r t₂ s₂ _ h₂ ↦ ?_)
    obtain ⟨tbl', highest⟩ := r
    obtain ⟨hb, he, hr⟩ := h₂
    have hv : tbl'.markerVersion = highest + 1 := hr.markerVersion
    refine wp_modify_bind (wp_modify fun s₃ hs₃ _ ↦ ?_)
    obtain ⟨hb, he⟩ := K.stable t₂ s₂ s₃ hs₃ ⟨hb, he⟩
    have hset : Behind i c { t₂ with tables := t₂.tables.modify j fun _ ↦ tbl' } s₃ :=
      hb.setTable fun hm ↦ by
        rw [hr.basePath, hv]
        exact (hr.placed hm).mono (D.rely hs₃)
    refine ⟨?_, he⟩
    cases hm : c.levels.markers with
    | true =>
      refine hset.remember ((hr.placed hm).mono (D.rely hs₃)) fun v hmem ↦ ?_
      rw [List.mem_range'_1] at hmem
      omega
    | false =>
      have hnone : tbl'.markerVersion - (tbl.markerVersion + 1) = 0 := by
        have : highest = tbl.markerVersion := hr.unmarked hm
        omega
      rw [hnone]
      exact hset.frame rfl rfl (by simp [Txn.remember]) rfl fun tbl htbl ↦ ⟨tbl, htbl, rfl, rfl⟩

theorem shiftExpiring (fuel rounds : ℕ) (is : List ℕ) (shifted : Bool) :
    Keeps sem P i (Remembers i c E) (Tx.shiftExpiring fuel rounds is shifted) := by
  have K := D.keeper hE
  induction is generalizing shifted with
  | nil => exact K.pure _
  | cons j is ih =>
    refine .get_bind fun t ↦ ?_
    split
    · exact ih _
    · refine .bind (.ite (K.leaseExpiring _) (K.pure _)) fun b ↦ .ite (.ite ?_ ?_) (ih _)
      · exact .bind (D.abort hE true) fun _ ↦ K.pure _
      · exact .bind (D.shiftMarker hE fuel j) fun _ ↦ ih _

theorem shiftLost (fuel : ℕ) (is : List ℕ) (moved : Bool) :
    Keeps sem P i (Remembers i c E) (Tx.shiftLost fuel is moved) := by
  have K := D.keeper hE
  have lost : ∀ j tbl, Keeps sem P i (Remembers i c E) (Tx.markerLost j tbl) := by
    intro j tbl
    unfold Tx.markerLost
    split
    · split
      · refine .bind (K.call rfl) fun o ↦ ?_
        cases o with
        | none => exact K.pure _
        | some o =>
          exact .ite (.bind (D.modifyTable hE j fun _ ↦ ⟨rfl, rfl⟩) fun _ ↦ K.pure _) (K.pure _)
      · exact K.pure _
    · exact K.pure _
  induction is generalizing moved with
  | nil => exact K.pure _
  | cons j is ih =>
    refine .get_bind fun t ↦ ?_
    split
    · exact ih _
    · refine .bind (.ite (lost j _) (K.pure _)) fun b ↦ .ite ?_ (ih _)
      exact .bind (D.shiftMarker hE fuel j) fun _ ↦ ih _

/-- The markers that are waited for are remembered. -/
theorem waitMarkers {t : Txn} {s : Store} (fuel : ℕ) (h : Remembers i c E t s) :
    Client.wp sem P i (Tx.waitMarkers fuel t.prevMarkers) t
      (fun _ t' s' ↦ Remembers i c E t' s') s := by
  have hF : Durable fun s ↦ ∀ e ∈ t.prevMarkers, ∃ v, e.2 < v ∧ s.Placed i e.1 v :=
    fun _ _ hs h e he ↦
      have ⟨v, hv, hp⟩ := h e he
      ⟨v, hv, hp.mono hs⟩
  have R := D.keeper (hE.and hF)
  refine wp_mono (R.waitMarkers fuel (fun e he t' s' hK ↦ ⟨hK.1.waitFor fun x hx ↦ ?_, hK.2⟩) t s
    (D.inv s) ⟨h.1, h.2, h.1.prev⟩) fun _ _ _ _ h ↦ ⟨h.1, h.2.1⟩
  subst hx
  obtain ⟨e, he', heq⟩ := List.mem_map.mp ((List.mem_cons.mp he).resolve_left nofun)
  exact hK.2.2 x (Option.some.inj heq ▸ he')

theorem waitAllMarkers (fuel : ℕ) :
    Keeps sem P i (Remembers i c E) (Tx.waitAllMarkers fuel) := by
  have K := D.keeper hE
  induction fuel with
  | zero => exact .diverge
  | succ fuel ih =>
    refine fun t s hi h ↦ wp_get_bind (wp_bind hi (wp_mono (D.waitMarkers hE fuel h)
      fun b t₁ s₁ hi₁ h₁ ↦ Keeps.ite (K.pure _) ?_ t₁ s₁ hi₁ h₁))
    refine .get_bind fun t ↦ .ite (.bind (D.abort hE true) fun _ ↦ K.pure _) ?_
    exact .bind (D.reopenTables hE fuel false) fun _ ↦ K.modify_bind (fun _ ↦ .of_tables rfl) ih

/-- A fresh snapshot has the versions below the reserved ones. -/
theorem rebuildState : Keeps sem P i (Remembers i c E) Tx.rebuildState := by
  have K := D.keeper hE
  have tables : ∀ is, Keeps sem P i (Remembers i c E) (Tx.rebuildTables is) := by
    intro is
    induction is with
    | nil => exact K.pure _
    | cons j is ih =>
      intro t s hi h
      refine wp_get_bind ?_
      split
      · exact ih t s hi h
      · next tbl htbl =>
        have hplaced : c.levels.markers = true → s.Placed i tbl.basePath tbl.markerVersion :=
          fun hm ↦ h.1.tables hm tbl (List.mem_of_getElem? htbl)
        have R := D.keeper (hE.and ((Durable.placed i tbl.basePath tbl.markerVersion).imp
          (c.levels.markers = true)))
        refine wp_modify_bind (wp_bind hi (wp_mono (R.parseAll tbl.markerVersion 0 {}
          (fun u hu t' s' hm hK ↦ ?_) _ s hi
          ⟨h.1.modifyTable fun _ ↦ ⟨rfl, rfl⟩, h.2, hplaced⟩) fun r t₁ s₁ _ h₁ ↦ ?_))
        · have hm : c.levels.markers = true := by rwa [Txn.markers, hK.1.cfg] at hm
          refine ⟨hK.1.remember (hK.2.2 hm) fun v hv ↦ ?_, hK.2⟩
          rw [List.mem_singleton.mp hv]
          omega
        · cases r with
          | none => exact K.pure _ t₁ s₁ (D.inv s₁) ⟨h₁.1, h₁.2.1⟩
          | some deltaLog =>
            refine wp_modify_bind (ih _ s₁ (D.inv s₁) ⟨?_, h₁.2.1⟩)
            exact h₁.1.modifyTable fun _ ↦ ⟨rfl, rfl⟩
  refine .get_bind fun t ↦ .bind (tables _) fun b ↦ .ite ?_ (K.pure _)
  exact K.modify_bind (fun t ↦ .clearConcurrency t) (K.pure _)

theorem resolveConflicts (st : Tx.CommitState) :
    Keeps sem P i (Remembers i c E) (Tx.resolveConflicts st) := by
  have K := D.keeper hE
  have aborts : Keeps sem P i (Remembers i c E) (do
      Tx.abort false
      pure none : Tx (Option Tx.CommitState)) := .bind (D.abort hE false) fun _ ↦ K.pure _
  have again : Keeps sem P i (Remembers i c E) (Tx.redoAgain st) := by
    refine .get_bind fun t ↦ .ite aborts (.bind (D.rebuildState hE) fun b ↦ .ite ?_ aborts)
    exact .bind (K.redoRound _) fun _ ↦ K.pure _
  refine .get_bind fun t ↦ .ite (.ite (.ite again (K.pure _)) ?_) (.ite aborts (K.pure _))
  exact .bind (K.redoRound _) fun _ ↦ K.pure _

theorem writeCommit (j : ℕ) (tbl : TableStats) :
    Keeps sem P i (Remembers i c E) (Tx.writeCommit j tbl) := by
  have K := D.keeper hE
  have writeLog : ∀ mk t tbl, Keeps sem P i (Remembers i c E)
      (Tx.writeLog mk (buildCommitLog t tbl)) := by
    intro mk t tbl
    refine .get_bind fun _ ↦ ?_
    split
    · exact .bind (K.call rfl) fun _ ↦ .ite (K.pure _) (K.pure _)
    · exact D.call hE _
    · exact .bind (D.call hE _) fun _ ↦ K.pure _
  have ours : ∀ mk log b, Keeps sem P i (Remembers i c E)
      (Tx.writtenByUs mk log b) := by
    intro mk log b
    refine .ite (.bind (K.call rfl) fun o ↦ ?_) (K.pure _)
    cases o with
    | none => exact K.pure _
    | some o => exact K.pure _
  have invalidate : ∀ mk, Keeps sem P i (Remembers i c E) (Tx.invalidate j mk) :=
    fun mk ↦ D.modifyTable hE j fun _ ↦ ⟨rfl, rfl⟩
  have attempts : ∀ n mk t tbl b, Keeps sem P i (Remembers i c E)
      (Tx.writeCommitAttempts j mk (buildCommitLog t tbl) n b) := by
    intro n mk t tbl
    induction n with
    | zero => exact fun _ ↦ K.pure _
    | succ n ih =>
      intro b
      refine .bind (writeLog mk t tbl) fun r ↦ ?_
      have refused : Keeps sem P i (Remembers i c E) (do
          if ← Tx.writtenByUs mk (buildCommitLog t tbl) b then do
            Tx.invalidate j mk
            pure .ok
          else if (← get).markers then do
            Tx.invalidate j mk
            pure .lost
          else pure .taken : Tx Tx.CommitWrite) := by
        refine .bind (ours mk _ b) fun _ ↦ .ite ?_ (.get_bind fun _ ↦ .ite ?_ (K.pure _))
        · exact .bind (invalidate mk) fun _ ↦ K.pure _
        · exact .bind (invalidate mk) fun _ ↦ K.pure _
      cases r with
      | ok => exact .bind (invalidate mk) fun _ ↦ K.pure _
      | error => exact ih true
      | alreadyExists => exact refused
      | preconditionFailed => exact refused
  refine .get_bind fun t ↦ ?_
  split
  · exact K.pure _
  · exact attempts _ _ t tbl false

theorem writeTables (fuel rounds : ℕ) (is : List ℕ) :
    Keeps sem P i (Remembers i c E) (Tx.writeTables fuel rounds is) := by
  have K := D.keeper hE
  induction is with
  | nil => exact K.pure _
  | cons j is ih =>
    refine .get_bind fun t ↦ ?_
    split
    · exact ih
    · refine .ite (.bind (D.writeCommit hE j _) fun r ↦ ?_) ih
      cases r with
      | ok => exact .bind (D.modifyTable hE j fun _ ↦ ⟨rfl, rfl⟩) fun _ ↦ ih
      | lost => exact .bind (.when K.stable (D.shiftMarker hE fuel j)) fun _ ↦ K.pure _
      | taken => exact .ite (K.pure _) (K.pure _)
      | failed => exact K.pure _

theorem repairGlobalLog (fuel j : ℕ) :
    Keeps sem P i (Remembers i c E) (Tx.repairGlobalLog fuel j) := by
  have K := D.keeper hE
  have moveBehind : ∀ p first highest, Keeps sem P i (Remembers i c E)
      (Tx.moveBehind fuel j p first highest) := by
    intro p first highest
    refine .bind (K.waitVersions fuel p _) fun _ t s hi h ↦ wp_get_bind ?_
    split
    · exact K.pure _ t s hi h
    · refine wp_bind hi (wp_mono (D.reserveVersion hE fuel _ highest h.1 h.2) fun r t₁ s₁ _ h₁ ↦ ?_)
      obtain ⟨tbl', highest'⟩ := r
      obtain ⟨hb, he, hr⟩ := h₁
      refine wp_modify_bind (K.pure _ _ s₁ (D.inv s₁) ⟨hb.setTable fun hm ↦ ?_, he⟩)
      rw [hr.basePath, hr.markerVersion]
      exact hr.placed hm
  refine .get_bind fun t ↦ ?_
  split
  · exact K.pure _
  · refine .bind (K.highestCommitted _ fuel _) fun r ↦ ?_
    cases r with
    | none => exact K.pure _
    | some highest =>
      exact .ite (K.pure _) (.bind (K.updateGlobalEntry _ _) fun b ↦
        .ite (moveBehind _ _ highest) (K.pure _))

theorem releaseTables (is : List ℕ) :
    Keeps sem P i (Remembers i c E) (Tx.releaseTables is) := by
  have K := D.keeper hE
  induction is with
  | nil => exact K.pure _
  | cons j is ih =>
    refine .bind (.get_bind fun t ↦ ?_) fun _ ↦ ih
    split
    · split
      · exact .bind (K.release _) fun _ ↦ D.modifyTable hE j fun _ ↦ ⟨rfl, rfl⟩
      · exact K.pure _
    · exact K.pure _

theorem afterInvalid (fuel rounds : ℕ) :
    Keeps sem P i (Remembers i c E) (Tx.afterInvalid fuel rounds) := by
  have K := D.keeper hE
  refine .bind K.releaseGlobalLock fun _ ↦ .bind (.get_bind fun t ↦
    .ite (D.shiftLost hE fuel _ false) (K.pure _)) fun b ↦ .ite (K.pure _) (.get_bind fun t ↦ ?_)
  refine .bind (D.abort hE false) fun _ ↦ .ite (.bind (D.reopenTables hE fuel false) fun _ ↦ ?_)
    (K.pure _)
  exact .ite (K.pure _) (K.pure _)

theorem writePhase (fuel : ℕ) (st : Tx.CommitState) :
    Keeps sem P i (Remembers i c E) (Tx.writePhase fuel st) := by
  have K := D.keeper hE
  have done : ∀ x : Tx Unit, Keeps sem P i (Remembers i c E) x →
      Keeps sem P i (Remembers i c E) (do
        x
        Tx.abort false
        pure (.done false) : Tx Tx.Round) := fun x hx ↦
    .bind hx fun _ ↦ .bind (D.abort hE false) fun _ ↦ K.pure _
  refine .bind (K.startValidation fuel) fun r ↦ ?_
  split
  · next maps =>
    refine .get_bind fun t ↦ .bind (D.writeTables hE fuel st.rounds _) fun r ↦ ?_
    cases r with
    | written =>
      refine .bind (.bind (K.createGlobalSnapshot maps) fun _ ↦ K.modify_bind
        (fun _ ↦ .of_tables rfl) (.get_bind fun t ↦ .bind (D.releaseTables hE _) fun _ ↦ ?_))
        fun _ ↦ K.pure _
      exact K.pure _
    | taken j =>
      refine .bind (.bind (.get_bind fun t ↦ .ite (D.repairGlobalLog hE fuel j) (K.pure _))
        fun _ ↦ .bind K.releaseGlobalLock fun _ ↦ .get_bind fun t ↦ .ite ?_ (K.pure _))
        fun _ ↦ .ite (K.pure _) (K.pure _)
      exact .bind (D.abort hE false) fun _ ↦ K.pure _
    | lost =>
      refine .bind (.bind K.releaseGlobalLock fun _ ↦ .get_bind fun t ↦ .ite ?_ (K.pure _))
        fun _ ↦ .ite (K.pure _) (K.pure _)
      exact .bind (D.abort hE false) fun _ ↦ K.pure _
    | failed => exact done _ K.releaseGlobalLock
  · refine .bind (D.afterInvalid hE fuel _) fun r ↦ ?_
    cases r with
    | some rounds => exact K.pure _
    | none => exact K.pure _
  · exact .bind (D.abort hE false) fun _ ↦ K.pure _

theorem commit (fuel : ℕ) (readOnly : Bool) :
    Keeps sem P i (Remembers i c E) (Tx.commit fuel readOnly) := by
  have K := D.keeper hE
  have round : ∀ st, Keeps sem P i (Remembers i c E) (Tx.commitRound fuel st) := by
    intro st
    refine .bind (.get_bind fun t ↦ .ite (D.waitAllMarkers hE fuel) (K.pure _)) fun b ↦
      .ite (.get_bind fun t ↦ .bind (D.shiftExpiring hE fuel _ _ false) fun r ↦ ?_) (K.pure _)
    split
    · exact K.pure _
    · exact K.pure _
    · refine .bind (K.collectUnseenVersions fuel) fun _ ↦ .bind (D.resolveConflicts hE st)
        fun r ↦ ?_
      cases r with
      | none => exact K.pure _
      | some st => exact D.writePhase hE fuel st
  have rounds : ∀ n st, Keeps sem P i (Remembers i c E)
      (Tx.commitRounds fuel n st) := by
    intro n
    induction n with
    | zero => exact fun _ ↦ .diverge
    | succ n ih =>
      refine fun st ↦ .bind (round st) fun r ↦ ?_
      cases r with
      | done result => exact K.pure _
      | again st => exact ih st
  refine .ite (.bind (D.abort hE true) fun _ ↦ K.pure _) (K.modify_bind (fun t ↦ ?_) (rounds _ _))
  exact .map t fun _ ↦ rfl

theorem transaction (fuel : ℕ) (p : Table) :
    Keeps sem P i (Remembers i c E) (Tx.transaction fuel p) := by
  have K := D.keeper hE
  have operations : ∀ n, Keeps sem P i (Remembers i c E) (Tx.operations n) := by
    intro n
    induction n with
    | zero => exact .diverge
    | succ n ih =>
      refine .bind (D.call hE .nextOp) fun op ↦ ?_
      split
      · exact .bind (D.openNewTable hE n _) fun b ↦ .ite ih (K.pure _)
      · exact .bind (D.commit hE n _) fun _ ↦ K.pure _
      · exact .bind (D.abort hE true) fun _ ↦ K.pure _
      · exact .bind (K.operate op) fun _ ↦ ih
  exact .bind (D.beginTransaction hE fuel p) fun b ↦ .ite (operations fuel) (K.pure _)

end Watching

end LakeVilla

import LakeVilla.Concurrency.Keeping
import LakeVilla.Protocol.Operate

/-!
# Code that leaves the markers alone

Most of the code of a transaction neither writes a marker or a commit nor changes what it remembers
of markers: the versions in `prevMarkers` and the markers of its tables. Such code keeps every
property that speaks of nothing else (`Keeper`).
-/

namespace LakeVilla

open Concurrency Client

/-- The call writes no running marker. -/
def Call.placeless : Call → Bool
  | .write _ (.marker _ _) | .writeAtomic _ (.marker _ _) | .writeIfMatch _ (.marker _ _) _ => false
  | _ => true

/-- The call writes neither a marker nor a commit of a transaction, and does not ask the user. -/
def Call.idle (c : Call) : Bool := c.placeless && !c.isCommit && decide (c ≠ .nextOp)

/-- The reserved version of a table. -/
def TableStats.reservation (tbl : TableStats) : Table × Option Marker × ℕ :=
  (tbl.basePath, tbl.marker, tbl.markerVersion)

/-- What the transaction knows of markers is the same. -/
structure Txn.SameMarkers (t t' : Txn) : Prop where
  cfg : t'.cfg = t.cfg
  transactionId : t'.transactionId = t.transactionId
  prevMarkers : t'.prevMarkers = t.prevMarkers
  waiting : t'.waiting = t.waiting
  tables : t'.tables.map (·.reservation) = t.tables.map (·.reservation)

namespace Txn.SameMarkers

variable {t t' : Txn}

theorem refl (t : Txn) : t.SameMarkers t := ⟨rfl, rfl, rfl, rfl, rfl⟩

theorem of_tables (h : t' = { t with
    tables := t.tables, relation := t'.relation, localLog := t'.localLog,
    explicitLog := t'.explicitLog, sublog := t'.sublog, globalLockToken := t'.globalLockToken,
    nextToken := t'.nextToken, hazards := t'.hazards, decided := t'.decided }) : t.SameMarkers t' := by
  rw [h]
  exact ⟨rfl, rfl, rfl, rfl, rfl⟩

theorem modifyTable (t : Txn) (i : ℕ) {f : TableStats → TableStats}
    (hf : ∀ tbl, (f tbl).reservation = tbl.reservation) :
    t.SameMarkers { t with tables := t.tables.modify i f } :=
  ⟨rfl, rfl, rfl, rfl, List.map_modify_eq _ fun tbl _ ↦ hf tbl⟩

theorem map (t : Txn) {f : TableStats → TableStats}
    (hf : ∀ tbl, (f tbl).reservation = tbl.reservation) :
    t.SameMarkers { t with tables := t.tables.map f } := by
  refine ⟨rfl, rfl, rfl, rfl, ?_⟩
  rw [List.map_map]
  exact List.map_congr_left fun tbl _ ↦ hf tbl

theorem trans {t'' : Txn} (h : t.SameMarkers t') (h' : t'.SameMarkers t'') : t.SameMarkers t'' :=
  ⟨h'.cfg.trans h.cfg, h'.transactionId.trans h.transactionId,
    h'.prevMarkers.trans h.prevMarkers, h'.waiting.trans h.waiting, h'.tables.trans h.tables⟩

theorem applyConcurrent (t : Txn) (p : Table) (v : ℕ) (c : Commit) :
    t.SameMarkers (t.applyConcurrent p v c) :=
  ⟨rfl, rfl, rfl, rfl, List.map_modify_eq _ fun _ _ ↦ rfl⟩

theorem clearConcurrency (t : Txn) : t.SameMarkers t.clearConcurrency :=
  .map t fun _ ↦ rfl

theorem rebase (t : Txn) : t.SameMarkers t.rebase := by
  unfold Txn.rebase
  split
  · exact .map t fun _ ↦ rfl
  · exact ⟨rfl, rfl, rfl, rfl, rfl⟩

theorem operated (h : t.Operated t') : t.SameMarkers t' := by
  refine ⟨by rw [h.eq], by rw [h.eq], by rw [h.eq], by rw [h.eq], ?_⟩
  have hts := h.tables
  generalize t.tables = ts at hts
  generalize t'.tables = ts' at hts
  induction hts with
  | nil => rfl
  | cons hab _ ih =>
    rw [List.map_cons, List.map_cons, ih, hab.eq]
    rfl

end Txn.SameMarkers

/-- Client `i` keeps `K` in every idle call; `K` speaks of the transaction's markers only. -/
structure Keeper (sem : Semantics TxnId Txn Response Store) (P : Protocol TxnId Txn Response Store)
    (i : TxnId) (K : Txn → Store → Prop) : Prop where
  stable : Stable sem P i K
  frame : ∀ {t t' s}, t.SameMarkers t' → K t s → K t' s
  step : ∀ {t c s r s'}, c.idle = true → P.inv s → sem i t c s r s' → K t s →
    P.inv s' ∧ P.guar i t c s r s' ∧ K t s'

namespace Keeper

variable {sem : Semantics TxnId Txn Response Store} {P : Protocol TxnId Txn Response Store}
variable {i : TxnId} {K : Txn → Store → Prop} (D : Keeper sem P i K)
include D

theorem pure {α : Type} (a : α) : Keeps sem P i K (Pure.pure a : Tx α) := .pure D.stable a

theorem call {c : Call} (hc : c.idle = true) : Keeps sem P i K (Tx.call c) :=
  .perform (fun t s s₁ hm hr hi _ _ hs ↦ D.step hc hi hs (D.stable t s s₁ hr hm)) D.stable

theorem modify {g : Txn → Txn} (hg : ∀ t : Txn, t.SameMarkers (g t)) :
    Keeps sem P i K (modifyThe Txn g : Tx PUnit) :=
  .modify D.stable fun t _ ↦ D.frame (hg t)

theorem modify_bind {α : Type} {g : Txn → Txn} {f : PUnit → Tx α}
    (hg : ∀ t : Txn, t.SameMarkers (g t)) (hf : Keeps sem P i K (f ())) :
    Keeps sem P i K (modifyThe Txn g >>= f) :=
  .modify_bind (fun t _ ↦ D.frame (hg t)) hf

/-! ## Reads and listings -/

theorem readAttempts (k : Key) (n : ℕ) : Keeps sem P i K (Tx.readAttempts k n) := by
  induction n with
  | zero => exact D.pure _
  | succ n ih =>
    refine .bind (D.call rfl) fun o ↦ ?_
    cases o with
    | none => exact ih
    | some o => exact D.pure _

theorem readRetry (k : Key) : Keeps sem P i K (Tx.readRetry k) :=
  .get_bind fun _ ↦ D.readAttempts k _

theorem listAttempts (p : Table) (n : ℕ) : Keeps sem P i K (Tx.listAttempts p n) := by
  induction n with
  | zero => exact D.pure _
  | succ n ih =>
    refine .bind (D.call rfl) fun vs ↦ ?_
    cases vs with
    | none => exact ih
    | some vs => exact D.pure _

theorem classifyVersion (k : Key) : Keeps sem P i K (Tx.classifyVersion k) := by
  refine .bind (D.call rfl) fun o ↦ ?_
  cases o with
  | none => exact D.pure _
  | some o =>
    dsimp only
    split
    · exact D.pure _
    · exact .ite (D.pure _) (D.pure _)
    · exact D.pure _

theorem skipForeignVersions (fuel : ℕ) (p : Table) (v : ℕ) :
    Keeps sem P i K (Tx.skipForeignVersions fuel p v) := by
  induction fuel generalizing v with
  | zero => exact .diverge
  | succ fuel ih =>
    refine .bind (D.call rfl) fun b ↦ .ite (.bind (D.classifyVersion _) fun r ↦ ?_) (D.pure _)
    cases r with
    | foreignCommit => exact ih _
    | empty => exact ih _
    | missing => exact D.pure _
    | marker => exact D.pure _
    | lakeVillaCommit => exact D.pure _

theorem snapshotVersion (fuel : ℕ) (p : Table) : Keeps sem P i K (Tx.snapshotVersion fuel p) := by
  refine .get_bind fun t ↦ ?_
  split
  · refine .ite (.bind (D.skipForeignVersions fuel p _) fun v ↦ ?_) (D.pure _)
    exact D.modify_bind (fun t ↦ .of_tables rfl) (D.pure _)
  · exact D.pure _

theorem highestVersion (p : Table) (v : Option ℕ) : Keeps sem P i K (Tx.highestVersion p v) := by
  cases v with
  | some v => exact D.pure _
  | none =>
    refine .bind (.get_bind fun t ↦ D.listAttempts p _) fun vs ↦ ?_
    cases vs with
    | none => exact D.pure _
    | some vs => exact D.pure _

theorem parseGlobalSnapshots : Keeps sem P i K Tx.parseGlobalSnapshots := by
  refine .get_bind fun t ↦ .ite (.bind (D.call rfl) fun b ↦ .ite ?_ (D.pure _)) (D.pure _)
  refine .bind (D.readRetry _) fun o ↦ ?_
  split
  · exact D.modify fun t ↦ .of_tables rfl
  · exact D.pure _

/-! ## Parsing a log -/

omit D in
theorem parseMarker (t : Txn) (p : Table) (v : ℕ) (j : TxnId) :
    (if t.markers then t.remember p [v] else t).SameMarkers (t.parseMarker p v j) := by
  unfold Txn.parseMarker
  split
  · exact ⟨rfl, rfl, rfl, rfl, rfl⟩
  · exact ⟨rfl, rfl, rfl, rfl, rfl⟩

theorem parseVersion {maxVersion : Option ℕ} {p : Table} {deltaLog : DeltaLogManager} {v : ℕ}
    (hr : ∀ t s, t.markers = true → K t s → K (t.remember p [v]) s) :
    Keeps sem P i K (Tx.parseVersion maxVersion p deltaLog v) := by
  have hif : ∀ t s, K t s → K (if t.markers then t.remember p [v] else t) s := fun t s hK ↦ by
    split
    · next hm => exact hr t s hm hK
    · exact hK
  refine .ite (.bind (D.readRetry _) fun o ↦ ?_) ?_
  · cases o with
    | none => exact D.pure _
    | some o =>
      dsimp only
      split
      · exact D.pure _
      · exact .get_bind fun t ↦ .modify_bind
          (fun t s hK ↦ D.frame (parseMarker t p v _) (hif t s hK)) (D.pure _)
      · exact D.pure _
  · exact .modify_bind hif (D.pure _)

theorem parseRanges {maxVersion : Option ℕ} {p : Table} (n : ℕ) {ranges : List (List ℕ)}
    (hr : ∀ vs ∈ ranges, ∀ v ∈ vs, ∀ t s, t.markers = true → K t s → K (t.remember p [v]) s)
    (st : Tx.Parse) : Keeps sem P i K (Tx.parseRanges maxVersion p n ranges st) := by
  induction n generalizing ranges st with
  | zero => exact D.pure _
  | succ n ih =>
    refine .bind (D.call rfl) fun k ↦ ?_
    split
    · next v rest hk =>
      have hmem := List.mem_of_getElem? hk
      refine .bind (D.parseVersion (hr _ hmem v List.mem_cons_self)) fun r ↦ ?_
      cases r with
      | some r =>
        refine ih (fun vs hvs ↦ ?_) _
        split at hvs
        · exact hr vs (List.mem_of_mem_eraseIdx hvs)
        · rcases List.mem_or_eq_of_mem_set hvs with hvs | rfl
          · exact hr vs hvs
          · exact fun u hu ↦ hr _ hmem u (List.mem_cons_of_mem _ hu)
      | none => exact ih (fun vs hvs ↦ hr vs (List.mem_of_mem_eraseIdx hvs)) _
    · exact D.pure _

/-- Without a bound no version is only remembered. -/
theorem parseAll {p : Table} (n v : ℕ) (deltaLog : DeltaLogManager)
    (hr : ∀ u < v + n, ∀ t s, t.markers = true → K t s → K (t.remember p [u]) s) :
    Keeps sem P i K (Tx.parseAll p n v deltaLog) := by
  induction n generalizing v deltaLog with
  | zero => exact D.pure _
  | succ n ih =>
    refine .bind (D.parseVersion (hr v (by omega))) fun r ↦ ?_
    cases r with
    | none => exact D.pure _
    | some r => exact ih _ _ fun u hu ↦ hr u (by omega)

theorem resetSnapshots : Keeps sem P i K Tx.resetSnapshots :=
  D.modify_bind (fun _ ↦ .of_tables rfl) D.parseGlobalSnapshots

/-! ## Waiting for markers -/

theorem takeOver (p : Table) (v : ℕ) (o : Object) (deadline : Option ℤ) (start : ℤ) :
    Keeps sem P i K (Tx.takeOver p v o deadline start) :=
  .get_bind fun _ ↦ .bind (D.call rfl) fun _ ↦ .ite (D.call rfl) (D.pure _)

theorem waitLoop (p : Table) (v : ℕ) (start : ℤ) (fuel : ℕ) :
    Keeps sem P i K (Tx.waitLoop p v start fuel) := by
  induction fuel with
  | zero => exact .diverge
  | succ fuel ih =>
    refine .bind (D.call rfl) fun o ↦ ?_
    cases o with
    | none => exact D.pure _
    | some o =>
      dsimp only
      split
      · exact D.modify_bind (fun t ↦ .applyConcurrent t p v _) (D.pure _)
      · refine .bind (D.takeOver p v o _ start) fun r ↦ ?_
        split
        · exact D.pure _
        · exact ih
        · exact .get_bind fun t ↦ .bind (D.call rfl) fun now ↦ .ite (D.pure _) ih
      · exact D.pure _

theorem waitForMarker (fuel : ℕ) (p : Table) (v : ℕ) :
    Keeps sem P i K (Tx.waitForMarker fuel p v) :=
  .bind (D.call rfl) fun _ ↦ D.waitLoop p v _ fuel

theorem passMarker (fuel : ℕ) (p : Table) (v : ℕ) : Keeps sem P i K (Tx.passMarker fuel p v) :=
  .bind (D.call rfl) fun _ ↦ .ite (D.waitForMarker fuel p v) (D.pure _)

theorem waitMarkers (fuel : ℕ) {markers : List (Table × ℕ)}
    (hw : ∀ e ∈ none :: markers.map some, ∀ t s, K t s → K { t with waiting := e } s) :
    Keeps sem P i K (Tx.waitMarkers fuel markers) := by
  induction markers with
  | nil => exact D.pure _
  | cons e markers ih =>
    refine .modify_bind (hw (some e) (by simp)) (.bind (D.passMarker fuel _ _) fun b ↦ ?_)
    refine .modify_bind (hw none (by simp)) (.ite (ih fun e he ↦ hw e ?_) (D.pure _))
    rcases List.mem_cons.mp he with rfl | he
    · exact List.mem_cons_self
    · exact List.mem_cons_of_mem _ (List.mem_cons_of_mem _ he)

theorem collectTable (j fuel : ℕ) (tbl : TableStats) (v : ℕ) :
    Keeps sem P i K (Tx.collectTable j fuel tbl v) := by
  induction fuel generalizing v with
  | zero => exact .diverge
  | succ fuel ih =>
    refine .bind (D.call rfl) fun b ↦ .ite (.bind (D.waitForMarker fuel _ v) fun _ ↦ ?_) (D.pure _)
    exact .bind (D.modify fun t ↦ .modifyTable t j fun _ ↦ rfl) fun _ ↦ ih _

theorem collectTables (fuel : ℕ) (is : List ℕ) : Keeps sem P i K (Tx.collectTables fuel is) := by
  induction is with
  | nil => exact D.pure _
  | cons j is ih =>
    refine .get_bind fun t ↦ ?_
    split
    · exact .bind (.when D.stable (D.collectTable j fuel _ _)) fun _ ↦ ih
    · exact ih

theorem collectUnseenVersions (fuel : ℕ) : Keeps sem P i K (Tx.collectUnseenVersions fuel) :=
  .get_bind fun _ ↦ .ite (D.pure _) (D.collectTables fuel _)

theorem waitVersions (fuel : ℕ) (p : Table) (vs : List ℕ) :
    Keeps sem P i K (Tx.waitVersions fuel p vs) := by
  induction vs with
  | nil => exact D.pure _
  | cons v vs ih => exact .bind (D.waitForMarker fuel p v) fun _ ↦ ih

/-! ## Releasing -/

theorem releaseAttempts (n : ℕ) (mk : Marker) : Keeps sem P i K (Tx.releaseAttempts n mk) := by
  induction n with
  | zero => exact D.pure _
  | succ n ih =>
    unfold Tx.releaseAttempts
    split
    · exact .bind (D.call rfl) fun _ ↦ .ite (D.pure _) ih
    · refine .bind (D.call rfl) fun r ↦ ?_
      cases r with
      | ok => exact D.pure _
      | preconditionFailed => exact D.pure _
      | alreadyExists => exact ih
      | error => exact ih

theorem release (mk : Marker) : Keeps sem P i K (Tx.release mk) :=
  .ite (D.releaseAttempts 5 mk) (D.pure _)

theorem destroyMarker (mk : Option Marker) : Keeps sem P i K (Tx.destroyMarker mk) := by
  cases mk with
  | none => exact D.pure _
  | some mk => exact .bind (D.release mk) fun _ ↦ D.pure _

theorem releaseMarker (mk : Option Marker) : Keeps sem P i K (Tx.releaseMarker mk) := by
  cases mk with
  | none => exact D.pure _
  | some mk => exact .bind (D.release mk) fun _ ↦ D.pure _

theorem releaseFailed (tbl : TableStats) : Keeps sem P i K (Tx.releaseFailed tbl) := by
  refine .get_bind fun t ↦ ?_
  split
  · exact .bind (D.call rfl) fun _ ↦ D.pure _
  · exact D.pure _

theorem leaseExpiring (tbl : TableStats) : Keeps sem P i K (Tx.leaseExpiring tbl) := by
  refine .get_bind fun t ↦ ?_
  split
  · exact .ite (D.pure _) (.bind (D.call rfl) fun _ ↦ D.pure _)
  · exact D.pure _

/-! ## The global log -/

theorem breakLock (observed : Token) : Keeps sem P i K (Tx.breakLock observed) := by
  refine .bind (D.call rfl) fun o ↦ ?_
  split
  · exact .ite (.bind (D.call rfl) fun _ ↦ D.pure _) (D.pure _)
  · exact D.pure _

theorem acquired (token : Token) : Keeps sem P i K (Tx.acquired token) :=
  D.modify_bind (fun _ ↦ .of_tables rfl) (D.pure _)

theorem acquireLoop (token : Token) (start : ℤ) (fuel : ℕ) (observed : Option Token) (since : ℤ) :
    Keeps sem P i K (Tx.acquireLoop token start fuel observed since) := by
  induction fuel generalizing observed since with
  | zero => exact .diverge
  | succ fuel ih =>
    refine .get_bind fun t ↦ .get_bind fun t' ↦ .bind (D.call rfl) fun r ↦ ?_
    split
    · exact D.acquired token
    · refine .bind (D.call rfl) fun now ↦ .bind (D.call rfl) fun o ↦ ?_
      split
      · refine .ite (D.acquired token) (.ite (.ite (D.pure _) (ih _ _)) (.ite ?_ ?_))
        · exact .bind (D.breakLock _) fun _ ↦ ih _ _
        · exact .ite (D.pure _) (ih _ _)
      · exact .ite (D.pure _) (ih _ _)

theorem acquireGlobalLock (fuel : ℕ) : Keeps sem P i K (Tx.acquireGlobalLock fuel) := by
  intro t s hi hK
  refine wp_get_bind (wp_set_bind ?_)
  have hK' : K { t with nextToken := t.nextToken + 1 } s := D.frame (.of_tables rfl) hK
  exact Keeps.bind (D.call rfl) (fun _ ↦ D.acquireLoop _ _ fuel none _) _ s hi hK'

theorem deleteAttempts (k : Key) (n : ℕ) : Keeps sem P i K (Tx.deleteAttempts k n) := by
  induction n with
  | zero => exact D.pure _
  | succ n ih => exact .bind (D.call rfl) fun _ ↦ .ite (D.pure _) ih

theorem releaseGlobalLock : Keeps sem P i K Tx.releaseGlobalLock := by
  refine .get_bind fun t ↦ ?_
  split
  · exact D.pure _
  · refine .bind (.bind (D.call rfl) fun o ↦ ?_) fun _ ↦ D.modify fun _ ↦ .of_tables rfl
    split
    · exact .ite (.get_bind fun _ ↦ D.deleteAttempts _ _) (D.pure _)
    · exact D.pure _

theorem startValidation (fuel : ℕ) : Keeps sem P i K (Tx.startValidation fuel) := by
  refine .get_bind fun t ↦ .ite (.bind (D.acquireGlobalLock fuel) fun b ↦ .ite ?_ ?_) (D.pure _)
  · refine .bind (D.call rfl) fun b ↦ .ite (.bind (D.readRetry _) fun o ↦ ?_) (D.pure _)
    cases o with
    | none => exact D.pure _
    | some o =>
      dsimp only
      split
      · split
        · exact D.pure _
        · exact D.pure _
      · exact D.pure _
  · exact D.pure _

theorem writeAttempts {k : Key} {c : Content} (hc : (Call.write k c).idle = true) (n : ℕ) :
    Keeps sem P i K (Tx.writeAttempts k c n) := by
  induction n with
  | zero => exact D.pure _
  | succ n ih => exact .bind (D.call hc) fun _ ↦ .ite (D.pure _) ih

theorem createGlobalSnapshot (maps : VersionMaps) :
    Keeps sem P i K (Tx.createGlobalSnapshot maps) :=
  .get_bind fun _ ↦ .ite (.bind (D.writeAttempts rfl _) fun _ ↦ D.releaseGlobalLock) (D.pure _)

theorem updateGlobalEntry (p : Table) (update : Option ℕ → Option ℕ) :
    Keeps sem P i K (Tx.updateGlobalEntry p update) := by
  refine .bind (.bind (D.call rfl) fun b ↦ .ite (.bind (D.readRetry _) fun o ↦ ?_) (D.pure _))
    fun entries ↦ ?_
  · split
    · exact D.pure _
    · exact D.pure _
    · exact D.pure _
  · cases entries with
    | none => exact D.pure _
    | some entries => exact .ite (D.pure _) (.get_bind fun t ↦ D.writeAttempts rfl _)

theorem highestCommitted (p : Table) (fuel v : ℕ) :
    Keeps sem P i K (Tx.highestCommitted p fuel v) := by
  induction fuel generalizing v with
  | zero => exact .diverge
  | succ fuel ih =>
    refine .bind (D.classifyVersion _) fun r ↦ ?_
    cases r with
    | missing => exact D.pure _
    | marker => exact D.pure _
    | empty => exact ih _
    | lakeVillaCommit => exact ih _
    | foreignCommit => exact ih _

/-! ## Operations -/

theorem operate (op : Op) : Keeps sem P i K (modifyThe Txn fun t ↦ t.operate op : Tx PUnit) :=
  D.modify fun t ↦ .operated (t.operate_operated op)

theorem redoRound (st : Tx.CommitState) : Keeps sem P i K (Tx.redoRound st) :=
  D.modify_bind (fun t ↦ ((Txn.SameMarkers.operated t.redo_operated).trans
    (.clearConcurrency _)).trans (.rebase _)) (D.pure _)

end Keeper

end LakeVilla

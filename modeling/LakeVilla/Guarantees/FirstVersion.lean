import LakeVilla.Guarantees.Service
import LakeVilla.Protocol.Keeping

/-!
# Version 0

A transaction reserves and writes versions after the highest one that it finds, and takes running
markers over. So it never writes version 0 of a table, unless a marker stands there; whatever the
store holds and whichever requests fail. Only the creation of a table writes it (`founded`).
-/

namespace LakeVilla

open Concurrency Client

/-- The object that a call may change. -/
def Call.target : Call → Option Key
  | .write k _ | .writeAtomic k _ | .writeIfMatch k _ _ | .deleteFile k => some k
  | _ => none

/-- The object is a version of a table. -/
def Key.isVersion : Key → Bool
  | .version _ _ => true
  | _ => false

/-- The other objects stay as they are. -/
theorem answer_get {d : Choice} {c : Call} {s s' : Store} {r : Response c} {k : Key}
    (h : answer d c s = (r, s')) (hk : c.target ≠ some k) : s'.get k = s.get k := by
  have hput : ∀ {k' : Key} (content : Content), k' ≠ k → (s.put k' content).get k = s.get k :=
    fun content hne ↦ Store.get_put_of_ne s content hne.symm
  cases c with
  | write k' content =>
    have hne : k' ≠ k := fun he ↦ hk (congrArg some he)
    rcases answer_write h with ⟨-, rfl⟩ | ⟨-, -, rfl | rfl⟩
    · exact hput _ hne
    · rfl
    · exact hput _ hne
  | writeAtomic k' content =>
    have hne : k' ≠ k := fun he ↦ hk (congrArg some he)
    obtain ⟨r, e⟩ := r
    rcases answer_writeAtomic h with ⟨-, -, -, rfl⟩ | ⟨-, -, rfl⟩ | ⟨-, -, rfl | ⟨-, rfl⟩⟩
    · exact hput _ hne
    · rfl
    · rfl
    · exact hput _ hne
  | writeIfMatch k' content etag =>
    have hne : k' ≠ k := fun he ↦ hk (congrArg some he)
    rcases answer_writeIfMatch h with ⟨-, -, rfl⟩ | ⟨-, -, rfl⟩ | ⟨-, -, rfl | ⟨-, rfl⟩⟩
    · exact hput _ hne
    · rfl
    · rfl
    · exact hput _ hne
  | deleteFile k' =>
    have hne : k' ≠ k := fun he ↦ hk (congrArg some he)
    rcases answer_deleteFile h with rfl | rfl
    · rfl
    · rw [Store.get_erase, if_neg hne.symm]
  | check | read | listObjects | storeTime | localTimeMs | schedule | nextOp =>
    obtain ⟨-, rfl⟩ := Prod.mk.inj h
    rfl

/-! ## Markers above version 0 -/

def TableStats.Above (tbl : TableStats) : Prop := ∀ mk, tbl.marker = some mk → mk.version ≠ 0

theorem TableStats.Above.reserved (tbl : TableStats) (v : ℕ) (etag : Option ETag) (deadline : ℤ)
    (valid : Bool) :
    Above { tbl with
      marker := some ⟨tbl.basePath, v + 1, etag, deadline, valid⟩, markerVersion := v + 1 } := by
  rintro mk hmk
  obtain rfl := Option.some.inj hmk
  exact Nat.succ_ne_zero v

/-- All markers of the transaction stand above version 0. -/
def Txn.Above (t : Txn) : Prop := ∀ tbl ∈ t.tables, tbl.Above

namespace Txn.Above

variable {t t' : Txn}

theorem sameMarkers (h : t.Above) (hs : t.SameMarkers t') : t'.Above := by
  intro tbl' htbl'
  have hmem := List.mem_map_of_mem (f := (·.reservation)) htbl'
  rw [hs.tables] at hmem
  obtain ⟨tbl, htbl, heq⟩ := List.mem_map.mp hmem
  obtain ⟨-, hr⟩ := Prod.mk.inj heq
  intro mk hmk
  exact h tbl htbl mk ((Prod.mk.inj hr).1.trans hmk)

theorem modifyTable (h : t.Above) (i : ℕ) {f : TableStats → TableStats}
    (hf : ∀ tbl, tbl.Above → (f tbl).Above) :
    Above { t with tables := t.tables.modify i f } := by
  intro tbl' htbl'
  rcases List.mem_modify htbl' with htbl' | ⟨tbl, htbl, rfl⟩
  · exact h tbl' htbl'
  · exact hf tbl (h tbl (List.mem_of_getElem? htbl))

theorem addTable (h : t.Above) {tbl : TableStats} (ht : tbl.Above) :
    Above { t with tables := t.tables ++ [tbl] } := by
  intro tbl' htbl'
  rcases List.mem_append.mp htbl' with htbl' | htbl'
  · exact h tbl' htbl'
  · obtain rfl := List.mem_singleton.mp htbl'
    exact ht

theorem getElem? (h : t.Above) {i : ℕ} {tbl : TableStats} (ht : t.tables[i]? = some tbl) :
    tbl.Above := h tbl (List.mem_of_getElem? ht)

end Txn.Above

/-! ## The protocol -/

/-- Version 0 of table `p` holds a commit if it is there, and stays as it is. Client `i` writes it
only as `founds` says. -/
def founded (p : Table) (founds : TxnId → Commit → Prop) :
    Protocol TxnId Txn Response Store where
  inv s := ∀ o, s.get (.version p 0) = some o → ∃ c, o.content = .commit c
  guar i _ _ s _ s' := s'.get (.version p 0) = s.get (.version p 0) ∨
    s.get (.version p 0) = none ∧
      ∃ o c, s'.get (.version p 0) = some o ∧ o.content = .commit c ∧ founds i c

/-- The code keeps the markers above version 0, and leaves version 0 of table `p` alone. -/
abbrev Spares (p : Table) (founds : TxnId → Commit → Prop) (i : TxnId) {α : Type} (x : Tx α) :
    Prop :=
  Keeps (served true) (founded p founds) i (fun t _ ↦ t.Above) x

namespace Spares

variable {p q : Table} {founds : TxnId → Commit → Prop} {i : TxnId} {α : Type}

theorem stable : Stable (served true) (founded p founds) i (fun t _ ↦ t.Above) :=
  fun _ _ _ _ h ↦ h

theorem ret (a : α) : Spares p founds i (pure a) := .pure stable a

/-- A call on other objects. -/
theorem step {t : Txn} {c : Call} {s s' : Store} {r : Response c}
    (hc : c.target ≠ some (.version p 0)) (hi : (founded p founds).inv s)
    (hs : served true i t c s r s') :
    (founded p founds).inv s' ∧ (founded p founds).guar i t c s r s' := by
  obtain ⟨d, hd⟩ := served_answer hs
  have hget : s'.get (.version p 0) = (s.wait d.delay).get (.version p 0) := answer_get hd hc
  rw [Store.get_wait] at hget
  exact ⟨fun o ho ↦ hi o (hget ▸ ho), .inl hget⟩

theorem call {c : Call} (hc : c.target ≠ some (.version p 0)) : Spares p founds i (Tx.call c) :=
  .perform (fun _ _ _ hm _ hi _ _ hs ↦
    have ⟨hi', hg⟩ := step hc hi hs
    ⟨hi', hg, hm⟩) stable

/-- A call that changes nothing, or an object that is no version. -/
theorem plain {c : Call} (hc : c.target.all (!·.isVersion) = true) :
    Spares p founds i (Tx.call c) :=
  call fun h ↦ by simp [h, Key.isVersion] at hc

/-- A call on a version above 0. -/
theorem later {c : Call} {q : Table} {v : ℕ} (hc : c.target = some (.version q v)) (hv : v ≠ 0) :
    Spares p founds i (Tx.call c) :=
  call fun h ↦ hv (by
    rw [hc] at h
    cases h
    rfl)

theorem modify {g : Txn → Txn} (hg : ∀ t : Txn, t.SameMarkers (g t)) :
    Spares p founds i (modifyThe Txn g : Tx PUnit) :=
  Keeps.modify stable fun t _ h ↦ h.sameMarkers (hg t)

theorem modify_bind {g : Txn → Txn} {f : PUnit → Tx α} (hg : ∀ t : Txn, t.SameMarkers (g t))
    (hf : Spares p founds i (f ())) : Spares p founds i (modifyThe Txn g >>= f) :=
  Keeps.modify_bind (fun t _ h ↦ h.sameMarkers (hg t)) hf

theorem modifyTable (j : ℕ) {f : TableStats → TableStats} (hf : ∀ tbl, tbl.Above → (f tbl).Above) :
    Spares p founds i (Tx.modifyTable j f) :=
  Keeps.modify stable fun _ _ h ↦ h.modifyTable j hf

/-- The memory is read. -/
theorem inspect {f : Txn → Tx α} (hf : ∀ t, t.Above → Spares p founds i (f t)) :
    Spares p founds i (get >>= f) :=
  fun t s hi h ↦ wp_get_bind (hf t h t s hi h)

/-! ## Reads and listings -/

theorem readAttempts (k : Key) (n : ℕ) : Spares p founds i (Tx.readAttempts k n) := by
  induction n with
  | zero => exact ret _
  | succ n ih =>
    refine .bind (plain rfl) fun o ↦ ?_
    cases o with
    | none => exact ih
    | some o => exact ret _

theorem readRetry (k : Key) : Spares p founds i (Tx.readRetry k) :=
  .get_bind fun _ ↦ readAttempts k _

theorem listAttempts (n : ℕ) : Spares p founds i (Tx.listAttempts q n) := by
  induction n with
  | zero => exact ret _
  | succ n ih =>
    refine .bind (plain rfl) fun vs ↦ ?_
    cases vs with
    | none => exact ih
    | some vs => exact ret _

theorem classifyVersion (k : Key) : Spares p founds i (Tx.classifyVersion k) := by
  refine .bind (plain rfl) fun o ↦ ?_
  cases o with
  | none => exact ret _
  | some o =>
    dsimp only
    split
    · exact ret _
    · exact .ite (ret _) (ret _)
    · exact ret _

theorem skipForeignVersions (fuel v : ℕ) :
    Spares p founds i (Tx.skipForeignVersions fuel q v) := by
  induction fuel generalizing v with
  | zero => exact .diverge
  | succ fuel ih =>
    refine .bind (plain rfl) fun b ↦ .ite (.bind (classifyVersion _) fun r ↦ ?_) (ret _)
    cases r with
    | foreignCommit => exact ih _
    | empty => exact ih _
    | missing => exact ret _
    | marker => exact ret _
    | lakeVillaCommit => exact ret _

theorem snapshotVersion (fuel : ℕ) : Spares p founds i (Tx.snapshotVersion fuel q) := by
  refine .get_bind fun t ↦ ?_
  split
  · refine .ite (.bind (skipForeignVersions fuel _) fun v ↦ ?_) (ret _)
    exact modify_bind (fun t ↦ .of_tables rfl) (ret _)
  · exact ret _

theorem highestVersion (v : Option ℕ) : Spares p founds i (Tx.highestVersion q v) := by
  cases v with
  | some v => exact ret _
  | none =>
    refine .bind (.get_bind fun t ↦ listAttempts _) fun vs ↦ ?_
    cases vs with
    | none => exact ret _
    | some vs => exact ret _

theorem parseGlobalSnapshots : Spares p founds i Tx.parseGlobalSnapshots := by
  refine .get_bind fun t ↦ .ite (.bind (plain rfl) fun b ↦ .ite ?_ (ret _)) (ret _)
  refine .bind (readRetry _) fun o ↦ ?_
  split
  · exact modify fun t ↦ .of_tables rfl
  · exact ret _

theorem remember (t : Txn) (vs : List ℕ) (h : t.Above) :
    (if t.markers then t.remember q vs else t).Above := by
  split
  · exact h
  · exact h

theorem parseVersion {maxVersion : Option ℕ} {deltaLog : DeltaLogManager} {v : ℕ} :
    Spares p founds i (Tx.parseVersion maxVersion q deltaLog v) := by
  refine .ite (.bind (readRetry _) fun o ↦ ?_) ?_
  · cases o with
    | none => exact ret _
    | some o =>
      dsimp only
      split
      · exact ret _
      · exact .get_bind fun t ↦ Keeps.modify_bind (fun t _ h ↦
          (remember t [v] h).sameMarkers (Keeper.parseMarker t q v _)) (ret _)
      · exact ret _
  · exact Keeps.modify_bind (fun t _ h ↦ remember t [v] h) (ret _)

theorem parseRanges {maxVersion : Option ℕ} (n : ℕ) (ranges : List (List ℕ)) (st : Tx.Parse) :
    Spares p founds i (Tx.parseRanges maxVersion q n ranges st) := by
  induction n generalizing ranges st with
  | zero => exact ret _
  | succ n ih =>
    refine .bind (plain rfl) fun k ↦ ?_
    split
    · refine .bind parseVersion fun r ↦ ?_
      cases r with
      | some r => exact ih _ _
      | none => exact ih _ _
    · exact ret _

theorem parseAll (n v : ℕ) (deltaLog : DeltaLogManager) :
    Spares p founds i (Tx.parseAll q n v deltaLog) := by
  induction n generalizing v deltaLog with
  | zero => exact ret _
  | succ n ih =>
    refine .bind parseVersion fun r ↦ ?_
    cases r with
    | none => exact ret _
    | some r => exact ih _ _

theorem resetSnapshots : Spares p founds i Tx.resetSnapshots :=
  modify_bind (fun _ ↦ .of_tables rfl) parseGlobalSnapshots

/-! ## Waiting for markers -/

/-- No marker stands at version 0. -/
theorem read {t : Txn} {s : Store} {v : ℕ} {Q : Option Object → Txn → Store → Prop}
    (hQ : ∀ r s', (founded p founds).inv s' →
      (∀ o j d, r = some o → o.content = .marker j d → Key.version q v ≠ .version p 0) → Q r t s') :
    Client.wp (served true) (founded p founds) i (Tx.read (.version q v)) t Q s := by
  refine wp_perform fun s₁ _ hi₁ r s₂ hs ↦ ?_
  obtain ⟨hi₂, hg⟩ := step (c := .read (.version q v)) nofun hi₁ hs
  refine ⟨hi₂, hg, fun s₃ _ hi₃ ↦ hQ r s₃ hi₃ fun o j d hr hc hk ↦ ?_⟩
  obtain ⟨d, hd⟩ := served_answer hs
  subst hr
  have ho : s₁.get (.version q v) = some o := (Store.get_wait ..).symm.trans (answer_read hd)
  obtain ⟨c, hcommit⟩ := hi₁ o (hk ▸ ho)
  rw [hcommit] at hc
  cases hc

theorem takeOver {v : ℕ} {o : Object} {deadline : Option ℤ} {start : ℤ}
    (hv : Key.version q v ≠ .version p 0) :
    Spares p founds i (Tx.takeOver q v o deadline start) :=
  .get_bind fun _ ↦ .bind (plain rfl) fun _ ↦ .ite (call fun h ↦ hv (Option.some.inj h)) (ret _)

theorem waitLoop (v : ℕ) (start : ℤ) (fuel : ℕ) :
    Spares p founds i (Tx.waitLoop q v start fuel) := by
  induction fuel with
  | zero => exact .diverge
  | succ fuel ih =>
    intro t s hi h
    refine wp_bind hi (read fun o s' hi' hmarker ↦ ?_)
    cases o with
    | none => exact ret _ t s' hi' h
    | some o =>
      dsimp only
      split
      · exact modify_bind (fun t ↦ .applyConcurrent t q v _) (ret _) t s' hi' h
      · next j deadline hc =>
        refine Keeps.bind (takeOver (hmarker o j deadline rfl hc)) (fun r ↦ ?_) t s' hi' h
        split
        · exact ret _
        · exact ih
        · exact .get_bind fun t ↦ .bind (plain rfl) fun now ↦ .ite (ret _) ih
      · exact ret _ t s' hi' h

theorem waitForMarker (fuel v : ℕ) : Spares p founds i (Tx.waitForMarker fuel q v) :=
  .bind (plain rfl) fun _ ↦ waitLoop v _ fuel

theorem passMarker (fuel v : ℕ) : Spares p founds i (Tx.passMarker fuel q v) :=
  .bind (plain rfl) fun _ ↦ .ite (waitForMarker fuel v) (ret _)

theorem waitMarkers (fuel : ℕ) (markers : List (Table × ℕ)) :
    Spares p founds i (Tx.waitMarkers fuel markers) := by
  induction markers with
  | nil => exact ret _
  | cons e markers ih =>
    refine Keeps.modify_bind (fun t _ h ↦ h) (.bind (passMarker fuel _) fun b ↦ ?_)
    exact Keeps.modify_bind (fun t _ h ↦ h) (.ite ih (ret _))

theorem collectTable (j fuel : ℕ) (tbl : TableStats) (v : ℕ) :
    Spares p founds i (Tx.collectTable j fuel tbl v) := by
  induction fuel generalizing v with
  | zero => exact .diverge
  | succ fuel ih =>
    refine .bind (plain rfl) fun b ↦ .ite (.bind (waitForMarker fuel v) fun _ ↦ ?_) (ret _)
    exact .bind (modify fun t ↦ .modifyTable t j fun _ ↦ rfl) fun _ ↦ ih _

theorem collectTables (fuel : ℕ) (is : List ℕ) : Spares p founds i (Tx.collectTables fuel is) := by
  induction is with
  | nil => exact ret _
  | cons j is ih =>
    refine .get_bind fun t ↦ ?_
    split
    · exact .bind (.when stable (collectTable j fuel _ _)) fun _ ↦ ih
    · exact ih

theorem collectUnseenVersions (fuel : ℕ) : Spares p founds i (Tx.collectUnseenVersions fuel) :=
  .get_bind fun _ ↦ .ite (ret _) (collectTables fuel _)

theorem waitVersions (fuel : ℕ) (vs : List ℕ) : Spares p founds i (Tx.waitVersions fuel q vs) := by
  induction vs with
  | nil => exact ret _
  | cons v vs ih => exact .bind (waitForMarker fuel v) fun _ ↦ ih

/-! ## The global log -/

theorem breakLock (observed : Token) : Spares p founds i (Tx.breakLock observed) := by
  refine .bind (plain rfl) fun o ↦ ?_
  split
  · exact .ite (.bind (plain rfl) fun _ ↦ ret _) (ret _)
  · exact ret _

theorem acquired (token : Token) : Spares p founds i (Tx.acquired token) :=
  modify_bind (fun _ ↦ .of_tables rfl) (ret _)

theorem acquireLoop (token : Token) (start : ℤ) (fuel : ℕ) (observed : Option Token) (since : ℤ) :
    Spares p founds i (Tx.acquireLoop token start fuel observed since) := by
  induction fuel generalizing observed since with
  | zero => exact .diverge
  | succ fuel ih =>
    refine .get_bind fun t ↦ .get_bind fun t' ↦ .bind (plain rfl) fun r ↦ ?_
    split
    · exact acquired token
    · refine .bind (plain rfl) fun now ↦ .bind (plain rfl) fun o ↦ ?_
      split
      · refine .ite (acquired token) (.ite (.ite (ret _) (ih _ _)) (.ite ?_ ?_))
        · exact .bind (breakLock _) fun _ ↦ ih _ _
        · exact .ite (ret _) (ih _ _)
      · exact .ite (ret _) (ih _ _)

theorem acquireGlobalLock (fuel : ℕ) : Spares p founds i (Tx.acquireGlobalLock fuel) := by
  intro t s hi h
  refine wp_get_bind (wp_set_bind ?_)
  have h' : Txn.Above { t with nextToken := t.nextToken + 1 } := h
  exact Keeps.bind (plain rfl) (fun _ ↦ acquireLoop _ _ fuel none _) _ s hi h'

theorem deleteAttempts {k : Key} (hk : k.isVersion = false) (n : ℕ) :
    Spares p founds i (Tx.deleteAttempts k n) := by
  induction n with
  | zero => exact ret _
  | succ n ih => exact .bind (plain (by simp [Call.target, hk])) fun _ ↦ .ite (ret _) ih

theorem releaseGlobalLock : Spares p founds i Tx.releaseGlobalLock := by
  refine .get_bind fun t ↦ ?_
  split
  · exact ret _
  · refine .bind (.bind (plain rfl) fun o ↦ ?_) fun _ ↦ modify fun _ ↦ .of_tables rfl
    split
    · exact .ite (.get_bind fun _ ↦ deleteAttempts rfl _) (ret _)
    · exact ret _

theorem startValidation (fuel : ℕ) : Spares p founds i (Tx.startValidation fuel) := by
  refine .get_bind fun t ↦ .ite (.bind (acquireGlobalLock fuel) fun b ↦ .ite ?_ (ret _)) (ret _)
  refine .bind (plain rfl) fun b ↦ .ite (.bind (readRetry _) fun o ↦ ?_) (ret _)
  cases o with
  | none => exact ret _
  | some o =>
    dsimp only
    split
    · split
      · exact ret _
      · exact ret _
    · exact ret _

theorem writeAttempts {k : Key} (hk : k.isVersion = false) (c : Content) (n : ℕ) :
    Spares p founds i (Tx.writeAttempts k c n) := by
  induction n with
  | zero => exact ret _
  | succ n ih => exact .bind (plain (by simp [Call.target, hk])) fun _ ↦ .ite (ret _) ih

theorem createGlobalSnapshot (maps : VersionMaps) :
    Spares p founds i (Tx.createGlobalSnapshot maps) :=
  .get_bind fun _ ↦ .ite (.bind (writeAttempts rfl _ _) fun _ ↦ releaseGlobalLock) (ret _)

theorem globalEntries : Spares p founds i Tx.globalEntries := by
  refine .bind (plain rfl) fun b ↦ .ite (.bind (readRetry _) fun o ↦ ?_) (ret _)
  split
  · exact ret _
  · exact ret _
  · exact ret _

theorem updateGlobalEntry (update : Option ℕ → Option ℕ) :
    Spares p founds i (Tx.updateGlobalEntry q update) := by
  refine .bind globalEntries fun entries ↦ ?_
  cases entries with
  | none => exact ret _
  | some entries => exact .ite (ret _) (.get_bind fun t ↦ writeAttempts rfl _ _)

theorem highestCommitted (fuel v : ℕ) : Spares p founds i (Tx.highestCommitted q fuel v) := by
  induction fuel generalizing v with
  | zero => exact .diverge
  | succ fuel ih =>
    refine .bind (classifyVersion _) fun r ↦ ?_
    cases r with
    | missing => exact ret _
    | marker => exact ret _
    | empty => exact ih _
    | lakeVillaCommit => exact ih _
    | foreignCommit => exact ih _

end Spares

/-! ## Releasing and reserving -/

/-- As `Spares`, with a property of the result. -/
abbrev Yields (p : Table) (founds : TxnId → Commit → Prop) (i : TxnId) {α : Type} (x : Tx α)
    (R : α → Prop) : Prop :=
  ∀ t s, (founded p founds).inv s → t.Above →
    Client.wp (served true) (founded p founds) i x t (fun a t' _ ↦ t'.Above ∧ R a) s

namespace Yields

variable {p q : Table} {founds : TxnId → Commit → Prop} {i : TxnId} {α β : Type} {x : Tx α}
  {R : α → Prop} {R' : β → Prop}

theorem ret {a : α} (h : R a) : Yields p founds i (pure a) R :=
  fun _ _ _ ht ↦ wp_pure fun _ _ _ ↦ ⟨ht, h⟩

theorem bind {f : α → Tx β} (h : Yields p founds i x R)
    (hf : ∀ a, R a → Yields p founds i (f a) R') : Yields p founds i (x >>= f) R' :=
  fun t s hi ht ↦ wp_bind hi (wp_mono (h t s hi ht) fun a t' s' hi' h' ↦ hf a h'.2 t' s' hi' h'.1)

theorem spares_bind {f : α → Tx β} (h : Spares p founds i x)
    (hf : ∀ a, Yields p founds i (f a) R') : Yields p founds i (x >>= f) R' :=
  fun t s hi ht ↦ wp_bind hi (wp_mono (h t s hi ht) fun a t' s' hi' h' ↦ hf a t' s' hi' h')

theorem bind_spares {f : α → Tx β} (h : Yields p founds i x R)
    (hf : ∀ a, R a → Spares p founds i (f a)) : Spares p founds i (x >>= f) :=
  fun t s hi ht ↦ wp_bind hi (wp_mono (h t s hi ht) fun a t' s' hi' h' ↦ hf a h'.2 t' s' hi' h'.1)

theorem get_bind {f : Txn → Tx β} (hf : ∀ t, t.Above → Yields p founds i (f t) R') :
    Yields p founds i (get >>= f) R' :=
  fun t s hi ht ↦ wp_get_bind (hf t ht t s hi ht)

theorem ite {c : Prop} [Decidable c] {x y : Tx α} (h : c → Yields p founds i x R)
    (h' : ¬c → Yields p founds i y R) : Yields p founds i (if c then x else y) R :=
  fun t s hi ht ↦ wp_ite (fun hc ↦ h hc t s hi ht) fun hc ↦ h' hc t s hi ht

theorem releaseAttempts (n : ℕ) {mk : Marker} (hmk : mk.version ≠ 0) :
    Yields p founds i (Tx.releaseAttempts n mk) fun r ↦ r.2.version ≠ 0 := by
  induction n with
  | zero => exact ret hmk
  | succ n ih =>
    unfold Tx.releaseAttempts
    split
    · exact spares_bind (.later rfl hmk) fun _ ↦ ite (fun _ ↦ ret hmk) fun _ ↦ ih
    · refine spares_bind (.later rfl hmk) fun r ↦ ?_
      cases r with
      | ok => exact ret hmk
      | preconditionFailed => exact ret hmk
      | alreadyExists => exact ih
      | error => exact ih

theorem release {mk : Marker} (hmk : mk.version ≠ 0) :
    Yields p founds i (Tx.release mk) fun r ↦ r.2.version ≠ 0 :=
  ite (fun _ ↦ releaseAttempts 5 hmk) fun _ ↦ ret hmk

theorem releaseMarker {marker : Option Marker} (hmk : ∀ mk, marker = some mk → mk.version ≠ 0) :
    Yields p founds i (Tx.releaseMarker marker) fun r ↦ ∀ mk, r = some mk → mk.version ≠ 0 := by
  cases marker with
  | none => exact ret nofun
  | some mk =>
    refine bind (release (hmk mk rfl)) fun r hr ↦ ret fun mk' hmk' ↦ ?_
    obtain rfl := Option.some.inj hmk'
    exact hr

theorem destroyMarker {marker : Option Marker} (hmk : ∀ mk, marker = some mk → mk.version ≠ 0) :
    Spares p founds i (Tx.destroyMarker marker) := by
  cases marker with
  | none => exact .ret _
  | some mk => exact bind_spares (release (hmk mk rfl)) fun _ _ ↦ .ret _

/-- The reserved version comes after another one. -/
theorem reserveVersion (fuel : ℕ) {tbl : TableStats} (ht : tbl.Above) (highest : ℕ) :
    Yields p founds i (Tx.reserveVersion fuel tbl highest) fun r ↦ r.1.Above := by
  induction fuel generalizing highest with
  | zero => exact fun _ _ _ _ ↦ wp_diverge
  | succ fuel ih =>
    refine get_bind fun t _ ↦ ite (fun _ ↦ ?_) fun _ ↦
      ret (TableStats.Above.reserved tbl highest none 0 false)
    refine spares_bind (.plain rfl) fun b ↦ ite (fun _ ↦ ih _) fun _ ↦ ?_
    refine spares_bind (.plain rfl) fun now ↦ spares_bind (.later rfl (Nat.succ_ne_zero _)) fun r ↦ ?_
    obtain ⟨status, etag⟩ := r
    cases status with
    | ok =>
      exact spares_bind (destroyMarker ht) fun _ ↦
        ret (TableStats.Above.reserved tbl highest etag _ true)
    | alreadyExists => exact ih _
    | preconditionFailed => exact ih _
    | error => exact ih _

end Yields

namespace Spares

variable {p q : Table} {founds : TxnId → Commit → Prop} {i : TxnId} {α : Type}

open Yields (release releaseMarker reserveVersion)

theorem abortTable (j : ℕ) : Spares p founds i (Tx.abortTable j) := by
  refine inspect fun t h ↦ ?_
  split
  · next tbl hj =>
    split
    · next mk hmk =>
      refine (release (h.getElem? hj mk hmk)).bind_spares fun r hr ↦ modifyTable j fun _ _ mk' hmk' ↦ ?_
      obtain rfl := Option.some.inj hmk'
      split
      · exact hr
      · exact hr
    · exact ret _
  · exact ret _

theorem abortTables (is : List ℕ) : Spares p founds i (Tx.abortTables is) := by
  induction is with
  | nil => exact ret _
  | cons j is ih => exact .bind (abortTable j) fun _ ↦ ih

theorem abort (clearSubdir : Bool) : Spares p founds i (Tx.abort clearSubdir) :=
  .get_bind fun _ ↦ .bind (.when stable (abortTables _)) fun _ ↦
    .when stable (modify fun _ ↦ .of_tables rfl)

theorem leaseExpiring (tbl : TableStats) : Spares p founds i (Tx.leaseExpiring tbl) := by
  refine .get_bind fun t ↦ ?_
  split
  · exact .ite (ret _) (.bind (plain rfl) fun _ ↦ ret _)
  · exact ret _

theorem markerLost (j : ℕ) {tbl : TableStats} (ht : tbl.Above) :
    Spares p founds i (Tx.markerLost j tbl) := by
  unfold Tx.markerLost
  split
  · next mk hmk =>
    split
    · refine .bind (plain rfl) fun o ↦ ?_
      cases o with
      | none => exact ret _
      | some o =>
        refine .ite (.bind (modifyTable j fun _ _ mk' hmk' ↦ ?_) fun _ ↦ ret _) (ret _)
        obtain rfl := Option.some.inj hmk'
        exact ht mk hmk
    · exact ret _
  · exact ret _

theorem shiftMarker (fuel j : ℕ) : Spares p founds i (Tx.shiftMarker fuel j) := by
  refine inspect fun t h ↦ ?_
  split
  · exact ret _
  · next tbl hj =>
    refine (releaseMarker (h.getElem? hj)).bind_spares fun mk hmk ↦ ?_
    have ht : TableStats.Above { tbl with marker := mk } := hmk
    refine (reserveVersion fuel ht _).bind_spares fun r hr ↦ ?_
    exact .bind (modifyTable j fun _ _ ↦ hr) fun _ ↦ Keeps.modify stable fun _ _ h ↦ h

/-! ## Opening tables -/

theorem loadTable (fuel : ℕ) {tbl : TableStats} (ht : tbl.Above) (dependencies : Bool) :
    Yields p founds i (Tx.loadTable fuel tbl dependencies) fun r ↦ r.1.Above := by
  refine Yields.get_bind fun t _ ↦ Yields.spares_bind (snapshotVersion fuel) fun maxVersion ↦
    Yields.spares_bind (highestVersion maxVersion) fun highest ↦ ?_
  cases highest with
  | none => exact .ret ht
  | some highest =>
    have ht' : TableStats.Above
        { tbl with deltaLog := {}, concurrentRemoves := [], concurrentChange := false } := ht
    refine (reserveVersion fuel ht' highest).bind fun r hr ↦ ?_
    refine Yields.spares_bind (parseRanges _ _ _) fun st ↦ ?_
    exact Yields.spares_bind (modify fun _ ↦ .of_tables rfl) fun _ ↦ .ret hr

theorem loadTables (fuel : ℕ) (is : List ℕ) (dependencies : Bool) :
    Spares p founds i (Tx.loadTables fuel is dependencies) := by
  induction is generalizing dependencies with
  | nil => exact ret _
  | cons j is ih =>
    refine inspect fun t h ↦ ?_
    split
    · exact ret _
    · next tbl hj =>
      refine (loadTable fuel (h.getElem? hj) dependencies).bind_spares fun r hr ↦ ?_
      exact .bind (modifyTable j fun _ _ ↦ hr) fun _ ↦ .ite (ih _) (ret _)

theorem reopenTables (fuel : ℕ) (retry : Bool) :
    Spares p founds i (Tx.reopenTables fuel retry) := by
  induction fuel generalizing retry with
  | zero => exact .diverge
  | succ fuel ih =>
    refine .bind resetSnapshots fun _ ↦ .get_bind fun t ↦ .bind (loadTables fuel _ _) fun r ↦ ?_
    split
    · exact .ite (ih _) (ret _)
    · exact ret _
    · exact ih _

theorem reopenUntilFixed (fuel : ℕ) : Spares p founds i (Tx.reopenUntilFixed fuel) := by
  induction fuel with
  | zero => exact .diverge
  | succ fuel ih =>
    exact .bind (abort false) fun _ ↦ .bind (reopenTables fuel false) fun b ↦ .ite (ret _) ih

theorem releaseFailed {tbl : TableStats} (ht : tbl.Above) :
    Spares p founds i (Tx.releaseFailed tbl) := by
  refine .get_bind fun t ↦ ?_
  split
  · next mk _ hmk => exact .bind (later rfl (ht mk hmk)) fun _ ↦ ret _
  · exact ret _

theorem openTableV2 (fuel : ℕ) (path : Table) :
    Yields p founds i (Tx.openTableV2 fuel path) fun r ↦ ∀ tbl, r = some tbl → tbl.Above := by
  have hnew : TableStats.Above { basePath := path } := nofun
  refine (loadTable fuel hnew false).bind fun r hr ↦ .ite (fun _ ↦ ?_) fun _ ↦ ?_
  · refine Yields.spares_bind (.when stable (reopenUntilFixed fuel)) fun _ ↦ .ret fun tbl htbl ↦ ?_
    obtain rfl := Option.some.inj htbl
    exact hr
  · exact Yields.spares_bind (releaseFailed hr) fun _ ↦ .ret nofun

theorem addTable {tbl : TableStats} (ht : tbl.Above) : Spares p founds i
    (modifyThe Txn fun t ↦ { t with tables := t.tables ++ [tbl] } : Tx PUnit) :=
  Keeps.modify stable fun _ _ h ↦ h.addTable ht

theorem begin (fuel : ℕ) (path : Table) : Spares p founds i (Tx.begin fuel path) := by
  refine .bind parseGlobalSnapshots fun _ ↦ (openTableV2 fuel path).bind_spares fun r hr ↦ ?_
  cases r with
  | none => exact ret _
  | some tbl => exact .bind (addTable (hr tbl rfl)) fun _ ↦ ret _

theorem beginAttempts (fuel : ℕ) (path : Table) (n : ℕ) :
    Spares p founds i (Tx.beginAttempts fuel path n) := by
  induction n with
  | zero => exact ret _
  | succ n ih => exact .bind (begin fuel path) fun b ↦ .ite (ret _) ih

theorem openAttempts (fuel : ℕ) (path : Table) (n : ℕ) :
    Spares p founds i (Tx.openAttempts fuel path n) := by
  induction n with
  | zero => exact .bind (abort true) fun _ ↦ ret _
  | succ n ih =>
    refine (openTableV2 fuel path).bind_spares fun r hr ↦ ?_
    cases r with
    | none => exact ih
    | some tbl => exact .bind (addTable (hr tbl rfl)) fun _ ↦ ret _

/-! ## The first steps of a commit -/

theorem waitAllMarkers (fuel : ℕ) : Spares p founds i (Tx.waitAllMarkers fuel) := by
  induction fuel with
  | zero => exact .diverge
  | succ fuel ih =>
    refine .get_bind fun t ↦ .bind (waitMarkers fuel _) fun b ↦ .ite (ret _) (.get_bind fun t ↦ ?_)
    refine .ite (.bind (abort true) fun _ ↦ ret _) (.bind (reopenTables fuel false) fun opened ↦ ?_)
    exact modify_bind (fun _ ↦ .of_tables rfl) ih

theorem shiftExpiring (fuel rounds : ℕ) (is : List ℕ) (shifted : Bool) :
    Spares p founds i (Tx.shiftExpiring fuel rounds is shifted) := by
  induction is generalizing shifted with
  | nil => exact ret _
  | cons j is ih =>
    refine .get_bind fun t ↦ ?_
    split
    · exact ih _
    · refine .bind (.ite (leaseExpiring _) (ret _)) fun b ↦ .ite (.ite ?_ ?_) (ih _)
      · exact .bind (abort true) fun _ ↦ ret _
      · exact .bind (shiftMarker fuel j) fun _ ↦ ih _

theorem rebuildTables (is : List ℕ) : Spares p founds i (Tx.rebuildTables is) := by
  induction is with
  | nil => exact ret _
  | cons j is ih =>
    refine .get_bind fun t ↦ ?_
    split
    · exact ih
    · refine .bind (modifyTable j fun _ ↦ id) fun _ ↦ .bind (parseAll _ _ _) fun r ↦ ?_
      cases r with
      | none => exact ret _
      | some deltaLog => exact .bind (modifyTable j fun _ ↦ id) fun _ ↦ ih

theorem rebuildState : Spares p founds i Tx.rebuildState :=
  .get_bind fun _ ↦ .bind (rebuildTables _) fun _ ↦
    .ite (modify_bind (fun t ↦ .clearConcurrency t) (ret _)) (ret _)

theorem redoRound (st : Tx.CommitState) : Spares p founds i (Tx.redoRound st) :=
  modify_bind (fun t ↦ ((Txn.SameMarkers.operated t.redo_operated).trans
    (.clearConcurrency _)).trans (.rebase _)) (ret _)

theorem redoAgain (st : Tx.CommitState) : Spares p founds i (Tx.redoAgain st) :=
  .get_bind fun _ ↦ .ite (.bind (abort false) fun _ ↦ ret _) <|
    .bind rebuildState fun _ ↦ .ite (.bind (redoRound _) fun _ ↦ ret _) <|
      .bind (abort false) fun _ ↦ ret _

theorem resolveConflicts (st : Tx.CommitState) : Spares p founds i (Tx.resolveConflicts st) :=
  .get_bind fun _ ↦ .ite
    (.ite (.ite (redoAgain st) (ret _)) (.bind (redoRound st) fun _ ↦ ret _))
    (.ite (.bind (abort false) fun _ ↦ ret _) (ret _))

/-! ## Writing the tables -/

section Write

variable {mk : Marker} (hmk : mk.version ≠ 0)
include hmk

theorem writeLog (log : Content) : Spares p founds i (Tx.writeLog mk log) := by
  refine .get_bind fun t ↦ ?_
  split
  · exact .bind (later rfl hmk) fun _ ↦ .ite (ret _) (ret _)
  · exact later rfl hmk
  · exact .bind (later rfl hmk) fun _ ↦ ret _

theorem invalidate (j : ℕ) : Spares p founds i (Tx.invalidate j mk) :=
  modifyTable j fun _ _ mk' hmk' ↦ by
    obtain rfl := Option.some.inj hmk'
    exact hmk

theorem writeCommitAttempts (j : ℕ) (log : Content) (n : ℕ) (uncertain : Bool) :
    Spares p founds i (Tx.writeCommitAttempts j mk log n uncertain) := by
  induction n generalizing uncertain with
  | zero => exact ret _
  | succ n ih =>
    have hours : Spares p founds i (Tx.writtenByUs mk log uncertain) := by
      refine .ite (.bind (plain rfl) fun o ↦ ?_) (ret _)
      cases o with
      | none => exact ret _
      | some o => exact ret _
    refine .bind (writeLog hmk log) fun r ↦ ?_
    split
    · exact .bind (invalidate hmk j) fun _ ↦ ret _
    · exact ih _
    · refine .bind hours fun b ↦ .ite (.bind (invalidate hmk j) fun _ ↦ ret _) ?_
      exact .get_bind fun _ ↦ .ite (.bind (invalidate hmk j) fun _ ↦ ret _) (ret _)

end Write

theorem writeCommit (j : ℕ) {tbl : TableStats} (ht : tbl.Above) :
    Spares p founds i (Tx.writeCommit j tbl) := by
  refine .get_bind fun t ↦ ?_
  split
  · exact ret _
  · next mk hmk => exact writeCommitAttempts (ht mk hmk) j _ _ _

theorem writeTables (fuel rounds : ℕ) (is : List ℕ) :
    Spares p founds i (Tx.writeTables fuel rounds is) := by
  induction is with
  | nil => exact ret _
  | cons j is ih =>
    refine inspect fun t h ↦ ?_
    split
    · exact ih
    · next tbl hj =>
      refine .ite (.bind (writeCommit j (h.getElem? hj)) fun r ↦ ?_) ih
      cases r with
      | ok => exact .bind (modifyTable j fun _ ↦ id) fun _ ↦ ih
      | lost => exact .bind (.when stable (shiftMarker fuel j)) fun _ ↦ ret _
      | taken => exact .ite (ret _) (ret _)
      | failed => exact ret _

theorem releaseTables (is : List ℕ) : Spares p founds i (Tx.releaseTables is) := by
  induction is with
  | nil => exact ret _
  | cons j is ih =>
    refine .bind (inspect fun t h ↦ ?_) fun _ ↦ ih
    split
    · next tbl hj =>
      split
      · next mk hmk =>
        refine (release (h.getElem? hj mk hmk)).bind_spares fun r hr ↦
          modifyTable j fun _ _ mk' hmk' ↦ ?_
        obtain rfl := Option.some.inj hmk'
        exact hr
      · exact ret _
    · exact ret _

theorem moveBehind (fuel j first highest : ℕ) :
    Spares p founds i (Tx.moveBehind fuel j q first highest) := by
  refine .bind (waitVersions fuel _) fun _ ↦ inspect fun t h ↦ ?_
  split
  · exact ret _
  · next tbl hj =>
    have hold : tbl.Above := h.getElem? hj
    have ht : TableStats.Above { tbl with readVersion := highest } := hold
    refine (reserveVersion fuel ht highest).bind_spares fun r hr ↦ ?_
    exact .bind (modifyTable j fun _ _ ↦ hr) fun _ ↦ ret _

theorem repairGlobalLog (fuel j : ℕ) : Spares p founds i (Tx.repairGlobalLog fuel j) := by
  refine .get_bind fun t ↦ ?_
  split
  · exact ret _
  · refine .bind (highestCommitted fuel _) fun r ↦ ?_
    cases r with
    | none => exact ret _
    | some highest =>
      exact .ite (ret _) (.bind (updateGlobalEntry _) fun _ ↦ .ite (moveBehind _ _ _ _) (ret _))

/-! ## The commit -/

theorem shiftLost (fuel : ℕ) (is : List ℕ) (moved : Bool) :
    Spares p founds i (Tx.shiftLost fuel is moved) := by
  induction is generalizing moved with
  | nil => exact ret _
  | cons j is ih =>
    refine inspect fun t h ↦ ?_
    split
    · exact ih _
    · next tbl hj =>
      refine .bind (.ite (markerLost j (h.getElem? hj)) (ret _)) fun b ↦ .ite ?_ (ih _)
      exact .bind (shiftMarker fuel j) fun _ ↦ ih _

theorem afterTaken (fuel j claimFailures : ℕ) :
    Spares p founds i (Tx.afterTaken fuel j claimFailures) :=
  .bind (.get_bind fun _ ↦ .ite (repairGlobalLog fuel j) (ret _)) fun _ ↦
    .bind releaseGlobalLock fun _ ↦ .get_bind fun _ ↦
      .ite (.bind (abort false) fun _ ↦ ret _) (ret _)

theorem afterInvalid (fuel rounds : ℕ) : Spares p founds i (Tx.afterInvalid fuel rounds) :=
  .bind releaseGlobalLock fun _ ↦
    .bind (.get_bind fun _ ↦ .ite (shiftLost fuel _ _) (ret _)) fun _ ↦
      .ite (ret _) <| .get_bind fun _ ↦ .bind (abort false) fun _ ↦
        .ite (.bind (reopenTables fuel false) fun _ ↦ .ite (ret _) (ret _)) (ret _)

theorem afterLost (rounds : ℕ) : Spares p founds i (Tx.afterLost rounds) :=
  .bind releaseGlobalLock fun _ ↦ .get_bind fun _ ↦
    .ite (.bind (abort false) fun _ ↦ ret _) (ret _)

theorem finish (maps : VersionMaps) : Spares p founds i (Tx.finish maps) :=
  .bind (createGlobalSnapshot maps) fun _ ↦ modify_bind (fun _ ↦ .of_tables rfl) <|
    .get_bind fun _ ↦ .bind (releaseTables _) fun _ ↦ ret _

theorem writePhase (fuel : ℕ) (st : Tx.CommitState) :
    Spares p founds i (Tx.writePhase fuel st) := by
  refine .bind (startValidation fuel) fun r ↦ ?_
  obtain ⟨validation, maps⟩ := r
  cases validation with
  | valid =>
    refine .get_bind fun t ↦ .bind (writeTables fuel _ _) fun r ↦ ?_
    cases r with
    | written => exact .bind (finish maps) fun _ ↦ ret _
    | taken j => exact .bind (afterTaken fuel j _) fun _ ↦ .ite (ret _) (ret _)
    | lost => exact .bind (afterLost _) fun _ ↦ .ite (ret _) (ret _)
    | failed => exact .bind releaseGlobalLock fun _ ↦ .bind (abort false) fun _ ↦ ret _
  | invalid =>
    refine .bind (afterInvalid fuel _) fun r ↦ ?_
    cases r with
    | some rounds => exact ret _
    | none => exact ret _
  | lockTimeout => exact .bind (abort false) fun _ ↦ ret _

theorem commitRound (fuel : ℕ) (st : Tx.CommitState) :
    Spares p founds i (Tx.commitRound fuel st) := by
  refine .bind (.get_bind fun _ ↦ .ite (waitAllMarkers fuel) (ret _)) fun b ↦ .ite ?_ (ret _)
  refine .get_bind fun t ↦ .bind (shiftExpiring fuel _ _ _) fun r ↦ ?_
  split
  · exact ret _
  · exact ret _
  · refine .bind (collectUnseenVersions fuel) fun _ ↦ .bind (resolveConflicts st) fun r ↦ ?_
    cases r with
    | none => exact ret _
    | some st => exact writePhase fuel st

theorem commitRounds (fuel n : ℕ) (st : Tx.CommitState) :
    Spares p founds i (Tx.commitRounds fuel n st) := by
  induction n generalizing st with
  | zero => exact .diverge
  | succ n ih =>
    refine .bind (commitRound fuel st) fun r ↦ ?_
    cases r with
    | done result => exact ret _
    | again st => exact ih st

theorem commit (fuel : ℕ) (readOnly : Bool) : Spares p founds i (Tx.commit fuel readOnly) :=
  .ite (.bind (abort true) fun _ ↦ ret _) <|
    modify_bind (fun t ↦ .map t fun _ ↦ rfl) (commitRounds fuel fuel _)

theorem operations (fuel : ℕ) : Spares p founds i (Tx.operations fuel) := by
  induction fuel with
  | zero => exact .diverge
  | succ fuel ih =>
    have hlocal : ∀ op, Spares p founds i (do
        modifyThe Txn fun t ↦ t.operate op
        Tx.operations fuel : Tx Outcome) := fun op ↦
      modify_bind (fun t ↦ .operated (t.operate_operated op)) ih
    refine .bind (plain rfl) fun op ↦ ?_
    cases op with
    | openTable path => exact .bind (openAttempts fuel path 5) fun _ ↦ .ite ih (ret _)
    | commit readOnly => exact .bind (commit fuel readOnly) fun _ ↦ ret _
    | abort => exact .bind (abort true) fun _ ↦ ret _
    | readTable i => exact hlocal _
    | readFile i key => exact hlocal _
    | addRows i rows prev => exact hlocal _
    | addPath i file overwrite prev listed => exact hlocal _
    | removePath i file prev => exact hlocal _
    | removeKey i key prev => exact hlocal _
    | registerValues values => exact hlocal _
    | registerUpdate values op impl => exact hlocal _

/-- **No transaction writes version 0.** -/
theorem transaction (fuel : ℕ) (path : Table) : Spares p founds i (Tx.transaction fuel path) :=
  .bind (beginAttempts fuel path 5) fun _ ↦ .ite (operations fuel) (ret _)

end Spares

end LakeVilla

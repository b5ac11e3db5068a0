import LakeVilla.Data.Positions
import LakeVilla.Protocol.Discipline

/-!
# Handles of reserved versions

A transaction keeps the ETag of every marker it placed. The object with that ETag is its marker, and
nothing else ever is (`Marker.Held`); hence a write that is conditional on the ETag replaces the
transaction's own marker or fails. As long as the transaction has not committed the version, the
version holds that marker or an empty commit (`Marker.Open`).
-/

namespace LakeVilla

open Concurrency

namespace Marker

/-- The object with the handle's ETag is a marker of client `i`; without markers nothing is ever
released. -/
structure Held (i : TxnId) (markers : Bool) (s : Store) (mk : Marker) : Prop where
  etag : markers = true → ∃ e, mk.etag = some e ∧ e ≤ s.nextEtag ∧
    ∀ o, s.get mk.path = some o → o.etag = e → ∃ d, o.content = .marker i d
  invalid : markers = false → mk.valid = false

/-- The version still holds the marker, or it was released or taken over. -/
def Open (i : TxnId) (s : Store) (mk : Marker) : Prop :=
  (∃ o d, s.get mk.path = some o ∧ mk.etag = some o.etag ∧ o.content = .marker i d) ∨
    s.log mk.table mk.version = some []

variable {i : TxnId} {markers : Bool} {s s' : Store} {mk : Marker}

theorem Held.mono (h : mk.Held i markers s) (hs : Later s s') : mk.Held i markers s' where
  etag hm := by
    obtain ⟨e, he, hle, ho⟩ := h.etag hm
    refine ⟨e, he, le_trans hle hs.etag, fun o hget hoe ↦ ho o ?_ hoe⟩
    exact hs.get_of_etag hget (hoe ▸ hle)
  invalid := h.invalid

theorem Held.setInvalid (h : mk.Held i markers s) : mk.setInvalid.Held i markers s :=
  ⟨h.etag, fun _ ↦ rfl⟩

theorem Open.mono (h : mk.Open i s) (hs : QuietLater i s s') : mk.Open i s' := by
  induction hs with
  | refl => exact h
  | tail _ hstep ih =>
    rcases ih with ⟨o, d, ho, he, hc⟩ | hl
    · rcases hstep with ⟨j, hj, hf⟩ | ⟨hf, hq⟩
      · rcases hf.foreign_marker ho hc hj with hg | hl
        · exact .inl ⟨o, d, hg, he, hc⟩
        · exact .inr hl
      · rcases hf.version mk.table mk.version with hg | ⟨o', ho', -, hm⟩
        · exact .inl ⟨o, d, hg.trans ho, he, hc⟩
        · rw [path] at ho
          rw [ho, Option.map_some, hc] at hm
          -- the marker became a commit, and a quiet step adds no actions
          obtain ⟨c, hc'⟩ : ∃ c, o'.content = .commit c := by
            generalize o'.content = content at hm
            cases hm with
            | commit _ c _ => exact ⟨c, rfl⟩
            | release _ _ c _ => exact ⟨c, rfl⟩
          have hl := Store.log_of_get ho' hc'
          rcases hq.log hl with hold | hnil
          · obtain ⟨o₁, c₁, ho₁, hc₁, -⟩ := Store.log_eq_some.mp hold
            rw [ho] at ho₁
            rw [Option.some.inj ho₁, hc₁] at hc
            cases hc
          · exact .inr (by rw [hl, hnil])
    · rcases hstep with ⟨j, -, hf⟩ | ⟨hf, -⟩
      · exact .inr (hf.log_mono hl)
      · exact .inr (hf.log_mono hl)

end Marker

/-- The object with this ETag is a marker. -/
def MarkerTag (s : Store) (p : Table) (v : ℕ) (e : ETag) : Prop :=
  e ≤ s.nextEtag ∧ ∀ o, s.get (.version p v) = some o → o.etag = e → ∃ j d, o.content = .marker j d

theorem MarkerTag.mono {s s' : Store} {p : Table} {v : ℕ} {e : ETag} (h : MarkerTag s p v e)
    (hs : Later s s') : MarkerTag s' p v e :=
  ⟨le_trans h.1 hs.etag, fun o ho he ↦ h.2 o (hs.get_of_etag ho (he ▸ h.1)) he⟩

theorem Marker.Held.tag {i : TxnId} {s : Store} {mk : Marker} (h : mk.Held i true s) :
    ∃ e, mk.etag = some e ∧ MarkerTag s mk.table mk.version e := by
  obtain ⟨e, he, hle, ho⟩ := h.etag rfl
  refine ⟨e, he, hle, fun o hget hoe ↦ ?_⟩
  obtain ⟨d, hd⟩ := ho o hget hoe
  exact ⟨i, d, hd⟩

/-- No write of the client fails. -/
structure Reliable (sem : Semantics TxnId Txn Response Store) (i : TxnId) : Prop where
  write : ∀ {m k c s r s'}, sem i m (.write k c) s r s' → r = true
  writeAtomic : ∀ {m k c s r s'}, sem i m (.writeAtomic k c) s r s' → r.1 ≠ .error
  writeIfMatch : ∀ {m k c e s r s'}, sem i m (.writeIfMatch k c e) s r s' → r ≠ .error

theorem emptyCommit_plain : emptyCommit.Plain := .inr ⟨_, rfl, rfl⟩

/-- Replacing a marker by an empty commit is a quiet step. -/
theorem MarkerTag.empty_step {i : TxnId} {s s' : Store} {p : Table} {v : ℕ} {e : ETag}
    {d : Choice} {r : WriteStatus} (h : MarkerTag s p v e) (hs : s.WF)
    (hr : answer d (.writeIfMatch (.version p v) emptyCommit e) s = (r, s')) :
    s'.WF ∧ Fenced i s s' ∧ Quiet s s' ∧ Apart s s' := by
  have hput : (∃ o, s.get (.version p v) = some o ∧ o.etag = e) →
      (s.put (.version p v) emptyCommit).WF ∧ Fenced i s (s.put (.version p v) emptyCommit) ∧
        Quiet s (s.put (.version p v) emptyCommit) ∧
        Apart s (s.put (.version p v) emptyCommit) := by
    rintro ⟨o, ho, he⟩
    obtain ⟨j, dl, hc⟩ := h.2 o ho he
    have hm : Moves i ((s.get (.version p v)).map (·.content)) emptyCommit := by
      rw [ho, Option.map_some, hc]
      exact .release j dl _ rfl
    exact ⟨hs.put hm (hs.below (Nat.sub_le v 1) (by simp [Store.Exists, ho])), .put hm,
      .put emptyCommit_plain, .put⟩
  rcases answer_writeIfMatch hr with ⟨-, ho, rfl⟩ | ⟨-, -, rfl⟩ | ⟨-, -, rfl | ⟨ho, rfl⟩⟩
  · exact hput ho
  · exact ⟨hs, .refl _ _, .refl _, .refl _⟩
  · exact ⟨hs, .refl _ _, .refl _, .refl _⟩
  · exact hput ho

/-! ## Releasing -/

namespace Disciplined

variable {sem : Semantics TxnId Txn Response Store} {P : Protocol TxnId Txn Response Store}
variable {i : TxnId} {t : Txn} {s : Store} {mk : Marker}

/-- A marker is replaced by an empty commit. -/
theorem writeEmpty (D : Disciplined sem P) {p : Table} {v : ℕ} {e : ETag}
    (he : MarkerTag s p v e) {Q : WriteStatus → Txn → Store → Prop}
    (h : ∀ r s₁ s₂ s₃, QuietLater i s s₁ →
      Acted sem i t (.writeIfMatch (.version p v) emptyCommit e) s₁ r s₂ → QuietLater i s₁ s₂ →
      P.inv s₂ → QuietLater i s₂ s₃ → P.inv s₃ → Q r t s₃) :
    Client.wp sem P i (Tx.writeIfMatch (.version p v) emptyCommit e) t Q s :=
  D.act rfl (fun _ _ _ _ h₁ hs hr ↦ (he.mono h₁.later).empty_step hs hr) h

/-- What a release leads to. With reliable writes the version is empty afterwards. -/
structure Released (sem : Semantics TxnId Txn Response Store) (i : TxnId) (s : Store) (mk : Marker)
    (ok : Bool) (mk' : Marker) (s' : Store) : Prop where
  marker : mk' = mk.setInvalid ∨ mk' = mk ∧ ok = false
  reliable : Reliable sem i → mk' = mk.setInvalid
  empty : Reliable sem i → mk.valid = true → mk.Open i s → s'.log mk.table mk.version = some []

theorem releaseAttempts (D : Disciplined sem P) (n : ℕ) (hv : mk.valid = true)
    (hh : mk.Held i t.markers s) (hi : P.inv s) {Q : Bool × Marker → Txn → Store → Prop}
    (h : ∀ ok mk' s', QuietLater i s s' → P.inv s' → (n ≠ 0 → Released sem i s mk ok mk' s') →
      (mk' = mk.setInvalid ∨ mk' = mk ∧ ok = false) → Q (ok, mk') t s') :
    Client.wp sem P i (Tx.releaseAttempts n mk) t Q s := by
  induction n generalizing s with
  | zero =>
    exact Client.wp_pure fun s' hs hi' ↦ h _ _ s' (D.rely hs) hi' (by simp) (.inr ⟨rfl, rfl⟩)
  | succ n ih =>
    have hm : t.markers = true := by
      by_contra hm
      exact absurd hv (by simp [hh.invalid (by simpa using hm)])
    rw [hm] at hh
    obtain ⟨e, he, htag⟩ := hh.tag
    simp only [Tx.releaseAttempts, he]
    refine Client.wp_bind hi (D.writeEmpty htag fun r s₁ s₂ s₃ h₁ hact h₂ hi₂ h₃ hi₃ ↦ ?_)
    have h₁₃ : QuietLater i s s₃ := h₁.trans (h₂.trans h₃)
    obtain ⟨-, s₀, d, hsem, -, hr⟩ := hact
    have hdone : ∀ s', QuietLater i s₃ s' → r ≠ .error →
        Released sem i s mk true mk.setInvalid s' := by
      refine fun s' hs' hne ↦ ⟨.inl rfl, fun _ ↦ rfl, fun _ _ hopen ↦ ?_⟩
      refine (h₃.trans hs').later.log_mono ?_
      rcases answer_writeIfMatch hr with ⟨-, -, rfl⟩ | ⟨-, hno, rfl⟩ | ⟨rfl, -⟩
      · exact Store.log_of_get (Store.get_put_self ..) rfl
      · rcases hopen.mono h₁ with ⟨o, d', ho, he', -⟩ | hl
        · exact absurd (Option.some.inj (he'.symm.trans he)) (hno o ho)
        · exact hl
      · exact absurd rfl hne
    have hagain : r = .error → Client.wp sem P i (Tx.releaseAttempts n mk) t Q s₃ := by
      rintro rfl
      refine ih (hm ▸ hh.mono h₁₃.later) hi₃ fun ok mk' s' hs' hi' _ hmk ↦ ?_
      refine h ok mk' s' (h₁₃.trans hs') hi' (fun _ ↦ ⟨hmk, fun hrel ↦ ?_, fun hrel ↦ ?_⟩) hmk
      · exact absurd rfl (hrel.writeIfMatch hsem)
      · exact absurd rfl (hrel.writeIfMatch hsem)
    cases r with
    | ok =>
      exact Client.wp_pure fun s' hs hi' ↦ h _ _ s' (h₁₃.trans (D.rely hs)) hi'
        (fun _ ↦ hdone s' (D.rely hs) (by simp)) (.inl rfl)
    | preconditionFailed =>
      exact Client.wp_pure fun s' hs hi' ↦ h _ _ s' (h₁₃.trans (D.rely hs)) hi'
        (fun _ ↦ hdone s' (D.rely hs) (by simp)) (.inl rfl)
    | alreadyExists =>
      rcases answer_writeIfMatch hr with ⟨h', -⟩ | ⟨h', -⟩ | ⟨h', -⟩ <;> cases h'
    | error => exact hagain rfl

theorem release (D : Disciplined sem P) (hh : mk.Held i t.markers s) (hi : P.inv s)
    {Q : Bool × Marker → Txn → Store → Prop}
    (h : ∀ ok mk' s', QuietLater i s s' → P.inv s' → Released sem i s mk ok mk' s' →
      Q (ok, mk') t s') :
    Client.wp sem P i (Tx.release mk) t Q s := by
  unfold Tx.release
  split
  · next hv =>
    exact D.releaseAttempts 5 hv hh hi fun ok mk' s' hs hi' hr _ ↦ h ok mk' s' hs hi' (hr (by simp))
  · next hv =>
    have hmk : mk = mk.setInvalid := by
      cases mk
      simpa [Marker.setInvalid] using hv
    refine Client.wp_pure fun s' hs hi' ↦ h _ _ s' (D.rely hs) hi' ⟨.inl hmk, fun _ ↦ hmk, ?_⟩
    exact fun _ hv' ↦ absurd hv' hv

end Disciplined

/-! ## Opened tables -/

/-- An opened table of client `i`. -/
structure Reserved (i : TxnId) (markers : Bool) (s : Store) (tbl : TableStats) : Prop where
  marker : ∃ mk, tbl.marker = some mk ∧ mk.table = tbl.basePath ∧ mk.version = tbl.markerVersion ∧
    mk.Held i markers s
  before : s.Exists tbl.basePath (tbl.markerVersion - 1)
  placed : markers = true ∨ tbl.committed = true → s.Exists tbl.basePath tbl.markerVersion
  read : s.Exists tbl.basePath tbl.readVersion

theorem Reserved.mono {i : TxnId} {markers : Bool} {s s' : Store} {tbl : TableStats}
    (h : Reserved i markers s tbl) (hs : Later s s') : Reserved i markers s' tbl where
  marker := by
    obtain ⟨mk, hmk, h₁, h₂, h₃⟩ := h.marker
    exact ⟨mk, hmk, h₁, h₂, h₃.mono hs⟩
  before := hs.exists_mono h.before
  placed hm := hs.exists_mono (h.placed hm)
  read := hs.exists_mono h.read

/-- What a transaction's manager may count on at any time. -/
structure Sound (i : TxnId) (t : Txn) (s : Store) : Prop where
  id : t.transactionId = i
  tables : ∀ tbl ∈ t.tables, Reserved i t.markers s tbl
  localLog : ∀ e ∈ t.localLog, s.Exists e.1 e.2
  prevMarkers : ∀ e ∈ t.prevMarkers, s.Exists e.1 e.2

theorem Sound.mono {i : TxnId} {t : Txn} {s s' : Store} (h : Sound i t s) (hs : Later s s') :
    Sound i t s' where
  id := h.id
  tables tbl htbl := (h.tables tbl htbl).mono hs
  localLog e he := hs.exists_mono (h.localLog e he)
  prevMarkers e he := hs.exists_mono (h.prevMarkers e he)

/-- The table up to its marker, which may have become invalid. -/
structure Unmarked (a b : TableStats) : Prop where
  eq : b = { a with marker := b.marker }
  marker : b.marker = a.marker ∨ ∃ mk, a.marker = some mk ∧ b.marker = some mk.setInvalid

namespace Unmarked

variable {a b c : TableStats}

theorem refl (a : TableStats) : Unmarked a a := ⟨rfl, .inl rfl⟩

theorem trans (h : Unmarked a b) (h' : Unmarked b c) : Unmarked a c where
  eq := by rw [h'.eq, h.eq]
  marker := by
    rcases h'.marker with hc | ⟨mk, hb, hc⟩
    · rw [hc]
      exact h.marker
    · rcases h.marker with hb' | ⟨mk', ha, hb'⟩
      · exact .inr ⟨mk, hb' ▸ hb, hc⟩
      · rw [hb'] at hb
        obtain rfl := Option.some.inj hb
        exact .inr ⟨mk', ha, hc⟩

theorem reserved {i : TxnId} {markers : Bool} {s : Store} (h : Unmarked a b)
    (ha : Reserved i markers s a) : Reserved i markers s b := by
  obtain ⟨mk, hmk, h₁, h₂, h₃⟩ := ha.marker
  have hm : ∃ mk', b.marker = some mk' ∧ mk'.table = a.basePath ∧
      mk'.version = a.markerVersion ∧ mk'.Held i markers s := by
    rcases h.marker with hb | ⟨mk', ha', hb⟩
    · exact ⟨mk, hb.trans hmk, h₁, h₂, h₃⟩
    · rw [hmk] at ha'
      obtain rfl := Option.some.inj ha'
      exact ⟨mk.setInvalid, hb, h₁, h₂, h₃.setInvalid⟩
  rw [h.eq]
  exact ⟨hm, ha.before, ha.placed, ha.read⟩

end Unmarked

/-- The state after an abort. -/
structure Aborted (t t' : Txn) : Prop where
  eq : t' = { t with tables := t'.tables, sublog := t'.sublog }
  tables : List.Forall₂ Unmarked t.tables t'.tables

theorem Aborted.refl (t : Txn) : Aborted t t :=
  ⟨rfl, List.forall₂_same.mpr fun a _ ↦ .refl a⟩

theorem Aborted.trans {t t' t'' : Txn} (h : Aborted t t') (h' : Aborted t' t'') :
    Aborted t t'' where
  eq := by rw [h'.eq, h.eq]
  tables := h.tables.comp (fun h₁ h₂ ↦ h₁.trans h₂) h'.tables

theorem Aborted.sound {i : TxnId} {t t' : Txn} {s : Store} (h : Aborted t t') (ht : Sound i t s) :
    Sound i t' s := by
  rw [h.eq]
  refine ⟨ht.id, fun b hb ↦ ?_, ht.localLog, ht.prevMarkers⟩
  obtain ⟨a, ha, hab⟩ := h.tables.exists_left hb
  exact hab.reserved (ht.tables a ha)

namespace Disciplined

variable {sem : Semantics TxnId Txn Response Store} {P : Protocol TxnId Txn Response Store}
variable {i : TxnId} {t : Txn} {s : Store}

theorem abortTable (D : Disciplined sem P) (j : ℕ) (ht : Sound i t s) (hi : P.inv s)
    {Q : Unit → Txn → Store → Prop}
    (h : ∀ t' s', QuietLater i s s' → P.inv s' → Aborted t t' → t'.sublog = t.sublog → Q () t' s') :
    Client.wp sem P i (Tx.abortTable j) t Q s := by
  unfold Tx.abortTable
  refine Client.wp_get_bind ?_
  split
  · next tbl htbl =>
    split
    · next mk hmk =>
      obtain ⟨mk', hmk', -, -, hheld⟩ := (ht.tables tbl (List.mem_of_getElem? htbl)).marker
      obtain rfl : mk = mk' := Option.some.inj (hmk.symm.trans hmk')
      refine Client.wp_bind hi (D.release hheld hi fun ok mk' s' hs hi' hr ↦ ?_)
      refine Client.wp_modify fun s₁ h₁ hi₁ ↦ h _ s₁ (hs.trans (D.rely h₁)) hi₁ ⟨rfl, ?_⟩ rfl
      have hm : (if ok = true then mk' else mk'.setInvalid) = mk.setInvalid := by
        rcases hr.marker with rfl | ⟨rfl, rfl⟩
        · split <;> rfl
        · rfl
      rw [hm]
      refine List.forall₂_modify Unmarked.refl fun a ha ↦ ?_
      obtain rfl : tbl = a := Option.some.inj (htbl.symm.trans ha)
      exact ⟨rfl, .inr ⟨mk, hmk, rfl⟩⟩
    · exact Client.wp_pure fun s₁ h₁ hi₁ ↦ h t s₁ (D.rely h₁) hi₁ (.refl t) rfl
  · exact Client.wp_pure fun s₁ h₁ hi₁ ↦ h t s₁ (D.rely h₁) hi₁ (.refl t) rfl

theorem abortTables (D : Disciplined sem P) (js : List ℕ) (ht : Sound i t s) (hi : P.inv s)
    {Q : Unit → Txn → Store → Prop}
    (h : ∀ t' s', QuietLater i s s' → P.inv s' → Aborted t t' → t'.sublog = t.sublog → Q () t' s') :
    Client.wp sem P i (Tx.abortTables js) t Q s := by
  induction js generalizing t s with
  | nil => exact Client.wp_pure fun s' hs hi' ↦ h t s' (D.rely hs) hi' (.refl t) rfl
  | cons j js ih =>
    refine Client.wp_bind hi (D.abortTable j ht hi fun t₁ s₁ h₁ hi₁ hab₁ hsub₁ ↦ ?_)
    refine ih (hab₁.sound (ht.mono h₁.later)) hi₁ fun t₂ s₂ h₂ hi₂ hab₂ hsub₂ ↦ ?_
    exact h t₂ s₂ (h₁.trans h₂) hi₂ (hab₁.trans hab₂) (hsub₂.trans hsub₁)

theorem abort (D : Disciplined sem P) (clear : Bool) (ht : Sound i t s) (hi : P.inv s)
    {Q : Unit → Txn → Store → Prop}
    (h : ∀ t' s', QuietLater i s s' → P.inv s' → Aborted t t' →
      (clear = false → t'.sublog = t.sublog) → Q () t' s') :
    Client.wp sem P i (Tx.abort clear) t Q s := by
  have hclear : ∀ t₁ s₁, QuietLater i s s₁ → P.inv s₁ → Aborted t t₁ → t₁.sublog = t.sublog →
      Client.wp sem P i (Tx.when clear Tx.clearSubdirectory) t₁ Q s₁ := by
    intro t₁ s₁ h₁ hi₁ hab hsub
    refine Client.wp_when (fun hc ↦ Client.wp_modify fun s₂ h₂ hi₂ ↦ ?_) fun hc s₂ h₂ hi₂ ↦ ?_
    · refine h _ s₂ (h₁.trans (D.rely h₂)) hi₂ ⟨?_, hab.tables⟩ fun hf ↦ ?_
      · rw [hab.eq]
      · rw [hc] at hf
        cases hf
    · exact h t₁ s₂ (h₁.trans (D.rely h₂)) hi₂ hab fun _ ↦ hsub
  refine Client.wp_get_bind (Client.wp_bind hi (Client.wp_when (fun _ ↦ ?_) fun _ s₁ h₁ hi₁ ↦ ?_))
  · exact D.abortTables _ ht hi hclear
  · exact hclear t s₁ (D.rely h₁) hi₁ (.refl t) rfl

theorem destroyMarker (D : Disciplined sem P) {m : Option Marker}
    (hm : ∀ mk, m = some mk → mk.Held i t.markers s) (hi : P.inv s) {Q : Unit → Txn → Store → Prop}
    (h : ∀ s', QuietLater i s s' → P.inv s' → Q () t s') :
    Client.wp sem P i (Tx.destroyMarker m) t Q s := by
  cases m with
  | none => exact Client.wp_pure fun s' hs hi' ↦ h s' (D.rely hs) hi'
  | some mk =>
    refine Client.wp_bind hi (D.release (hm mk rfl) hi fun _ _ s' hs hi' _ ↦ ?_)
    exact Client.wp_pure fun s'' hs' hi'' ↦ h s'' (hs.trans (D.rely hs')) hi''

end Disciplined

/-- A version that was just reserved: the version after `h`. -/
structure NewMarker (i : TxnId) (markers : Bool) (p : Table) (h : ℕ) (s : Store)
    (mk : Marker) : Prop where
  table : mk.table = p
  version : mk.version = h + 1
  held : mk.Held i markers s
  before : s.Exists p h
  placed : markers = true → mk.valid = true ∧ mk.Open i s ∧ s.Exists p (h + 1)

theorem NewMarker.mono {i : TxnId} {markers : Bool} {p : Table} {h : ℕ} {s s' : Store}
    {mk : Marker} (hn : NewMarker i markers p h s mk) (hs : QuietLater i s s') :
    NewMarker i markers p h s' mk where
  table := hn.table
  version := hn.version
  held := hn.held.mono hs.later
  before := hs.later.exists_mono hn.before
  placed hm :=
    have ⟨h₁, h₂, h₃⟩ := hn.placed hm
    ⟨h₁, h₂.mono hs, hs.later.exists_mono h₃⟩

namespace Disciplined

variable {sem : Semantics TxnId Txn Response Store} {P : Protocol TxnId Txn Response Store}
variable {i : TxnId} {t : Txn} {s : Store}

/-- A marker of the client is placed with a put-if-absent. -/
theorem placeMarker (D : Disciplined sem P) {p : Table} {v : ℕ} {d : Option ℤ}
    (hb : s.Exists p (v - 1)) {Q : WriteStatus × ETag → Txn → Store → Prop}
    (h : ∀ r s₁ s₂ s₃, QuietLater i s s₁ →
      Acted sem i t (.writeAtomic (.version p v) (.marker i d)) s₁ r s₂ → QuietLater i s₁ s₂ →
      P.inv s₂ → QuietLater i s₂ s₃ → P.inv s₃ → Q r t s₃) :
    Client.wp sem P i (Tx.writeAtomic (.version p v) (.marker i d)) t Q s := by
  refine D.act rfl (fun d' r s₁ s₂ h₁ hs hr ↦ ?_) h
  have hput : s₁.get (.version p v) = none →
      (s₁.put (.version p v) (.marker i d)).WF ∧
        Fenced i s₁ (s₁.put (.version p v) (.marker i d)) ∧
        Quiet s₁ (s₁.put (.version p v) (.marker i d)) ∧
        Apart s₁ (s₁.put (.version p v) (.marker i d)) := by
    intro hn
    have hm : Moves i ((s₁.get (.version p v)).map (·.content)) (.marker i d) := by
      rw [hn]
      exact .reserve d
    exact ⟨hs.put hm (h₁.later.exists_mono hb), .put hm, .put (.inl ⟨i, d, rfl⟩), .put⟩
  rcases answer_writeAtomic hr with ⟨-, -, hn, rfl⟩ | ⟨-, -, rfl⟩ | ⟨-, -, rfl | ⟨hn, rfl⟩⟩
  · exact hput hn
  · exact ⟨hs, .refl _ _, .refl _, .refl _⟩
  · exact ⟨hs, .refl _ _, .refl _, .refl _⟩
  · exact hput hn

theorem reserveVersion (D : Disciplined sem P) (fuel : ℕ) (tbl : TableStats) {highest : ℕ}
    (hid : t.transactionId = i) (hm : ∀ mk, tbl.marker = some mk → mk.Held i t.markers s)
    (hb : s.Exists tbl.basePath highest) (hi : P.inv s)
    {Q : TableStats × ℕ → Txn → Store → Prop}
    (h : ∀ h' mk s', QuietLater i s s' → P.inv s' → highest ≤ h' →
      NewMarker i t.markers tbl.basePath h' s' mk →
      (t.markers = true → ∀ u, s.Exists tbl.basePath u → u ≤ h') →
      (t.markers = false → h' = highest) →
      Q ({ tbl with marker := some mk, markerVersion := h' + 1 }, h') t s') :
    Client.wp sem P i (Tx.reserveVersion fuel tbl highest) t Q s := by
  induction fuel generalizing s highest with
  | zero => exact Client.wp_diverge
  | succ fuel ih =>
    unfold Tx.reserveVersion
    refine Client.wp_get_bind ?_
    split
    · next hmk =>
      have hagain : ∀ h₀ s', highest ≤ h₀ → QuietLater i s s' → P.inv s' →
          s'.Exists tbl.basePath h₀ →
          Client.wp sem P i (Tx.reserveVersion fuel tbl h₀) t Q s' := by
        intro h₀ s' hle hs hi' hex
        refine ih (fun mk hmk ↦ (hm mk hmk).mono hs.later) hex hi' ?_
        intro h' mk s'' hs' hi'' hle' hn hu _
        exact h h' mk s'' (hs.trans hs') hi'' (le_trans hle hle') hn
          (fun hmk u hu' ↦ hu hmk u (hs.later.exists_mono hu')) fun hf ↦ absurd hmk (by simp [hf])
      refine Client.wp_bind hi (D.ask (fun _ _ ↦ rfl) fun b s₁ s₂ h₁ hi₁ hb₁ h₂ hi₂ ↦ ?_)
      have h₁₂ := h₁.trans h₂
      cases b with
      | true => exact hagain _ s₂ (Nat.le_succ _) h₁₂ hi₂ (h₂.later.exists_mono hb₁.check)
      | false =>
        refine Client.wp_bind hi₂ (D.ask (fun _ _ ↦ rfl) fun now _ s₃ h₃ _ _ h₃' hi₃ ↦ ?_)
        have h₁₃ := h₁₂.trans (h₃.trans h₃')
        simp only [hid]
        refine Client.wp_bind hi₃ (D.placeMarker (h₁₃.later.exists_mono hb)
          fun r s₄ s₅ s₆ h₄ hact h₅ hi₅ h₆ hi₆ ↦ ?_)
        have h₁₆ := h₁₃.trans (h₄.trans (h₅.trans h₆))
        obtain ⟨r, etag⟩ := r
        obtain ⟨hwf, _, d, -, -, hr⟩ := hact
        rcases answer_writeAtomic hr with ⟨rfl, rfl, hn, rfl⟩ | ⟨rfl, hs, rfl⟩ | ⟨rfl, -, -⟩
        · refine Client.wp_bind hi₆ (D.destroyMarker (fun mk hmk ↦ (hm mk hmk).mono h₁₆.later) hi₆
            fun s₇ h₇ hi₇ ↦ Client.wp_pure fun s₈ h₈ hi₈ ↦ ?_)
          have h₅₈ := h₆.trans (h₇.trans (D.rely h₈))
          refine h highest _ s₈ (h₁₆.trans (h₇.trans (D.rely h₈))) hi₈ le_rfl
            (NewMarker.mono ?_ h₅₈) (fun _ u hu ↦ ?_) fun hf ↦ absurd hmk (by simp [hf])
          · refine ⟨rfl, rfl, ⟨fun _ ↦ ⟨_, rfl, le_rfl, fun o ho _ ↦ ?_⟩, fun hf ↦ ?_⟩, ?_,
            fun _ ↦ ?_⟩
            · rw [Marker.path, Store.get_put_self] at ho
              exact ⟨_, by rw [← Option.some.inj ho]⟩
            · exact absurd hmk (by simp [hf])
            · exact (h₅.later.exists_mono ((h₁₃.trans h₄).later.exists_mono hb))
            · exact ⟨rfl, .inl ⟨_, _, Store.get_put_self .., rfl, rfl⟩, Store.exists_put_self⟩
          · by_contra hlt
            -- a later version would exist without the one that was just placed
            have hex := hwf.below (Nat.lt_of_not_le hlt) ((h₁₃.trans h₄).later.exists_mono hu)
            simp [Store.Exists, hn] at hex
        · exact hagain _ s₆ (Nat.le_succ _) h₁₆ hi₆ ((h₅.trans h₆).later.exists_mono hs)
        · exact hagain _ s₆ le_rfl h₁₆ hi₆ (h₁₆.later.exists_mono hb)
    · next hmk =>
      have hmk : t.markers = false := by simpa using hmk
      refine Client.wp_pure fun s' hs hi' ↦ h highest _ s' (D.rely hs) hi' le_rfl ?_ ?_ fun _ ↦ rfl
      · refine ⟨rfl, rfl, ⟨fun hf ↦ ?_, fun _ ↦ rfl⟩, (D.rely hs).later.exists_mono hb, fun hf ↦ ?_⟩
        · simp [hf] at hmk
        · simp [hf] at hmk
      · intro hf
        simp [hf] at hmk

end Disciplined

end LakeVilla

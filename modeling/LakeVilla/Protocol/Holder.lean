import LakeVilla.Protocol.Holding

/-!
# Keeping hold of markers

The rules for the code that places and releases the markers of a transaction, up to the opening of a
table (`Holder`). The code keeps `Holding` together with facts that last, about the transaction's
handles (`Lasting`) or about the paths of its tables (`Enduring`).
-/

namespace LakeVilla

open Concurrency Client

/-- The steps of client `i` that place and release its markers are answered, and the protocol allows
every call in which the transaction holds its markers. With `once` a table is opened once. -/
structure Holder (sem : Semantics TxnId Txn Response Store)
    (P : Protocol TxnId Txn Response Store) (i : TxnId) (c : Config) (once : Prop) : Prop where
  served : ∀ {j m k s r s'}, sem j m k s r s' → ∃ d, answer d k (s.wait d.delay) = (r, s')
  fenced : ∀ {j m k s r s'}, sem j m k s r s' → Fenced j s s'
  /-- a put-if-absent of a marker that is not answered with success has no effect -/
  placed : ∀ {t p v j d s r s'}, sem i t (.writeAtomic (.version p v) (.marker j d)) s r s' →
    r.1 ≠ .ok → s'.journal = s.journal
  /-- the release of a marker is answered with success -/
  released : ∀ {t p v e s r s' o d}, sem i t (.writeIfMatch (.version p v) emptyCommit e) s r s' →
    s.get (.version p v) = some o → o.content = .marker i d → o.etag = e → r = .ok
  /-- an unconditional write over a marker takes effect -/
  overwritten : ∀ {t p v cm s r s'}, sem i t (.write (.version p v) (.commit cm)) s r s' →
    ¬ s'.Running p v i
  asked : ∀ {t p s s'}, sem i t .nextOp s (.openTable p) s' → once →
    ∀ tbl ∈ t.tables, tbl.basePath ≠ p
  step : ∀ {t k s r s' X}, k.placeless = true → P.inv s → sem i t k s r s' → Holding i c X t s →
    (X = [] ∨ k.idle = true) → P.inv s' ∧ P.guar i t k s r s'
  place : ∀ {t p v d s r s' X}, P.inv s → Holding i c X t s →
    (once → ∀ mk ∈ X, mk.table ≠ p) →
    sem i t (.writeAtomic (.version p v) (.marker i d)) s r s' →
    P.inv s' ∧ P.guar i t (.writeAtomic (.version p v) (.marker i d)) s r s'

/-- What is known of the markers in the transaction, and of the store from then on. -/
structure Lasting (E : Txn → Store → Prop) : Prop where
  frame : ∀ {t t' s}, t.SameHandles t' → E t s → E t' s
  mono : ∀ {j t s s'}, Fenced j s s' → E t s → E t s'

theorem Lasting.and {E F : Txn → Store → Prop} (hE : Lasting E) (hF : Lasting F) :
    Lasting fun t s ↦ E t s ∧ F t s :=
  ⟨fun ht h ↦ ⟨hE.frame ht h.1, hF.frame ht h.2⟩, fun hf h ↦ ⟨hE.mono hf h.1, hF.mono hf h.2⟩⟩

/-- What is known of the paths of the tables, and of the store from then on. -/
structure Enduring (E : Txn → Store → Prop) : Prop where
  frame : ∀ {t t' s}, t'.tables.map (·.basePath) = t.tables.map (·.basePath) → E t s → E t' s
  mono : ∀ {j t s s'}, Fenced j s s' → E t s → E t s'

theorem Enduring.lasting {E : Txn → Store → Prop} (hE : Enduring E) : Lasting E where
  frame {t t' s} ht h := by
    refine hE.frame ?_ h
    have := congrArg (List.map (·.1)) ht.tables
    simpa only [List.map_map, Function.comp_def, TableStats.reservation] using this
  mono := hE.mono

/-- The tables outside `is` have no valid handle of a running marker. -/
def Cleared (i : TxnId) (is : List ℕ) (t : Txn) (s : Store) : Prop :=
  ∀ n ∉ is, ∀ tbl, t.tables[n]? = some tbl → ∀ m, tbl.marker = some m → m.valid = true →
    s.Gone i m.table m.version

theorem Lasting.cleared (i : TxnId) (is : List ℕ) : Lasting (Cleared i is) where
  frame {t t' s} ht h n hn tbl' htbl' m hm hv := by
    have hget : (t.tables.map (·.reservation))[n]? = some tbl'.reservation := by
      rw [← ht.tables, List.getElem?_map, htbl']
      rfl
    rw [List.getElem?_map] at hget
    obtain ⟨tbl, htbl, heq⟩ := Option.map_eq_some_iff.mp hget
    exact h n hn tbl htbl m ((Prod.mk.inj (Prod.mk.inj heq).2).1.trans hm) hv
  mono hf h n hn tbl htbl m hm hv := (h n hn tbl htbl m hm hv).mono hf

theorem Lasting.mine (i : TxnId) (mk : Marker) : Lasting fun _ s ↦ mk.Mine i s :=
  ⟨fun _ h ↦ h, fun hf h ↦ h.mono hf⟩

theorem Lasting.gone (i : TxnId) (p : Table) (v : ℕ) : Lasting fun _ s ↦ s.Gone i p v :=
  ⟨fun _ h ↦ h, fun hf h ↦ h.mono hf⟩

namespace Holder

variable {sem : Semantics TxnId Txn Response Store} {P : Protocol TxnId Txn Response Store}
variable {i : TxnId} {c : Config} {once : Prop} (D : Holder sem P i c once)
include D

/-- What the other clients do leaves the markers to the client. -/
theorem rely {E : Txn → Store → Prop} (hE : Lasting E) {X : List Marker} {t : Txn} {s s' : Store}
    (hr : P.rely sem i s s') (h : Holding i c X t s ∧ E t s) : Holding i c X t s' ∧ E t s' := by
  induction hr with
  | refl => exact h
  | tail _ hstep ih =>
    obtain ⟨j, hj, m, k, r, hsem, -⟩ := hstep
    exact ⟨ih.1.other (D.fenced hsem) hj, hE.mono (D.fenced hsem) ih.2⟩

variable {E : Txn → Store → Prop} {X : List Marker}

section Lasting

variable (hE : Lasting E)
include hE

theorem placeless {t : Txn} {k : Call} {s s' : Store} {r : Response k}
    (hk : k.placeless = true) (hs : sem i t k s r s') (h : Holding i c X t s ∧ E t s) :
    Holding i c X t s' ∧ E t s' := by
  obtain ⟨d, hd⟩ := D.served hs
  refine ⟨h.1.mono (D.fenced hs) fun p v hr ↦ ?_, hE.mono (D.fenced hs) h.2⟩
  exact (answer_placeless hk hd hr : (s.wait d.delay).Running p v i)

theorem keeper : Keeper sem P i fun t s ↦ Holding i c X t s ∧ E t s where
  stable _ _ _ hr h := D.rely hE hr h
  frame ht h := ⟨h.1.sameHandles ht.handles, hE.frame ht.handles h.2⟩
  step {t k s r s'} hk hi hs h := by
    have hp : k.placeless = true := by
      simp only [Call.idle, Bool.and_eq_true] at hk
      exact hk.1.1
    obtain ⟨hi', hg⟩ := D.step hp hi hs h.1 (.inr hk)
    exact ⟨hi', hg, D.placeless hE hp hs h⟩

/-- An idle call, with what it did. -/
theorem ask {t : Txn} {s : Store} {k : Call} (hk : k.idle = true)
    (h : Holding i c X t s ∧ E t s) {Q : Response k → Txn → Store → Prop}
    (hQ : ∀ r s₁ s₂, Holding i c X t s₁ ∧ E t s₁ → sem i t k s₁ r s₂ → ∀ s₃, P.rely sem i s₂ s₃ →
      P.inv s₃ → Holding i c X t s₃ ∧ E t s₃ → Q r t s₃) :
    Client.wp sem P i (Tx.call k) t Q s := by
  refine wp_perform fun s₁ h₁ hi₁ r s₂ hs ↦ ?_
  have hK₁ := D.rely hE h₁ h
  obtain ⟨hi₂, hg, hK₂⟩ := (D.keeper hE).step hk hi₁ hs hK₁
  exact ⟨hi₂, hg, fun s₃ h₃ hi₃ ↦ hQ r s₁ s₂ hK₁ hs s₃ h₃ hi₃ (D.rely hE h₃ hK₂)⟩

/-- One call of a transaction without handles that are kept aside. -/
theorem send {t : Txn} {s : Store} {k : Call} (hk : k.placeless = true)
    (h : Holding i c [] t s ∧ E t s) {Q : Response k → Txn → Store → Prop}
    (hQ : ∀ r s₁ s₂, Holding i c [] t s₁ ∧ E t s₁ → sem i t k s₁ r s₂ →
      ∀ s₃, P.rely sem i s₂ s₃ → P.inv s₃ → Holding i c [] t s₃ ∧ E t s₃ → Q r t s₃) :
    Client.wp sem P i (Tx.call k) t Q s := by
  refine wp_perform fun s₁ h₁ hi₁ r s₂ hs ↦ ?_
  have hK₁ := D.rely hE h₁ h
  obtain ⟨hi₂, hg⟩ := D.step hk hi₁ hs hK₁.1 (.inl rfl)
  have hK₂ := D.placeless hE hk hs hK₁
  exact ⟨hi₂, hg, fun s₃ h₃ hi₃ ↦ hQ r s₁ s₂ hK₁ hs s₃ h₃ hi₃ (D.rely hE h₃ hK₂)⟩

/-- A marker is released: it is gone, whatever the answers say. -/
theorem releaseAttempts {t : Txn} {s : Store} {mk : Marker} (n : ℕ) (hi : P.inv s)
    (h : Holding i c X t s ∧ E t s) (hv : mk.valid = true) (hm : mk.Mine i s)
    (hg : n = 0 → s.Gone i mk.table mk.version) {Q : Bool × Marker → Txn → Store → Prop}
    (hQ : ∀ r s', P.inv s' → Holding i c X t s' ∧ E t s' → s'.Gone i mk.table mk.version →
      (r.2 = mk ∨ r.2 = mk.setInvalid) → Q r t s') :
    Client.wp sem P i (Tx.releaseAttempts n mk) t Q s := by
  have hM := hE.and (Lasting.mine i mk)
  induction n generalizing s with
  | zero =>
    refine wp_pure fun s' hs' hi' ↦ ?_
    obtain ⟨hh, he, hg'⟩ := D.rely (hE.and (.gone i mk.table mk.version)) hs' ⟨h.1, h.2, hg rfl⟩
    exact hQ _ s' hi' ⟨hh, he⟩ hg' (.inl rfl)
  | succ n ih =>
    unfold Tx.releaseAttempts
    -- the answer to the first request is enough: the marker is gone from there on
    have hend : ∀ r s₃, P.inv s₃ → Holding i c X t s₃ ∧ E t s₃ ∧ mk.Mine i s₃ →
        s₃.Gone i mk.table mk.version → (r : Bool × Marker).2 = mk.setInvalid →
        Client.wp sem P i (pure r : Tx (Bool × Marker)) t Q s₃ := fun r s₃ _ h₃ hg₃ hr ↦
      wp_pure fun s' hs' hi' ↦ by
        obtain ⟨hh, he, hg'⟩ := D.rely (hE.and (.gone i mk.table mk.version)) hs'
          ⟨h₃.1, h₃.2.1, hg₃⟩
        exact hQ _ s' hi' ⟨hh, he⟩ hg' (.inr hr)
    have hagain : ∀ s₃, P.inv s₃ → Holding i c X t s₃ ∧ E t s₃ ∧ mk.Mine i s₃ →
        s₃.Gone i mk.table mk.version →
        Client.wp sem P i (Tx.releaseAttempts n mk) t Q s₃ := fun s₃ hi₃ h₃ hg₃ ↦
      ih hi₃ ⟨h₃.1, h₃.2.1⟩ h₃.2.2 fun _ ↦ hg₃
    split
    · next hn =>
      have hgone : ∀ {s}, mk.Mine i s → s.Gone i mk.table mk.version := fun hm ↦
        hm.gone (fun ⟨o, d, ho, hc⟩ ↦ by cases hn.symm.trans (hm.etag hv ho hc)) hv
      refine wp_bind hi (D.ask hM rfl ⟨h.1, h.2, hm⟩ fun r _ _ _ _ s₃ _ hi₃ h₃ ↦
        wp_ite (fun _ ↦ ?_) fun _ ↦ ?_)
      · exact hend _ s₃ hi₃ h₃ (hgone h₃.2.2) rfl
      · exact hagain s₃ hi₃ h₃ (hgone h₃.2.2)
    · next etag hn =>
      refine wp_bind hi (D.ask hM rfl ⟨h.1, h.2, hm⟩ fun r s₁ s₂ h₁ hs s₃ h₂₃ hi₃ h₃ ↦ ?_)
      have hgone : s₂.Gone i mk.table mk.version := by
        by_cases hrun : s₁.Running mk.table mk.version i
        · refine ⟨(D.placeless hM rfl hs h₁).2.2.existing hv, ?_⟩
          obtain ⟨o, d, ho, hc⟩ := hrun
          have he : o.etag = etag := Option.some.inj ((h₁.2.2.etag hv ho hc).symm.trans hn)
          have hok := D.released hs ho hc he
          obtain ⟨d', hd⟩ := D.served hs
          rcases answer_writeIfMatch hd with ⟨-, -, rfl⟩ | ⟨hr, -⟩ | ⟨hr, -⟩
          · rintro ⟨o', d', ho', hc'⟩
            rw [Marker.path, Store.get_put_self] at ho'
            obtain rfl := Option.some.inj ho'
            cases hc'
          · cases hok.symm.trans hr
          · cases hok.symm.trans hr
        · exact (h₁.2.2.gone hrun hv).mono (D.fenced hs)
      have hgone₃ := (D.rely (Lasting.gone i _ _) h₂₃ ⟨(D.placeless hM rfl hs h₁).1, hgone⟩).2
      cases r with
      | ok => exact hend _ s₃ hi₃ h₃ hgone₃ rfl
      | preconditionFailed => exact hend _ s₃ hi₃ h₃ hgone₃ rfl
      | alreadyExists => exact hagain s₃ hi₃ h₃ hgone₃
      | error => exact hagain s₃ hi₃ h₃ hgone₃

theorem release {t : Txn} {s : Store} {mk : Marker} (hi : P.inv s)
    (h : Holding i c X t s ∧ E t s) (hm : mk.Mine i s) {Q : Bool × Marker → Txn → Store → Prop}
    (hQ : ∀ r s', P.inv s' → Holding i c X t s' ∧ E t s' →
      (mk.valid = true → s'.Gone i mk.table mk.version) →
      (r.2 = mk ∨ r.2 = mk.setInvalid) → Q r t s') :
    Client.wp sem P i (Tx.release mk) t Q s := by
  refine wp_ite (fun hv ↦ ?_) fun hv ↦ wp_pure fun s' hs' hi' ↦ ?_
  · exact D.releaseAttempts hE 5 hi h hv hm nofun fun r s' hi' h' hg hr ↦
      hQ r s' hi' h' (fun _ ↦ hg) hr
  · exact hQ _ s' hi' (D.rely hE hs' h) (fun hv' ↦ absurd hv' hv) (.inl rfl)

/-- The marker of a handle that is replaced is gone. -/
theorem destroyMarker {t : Txn} {s : Store} {old : Option Marker} (hi : P.inv s)
    (h : Holding i c X t s ∧ E t s) (hold : ∀ m, old = some m → m.Mine i s)
    {Q : Unit → Txn → Store → Prop}
    (hQ : ∀ s', P.inv s' → Holding i c X t s' ∧ E t s' →
      (∀ m, old = some m → m.valid = true → s'.Gone i m.table m.version) → Q () t s') :
    Client.wp sem P i (Tx.destroyMarker old) t Q s := by
  cases old with
  | none => exact wp_pure fun s' hs' hi' ↦ hQ s' hi' (D.rely hE hs' h) nofun
  | some m =>
    refine wp_bind hi (D.release hE hi h (hold m rfl) fun r s₁ hi₁ h₁ hg _ ↦
      wp_pure fun s' hs' hi' ↦ hQ s' hi' (D.rely hE hs' h₁) fun m' hm' hv ↦ ?_)
    obtain rfl := Option.some.inj hm'
    exact (D.rely (Lasting.gone i _ _) hs' ⟨h₁.1, hg hv⟩).2

/-- A marker is placed, or nothing happens. -/
theorem placeMarker {t : Txn} {s : Store} {p : Table} {v : ℕ} {j : TxnId} {dl : Option ℤ}
    (h : Holding i c X t s ∧ E t s) (hm : c.levels.markers = true) (hj : j = i)
    (hX : once → ∀ mk ∈ X, mk.table ≠ p) {Q : WriteStatus × ETag → Txn → Store → Prop}
    (hQ : ∀ r s', P.inv s' →
      (r.1 = .ok → ∀ dms, Holding i c (⟨p, v, some r.2, dms, true⟩ :: X) t s' ∧ E t s') →
      (r.1 ≠ .ok → Holding i c X t s' ∧ E t s') → Q r t s') :
    Client.wp sem P i (Tx.writeAtomic (.version p v) (.marker j dl)) t Q s := by
  subst hj
  refine wp_perform fun s₁ h₁ hi₁ r s₂ hs ↦ ?_
  have hK₁ := D.rely hE h₁ h
  obtain ⟨hi₂, hg⟩ := D.place hi₁ hK₁.1 hX hs
  have hf := D.fenced hs
  have he₂ : E t s₂ := hE.mono hf hK₁.2
  refine ⟨hi₂, hg, fun s₃ h₃ hi₃ ↦ hQ r s₃ hi₃ (fun hr dms ↦ D.rely hE h₃ ⟨?_, he₂⟩)
    fun hr ↦ D.rely hE h₃ ⟨?_, he₂⟩⟩
  · obtain ⟨d, hd⟩ := D.served hs
    obtain ⟨status, e⟩ := r
    rcases answer_writeAtomic hd with ⟨-, he, -, hput⟩ | ⟨hr', -⟩ | ⟨hr', -⟩
    · exact (hK₁.1.mono (Fenced.refl_wait j s₁ d.delay) fun _ _ hr ↦ hr).place
        ⟨hf.journal, hf.etag, hf.version⟩ hm hput he
    · cases hr.symm.trans hr'
    · cases hr.symm.trans hr'
  · have hj := D.placed hs hr
    refine hK₁.1.mono hf fun q u hrun ↦ ?_
    simpa only [Store.Running, Store.get, hj] using hrun

/-- A version is reserved, and the marker reserved before is gone. -/
theorem reserveVersion {t : Txn} {s : Store} (fuel : ℕ) (tbl : TableStats) (highest : ℕ)
    (hi : P.inv s) (h : Holding i c X t s ∧ E t s) (hold : ∀ m, tbl.marker = some m → m.Mine i s)
    (hX : once → ∀ mk ∈ X, mk.table ≠ tbl.basePath) {Q : TableStats × ℕ → Txn → Store → Prop}
    (hQ : ∀ mk v s', P.inv s' → Holding i c (mk :: X) t s' ∧ E t s' → mk.table = tbl.basePath →
      (∀ m, tbl.marker = some m → m.valid = true → s'.Gone i m.table m.version) →
      Q ({ tbl with marker := some mk, markerVersion := v + 1 }, v) t s') :
    Client.wp sem P i (Tx.reserveVersion fuel tbl highest) t Q s := by
  have hF : Lasting fun _ s ↦ ∀ m, tbl.marker = some m → m.Mine i s :=
    ⟨fun _ h ↦ h, fun hf h m hm ↦ (h m hm).mono hf⟩
  have hEF := hE.and hF
  induction fuel generalizing highest s with
  | zero => exact wp_diverge
  | succ fuel ih =>
    refine wp_get_bind (wp_ite (fun hm ↦ ?_) fun hm ↦ ?_)
    · replace hm : c.levels.markers = true := by rwa [Txn.markers, h.1.cfg] at hm
      have again : ∀ v s₁, P.inv s₁ → Holding i c X t s₁ ∧ E t s₁ ∧ (∀ m, tbl.marker = some m →
          m.Mine i s₁) → Client.wp sem P i (Tx.reserveVersion fuel tbl v) t Q s₁ :=
        fun v s₁ hi₁ h₁ ↦ ih v hi₁ ⟨h₁.1, h₁.2.1⟩ h₁.2.2
      refine wp_bind hi (D.ask hEF rfl ⟨h.1, h.2, hold⟩ fun b _ _ _ _ s₁ _ hi₁ h₁ ↦
        wp_ite (fun _ ↦ again _ s₁ hi₁ h₁) fun _ ↦ ?_)
      refine wp_bind hi₁ (D.ask hEF rfl h₁ fun now _ _ _ _ s₂ _ hi₂ h₂ ↦ ?_)
      refine wp_bind hi₂ (D.placeMarker hEF h₂ hm h₂.1.id hX fun r s₃ hi₃ hok hfail ↦ ?_)
      obtain ⟨status, etag⟩ := r
      cases status with
      | ok =>
        obtain ⟨hh, he, hmine⟩ := hok rfl (now.nowMs + t.cfg.options.markerLeaseMs)
        refine wp_bind hi₃ (D.destroyMarker hE hi₃ ⟨hh, he⟩ hmine fun s₄ hi₄ h₄ hgone ↦
          wp_pure fun s' hs' hi' ↦ ?_)
        have hG : Lasting fun _ s ↦
            ∀ m, tbl.marker = some m → m.valid = true → s.Gone i m.table m.version :=
          ⟨fun _ h ↦ h, fun hf h m hm hv ↦ (h m hm hv).mono hf⟩
        obtain ⟨hh', he', hg'⟩ := D.rely (hE.and hG) hs' ⟨h₄.1, h₄.2, hgone⟩
        exact hQ _ highest s' hi' ⟨hh', he'⟩ rfl hg'
      | alreadyExists => exact again _ s₃ hi₃ (hfail (by simp))
      | preconditionFailed => exact again _ s₃ hi₃ (hfail (by simp))
      | error => exact again _ s₃ hi₃ (hfail (by simp))
    · replace hm : c.levels.markers = false := by
        rw [Txn.markers, h.1.cfg] at hm
        exact Bool.not_eq_true _ ▸ hm
      refine wp_pure fun s' hs' hi' ↦ ?_
      obtain ⟨hh, he, hmine⟩ := D.rely hEF hs' ⟨h.1, h.2, hold⟩
      refine hQ _ highest s' hi' ⟨hh.add ⟨by simp, by simp⟩, he⟩ rfl fun m hm' hv ↦ ?_
      exact (hmine m hm').gone (hh.unmarked hm _ _) hv

/-- A table is loaded: its handle is kept aside, or the table could not be listed. -/
theorem loadTable {t : Txn} {s : Store} (fuel : ℕ) (tbl : TableStats) (dependencies : Bool)
    (hi : P.inv s) (h : Holding i c X t s ∧ E t s) (hold : ∀ m, tbl.marker = some m → m.Mine i s)
    (hX : once → ∀ mk ∈ X, mk.table ≠ tbl.basePath)
    {Q : TableStats × Bool × Bool → Txn → Store → Prop}
    (hQ : ∀ r mk t' s', P.inv s' → t.SameHandles t' → Holding i c (mk :: X) t' s' ∧ E t' s' →
      r.1.basePath = tbl.basePath → r.1.marker = some mk → mk.table = tbl.basePath →
      (∀ m, tbl.marker = some m → m.valid = true → s'.Gone i m.table m.version) → Q r t' s')
    (hQ' : ∀ r t' s', P.inv s' → t.SameHandles t' → Holding i c X t' s' ∧ E t' s' →
      r.1.reservation = tbl.reservation → r.2.1 = false → Q r t' s') :
    Client.wp sem P i (Tx.loadTable fuel tbl dependencies) t Q s := by
  have hF : Lasting fun t' s ↦ t.SameHandles t' ∧ ∀ m, tbl.marker = some m → m.Mine i s :=
    ⟨fun ht h ↦ ⟨h.1.trans ht, h.2⟩, fun hf h ↦ ⟨h.1, fun m hm ↦ (h.2 m hm).mono hf⟩⟩
  have hEF := hE.and hF
  have K := D.keeper hEF (X := X)
  refine wp_get_bind (wp_bind hi (wp_mono (K.snapshotVersion fuel _ t s hi
    ⟨h.1, h.2, .refl t, hold⟩) fun mv t₁ s₁ hi₁ h₁ ↦ wp_bind hi₁ (wp_mono
      (K.highestVersion _ mv t₁ s₁ hi₁ h₁) fun hv t₂ s₂ hi₂ h₂ ↦ ?_)))
  cases hv with
  | none =>
    refine wp_pure fun s' hs' hi' ↦ ?_
    obtain ⟨hh, he, ht, -⟩ := K.stable t₂ s₂ s' hs' h₂
    exact hQ' _ t₂ s' hi' ht ⟨hh, he⟩ rfl rfl
  | some highest =>
    refine wp_bind hi₂ (D.reserveVersion hEF fuel
      { tbl with deltaLog := {}, concurrentRemoves := [], concurrentChange := false } highest hi₂ h₂
      h₂.2.2.2 hX fun mk v s₃ hi₃ h₃ hpath hgone ↦ ?_)
    have hG : Lasting fun _ s ↦
        ∀ m, tbl.marker = some m → m.valid = true → s.Gone i m.table m.version :=
      ⟨fun _ h ↦ h, fun hf h m hm hv ↦ (h m hm hv).mono hf⟩
    have R := D.keeper (hEF.and hG) (X := mk :: X)
    refine wp_bind hi₃ (wp_mono (R.parseRanges (v + 1) (fun _ _ _ _ t' s' _ hK ↦
      ⟨hK.1.sameHandles ⟨rfl, rfl, rfl⟩, (hEF.and hG).frame (t := t') ⟨rfl, rfl, rfl⟩ hK.2⟩)
      _ t₂ s₃ hi₃ ⟨h₃.1, h₃.2, hgone⟩) fun st t₄ s₄ _ h₄ ↦
        wp_modify_bind (wp_pure fun s' hs' hi' ↦ ?_))
    obtain ⟨hh, ⟨he, ht, -⟩, hg⟩ := R.stable t₄ s₄ s' hs' h₄
    exact hQ _ mk _ s' hi' (ht.trans ⟨rfl, rfl, rfl⟩)
      ⟨hh.sameHandles ⟨rfl, rfl, rfl⟩, hE.frame (t := t₄) ⟨rfl, rfl, rfl⟩ he⟩ rfl rfl hpath hg

end Lasting

/-! ## Giving versions up -/

section Enduring

variable (hE : Enduring E)
include hE

/-- The marker of table `n` is released, and its handle becomes invalid or stays. -/
theorem clearTable {is : List ℕ} {t : Txn} {s : Store} {n : ℕ}
    {tbl : TableStats} {mk : Marker} (hi : P.inv s)
    (h : Holding i c X t s ∧ E t s ∧ Cleared i (n :: is) t s) (hn : t.tables[n]? = some tbl)
    (hm : tbl.marker = some mk) {g : Bool × Marker → Marker}
    (hg : ∀ r, r.2 = mk ∨ r.2 = mk.setInvalid → g r = mk ∨ g r = mk.setInvalid) :
    Client.wp sem P i (do
      let r ← Tx.release mk
      Tx.modifyTable n fun tbl ↦ { tbl with marker := some (g r) }) t
      (fun _ t' s' ↦ Holding i c X t' s' ∧ E t' s' ∧ Cleared i is t' s') s := by
  have hEC := hE.lasting.and (Lasting.cleared i (n :: is))
  refine wp_bind hi (D.release hEC hi h (h.1.mine (.inr ⟨tbl, List.mem_of_getElem? hn, hm⟩))
    fun r s₁ hi₁ h₁ hgone hr ↦ wp_modify fun s' hs' _ ↦ ?_)
  have hgl : Lasting fun _ s ↦ mk.valid = true → s.Gone i mk.table mk.version :=
    ⟨fun _ h ↦ h, fun hf h hv ↦ (h hv).mono hf⟩
  obtain ⟨hh, ⟨he, hc⟩, hgone⟩ := D.rely (hEC.and hgl) hs' ⟨h₁.1, h₁.2, hgone⟩
  refine ⟨hh.setMarker hn hm (fun hv ↦ (hgone hv).2) (hg r hr) rfl rfl,
    hE.frame (List.map_modify_eq _ fun _ _ ↦ rfl) he, fun k hk tbl' htbl' m hm' hv ↦ ?_⟩
  rcases List.getElem?_modify_eq_some htbl' with ⟨rfl, old, hold, rfl⟩ | ⟨hkn, htbl'⟩
  · obtain rfl := Option.some.inj hm'
    rcases hg r hr with heq | heq
    · rw [heq] at hv ⊢
      exact hgone hv
    · rw [heq] at hv
      cases hv
  · exact hc k (fun hmem ↦ (List.mem_cons.mp hmem).elim hkn hk) tbl' htbl' m hm' hv

theorem clearHandle {is : List ℕ} {t : Txn} {s : Store} {n : ℕ} (hi : P.inv s)
    (h : Holding i c X t s ∧ E t s ∧ Cleared i (n :: is) t s) {g : Bool × Marker → Marker}
    (hg : ∀ mk r, r.2 = mk ∨ r.2 = mk.setInvalid → g r = mk ∨ g r = mk.setInvalid) :
    Client.wp sem P i (do
      match (← get).tables[n]? with
      | some tbl =>
        match tbl.marker with
        | some m => do
          let r ← Tx.release m
          Tx.modifyTable n fun tbl ↦ { tbl with marker := some (g r) }
        | none => pure ()
      | none => pure () : Tx Unit) t
      (fun _ t' s' ↦ Holding i c X t' s' ∧ E t' s' ∧ Cleared i is t' s') s := by
  have hskip : (∀ tbl, t.tables[n]? = some tbl → tbl.marker = none) →
      Client.wp sem P i (pure () : Tx Unit) t
        (fun _ t' s' ↦ Holding i c X t' s' ∧ E t' s' ∧ Cleared i is t' s') s := fun hn ↦ by
    refine (D.keeper (hE.lasting.and (.cleared i is))).pure () t s hi ⟨h.1, h.2.1, ?_⟩
    intro k hk tbl htbl m hm hv
    by_cases hkn : k = n
    · subst hkn
      rw [hn tbl htbl] at hm
      cases hm
    · exact h.2.2 k (fun hmem ↦ (List.mem_cons.mp hmem).elim hkn hk) tbl htbl m hm hv
  refine wp_get_bind ?_
  split
  · next tbl hn =>
    split
    · next mk hm => exact D.clearTable hE hi h hn hm (hg mk)
    · next hm =>
      refine hskip fun tbl' htbl' ↦ ?_
      rw [← Option.some.inj (hn.symm.trans htbl'), hm]
  · next hn =>
    refine hskip fun tbl' htbl' ↦ ?_
    rw [hn] at htbl'
    cases htbl'

theorem abortTables (is : List ℕ) {t : Txn} {s : Store} (hi : P.inv s)
    (h : Holding i c X t s ∧ E t s ∧ Cleared i is t s) :
    Client.wp sem P i (Tx.abortTables is) t
      (fun _ t' s' ↦ Holding i c X t' s' ∧ E t' s' ∧ Cleared i [] t' s') s := by
  induction is generalizing t s with
  | nil => exact (D.keeper (hE.lasting.and (.cleared i []))).pure () t s hi h
  | cons n is ih =>
    refine wp_bind hi (wp_mono (D.clearHandle hE hi h (g := fun r ↦ if r.1 then r.2 else
      r.2.setInvalid) fun mk r hr ↦ ?_) fun _ t₁ s₁ hi₁ h₁ ↦ ih hi₁ h₁)
    rcases hr with hr | hr <;> rw [hr] <;> split <;> simp [Marker.setInvalid]

theorem releaseTables (is : List ℕ) {t : Txn} {s : Store} (hi : P.inv s)
    (h : Holding i c X t s ∧ E t s ∧ Cleared i is t s) :
    Client.wp sem P i (Tx.releaseTables is) t
      (fun _ t' s' ↦ Holding i c X t' s' ∧ E t' s' ∧ Cleared i [] t' s') s := by
  induction is generalizing t s with
  | nil => exact (D.keeper (hE.lasting.and (.cleared i []))).pure () t s hi h
  | cons n is ih =>
    exact wp_bind hi (wp_mono (D.clearHandle hE hi h (g := fun r ↦ r.2) fun _ _ hr ↦ hr)
      fun _ t₁ s₁ hi₁ h₁ ↦ ih hi₁ h₁)

omit D hE in
theorem cleared_range (t : Txn) (s : Store) : Cleared i (List.range t.tables.length) t s := by
  intro n hn tbl htbl
  obtain ⟨hlt, -⟩ := List.getElem?_eq_some_iff.mp htbl
  exact absurd (List.mem_range.mpr hlt) hn

/-- After an abort no table has a valid handle of a running marker. -/
theorem abort (clear : Bool) {t : Txn} {s : Store} (hi : P.inv s)
    (h : Holding i c X t s ∧ E t s) :
    Client.wp sem P i (Tx.abort clear) t
      (fun _ t' s' ↦ Holding i c X t' s' ∧ E t' s' ∧ Cleared i [] t' s') s := by
  have K := D.keeper (hE.lasting.and (.cleared i [])) (X := X)
  refine wp_get_bind (wp_bind hi (wp_mono (Q := fun _ t' s' ↦
    Holding i c X t' s' ∧ E t' s' ∧ Cleared i [] t' s')
    (wp_when (fun _ ↦ ?_) fun hm s' hs' hi' ↦ ?_)
    fun _ t₁ s₁ hi₁ h₁ ↦ Keeps.when K.stable (K.modify fun _ ↦ .of_tables rfl) t₁ s₁ hi₁ h₁))
  · exact D.abortTables hE _ hi ⟨h.1, h.2, cleared_range t s⟩
  · obtain ⟨hh, he⟩ := D.rely hE.lasting hs' h
    replace hm : c.levels.markers = false := by rwa [Txn.markers, h.1.cfg] at hm
    refine ⟨hh, he, fun n _ tbl htbl m hm' hv ↦ ?_⟩
    exact (hh.mine (.inr ⟨tbl, List.mem_of_getElem? htbl, hm'⟩)).gone (hh.unmarked hm _ _) hv

/-- Every table is loaded again. -/
theorem loadTables
    (hX : ∀ {t s}, E t s → once → ∀ mk ∈ X, ∀ tbl ∈ t.tables, mk.table ≠ tbl.basePath) (fuel : ℕ)
    (is : List ℕ) (dependencies : Bool) :
    Keeps sem P i (fun t s ↦ Holding i c X t s ∧ E t s) (Tx.loadTables fuel is dependencies) := by
  have K := D.keeper hE.lasting (X := X)
  induction is generalizing dependencies with
  | nil => exact K.pure _
  | cons n is ih =>
    intro t s hi h
    refine wp_get_bind ?_
    split
    · exact K.pure _ t s hi h
    · next tbl hn =>
      have htbl := List.mem_of_getElem? hn
      have hold : ∀ {t'}, t.SameHandles t' → ∃ old, t'.tables[n]? = some old ∧
          old.reservation = tbl.reservation := fun {t'} ht ↦ by
        have hget : (t'.tables.map (·.reservation))[n]? = some tbl.reservation := by
          rw [ht.tables, List.getElem?_map, hn]
          rfl
        rw [List.getElem?_map] at hget
        exact Option.map_eq_some_iff.mp hget
      refine wp_bind hi (D.loadTable hE.lasting fuel tbl dependencies hi h
        (fun m hm ↦ h.1.mine (.inr ⟨tbl, htbl, hm⟩)) (fun ho mk hmk ↦ hX h.2 ho mk hmk tbl htbl)
        (fun r mk t₁ s₁ hi₁ ht h₁ hpath hmk htable hgone ↦ ?_)
        fun r t₁ s₁ hi₁ ht h₁ hres hok ↦ ?_)
      · obtain ⟨old, hn₁, heq⟩ := hold ht
        obtain ⟨hb, hm⟩ := Prod.mk.inj heq
        refine wp_modify_bind (Keeps.ite (ih _) (K.pure _) _ s₁ hi₁ ⟨h₁.1.setTable hn₁
          (fun m hm' hv ↦ (hgone m ((Prod.mk.inj hm).1.symm.trans hm') hv).2) hmk
          (htable.trans hpath.symm), hE.frame ?_ h₁.2⟩)
        refine List.map_modify_eq _ fun a ha ↦ ?_
        obtain rfl := Option.some.inj (ha.symm.trans hn₁)
        exact hpath.trans hb.symm
      · obtain ⟨old, hn₁, heq⟩ := hold ht
        have hsame : t₁.SameHandles { t₁ with tables := t₁.tables.modify n fun _ ↦ r.1 } := by
          refine ⟨rfl, rfl, List.map_modify_eq _ fun a ha ↦ ?_⟩
          obtain rfl := Option.some.inj (ha.symm.trans hn₁)
          exact hres.trans heq.symm
        exact wp_modify_bind (Keeps.ite (ih _) (K.pure _) _ s₁ hi₁
          ⟨h₁.1.sameHandles hsame, hE.lasting.frame hsame h₁.2⟩)

/-- What is known of the open tables is kept, too. -/
theorem reopenTables
    (hX : ∀ {t s}, E t s → once → ∀ mk ∈ X, ∀ tbl ∈ t.tables, mk.table ≠ tbl.basePath) (fuel : ℕ)
    (retry : Bool) :
    Keeps sem P i (fun t s ↦ Holding i c X t s ∧ E t s) (Tx.reopenTables fuel retry) := by
  have K := D.keeper hE.lasting (X := X)
  induction fuel generalizing retry with
  | zero => exact .diverge
  | succ fuel ih =>
    refine .bind K.resetSnapshots fun _ ↦ .get_bind fun t ↦
      .bind (D.loadTables hE hX fuel _ false) fun r ↦ ?_
    cases r with
    | none => exact .ite (ih true) (K.pure _)
    | some b =>
      cases b with
      | false => exact K.pure _
      | true => exact ih true

theorem abort_keeps (clear : Bool) :
    Keeps sem P i (fun t s ↦ Holding i c X t s ∧ E t s) (Tx.abort clear) :=
  fun _ _ hi h ↦ wp_mono (D.abort hE clear hi h) fun _ _ _ _ h ↦ ⟨h.1, h.2.1⟩

theorem reopenUntilFixed
    (hX : ∀ {t s}, E t s → once → ∀ mk ∈ X, ∀ tbl ∈ t.tables, mk.table ≠ tbl.basePath)
    (fuel : ℕ) :
    Keeps sem P i (fun t s ↦ Holding i c X t s ∧ E t s) (Tx.reopenUntilFixed fuel) := by
  have K := D.keeper hE.lasting (X := X)
  induction fuel with
  | zero => exact .diverge
  | succ fuel ih =>
    exact .bind (D.abort_keeps hE false) fun _ ↦ .bind (D.reopenTables hE hX fuel false) fun _ ↦
      .ite (K.pure _) ih

/-- A table that could not be loaded is given up, with its marker. -/
theorem releaseFailed {t : Txn} {s : Store} {tbl : TableStats} {mk : Marker}
    (hm : tbl.marker = some mk) (hi : P.inv s) (h : Holding i c (mk :: X) t s ∧ E t s) :
    Client.wp sem P i (Tx.releaseFailed tbl) t (fun _ t' s' ↦ Holding i c X t' s' ∧ E t' s') s := by
  refine wp_get_bind ?_
  split
  · next m _ hm' =>
    obtain rfl := Option.some.inj (hm.symm.trans hm')
    refine wp_bind hi (D.ask hE.lasting rfl h fun r s₁ s₂ h₁ hs s₃ h₂₃ hi₃ h₃ ↦
      (D.keeper hE.lasting).pure () t s₃ hi₃ ⟨h₃.1.drop fun hv ↦ ?_, h₃.2⟩)
    have hgone : s₂.Gone i mk.table mk.version :=
      ((D.placeless hE.lasting rfl hs h₁).1.mine (.inl List.mem_cons_self)).gone
        (D.overwritten hs) hv
    exact (D.rely (Lasting.gone i _ _) h₂₃ ⟨(D.placeless hE.lasting rfl hs h₁).1, hgone⟩).2.2
  · next hne =>
    refine (D.keeper hE.lasting).pure () t s hi ⟨h.1.drop fun hv ↦ ?_, h.2⟩
    refine h.1.unmarked ?_ _ _
    cases hc : c.levels.markers with
    | false => rfl
    | true => exact absurd hm (hne mk (by rw [Txn.markers, h.1.cfg, hc]))

/-- A table is opened: its handle is kept aside. -/
theorem openTableV2 {p : Table}
    (hX : ∀ {t s}, E t s → once → ∀ tbl ∈ t.tables, tbl.basePath ≠ p) {t : Txn} {s : Store}
    (fuel : ℕ) (hi : P.inv s) (h : Holding i c [] t s ∧ E t s)
    {Q : Option TableStats → Txn → Store → Prop}
    (hQ : ∀ tbl mk t' s', P.inv s' → Holding i c [mk] t' s' ∧ E t' s' → tbl.marker = some mk →
      mk.table = tbl.basePath → Q (some tbl) t' s')
    (hQ' : ∀ t' s', P.inv s' → Holding i c [] t' s' ∧ E t' s' → Q none t' s') :
    Client.wp sem P i (Tx.openTableV2 fuel p) t Q s := by
  have hend : ∀ (x : Tx Unit) t s, P.inv s → Client.wp sem P i x t
      (fun _ t' s' ↦ Holding i c [] t' s' ∧ E t' s') s →
      Client.wp sem P i (do
        x
        pure none : Tx (Option TableStats)) t Q s := fun x t s hi hx ↦
    wp_bind hi (wp_mono hx fun _ t₁ s₁ _ h₁ ↦ wp_pure fun s' hs' hi' ↦
      hQ' t₁ s' hi' (D.rely hE.lasting hs' h₁))
  refine wp_bind hi (D.loadTable hE.lasting fuel { basePath := p } false hi h nofun
    (fun _ _ hmk ↦ absurd hmk List.not_mem_nil) (fun r mk t₁ s₁ hi₁ ht h₁ hpath hmk htable _ ↦ ?_)
    fun r t₁ s₁ hi₁ ht h₁ hres hok ↦ ?_)
  · refine wp_ite (fun _ ↦ ?_) fun _ ↦ ?_
    · have K := D.keeper hE.lasting (X := [mk])
      refine wp_bind hi₁ (wp_mono (Keeps.when K.stable (D.reopenUntilFixed hE
        (fun he ho m hm tbl htbl heq ↦ ?_) fuel) t₁ s₁ hi₁ h₁)
        fun _ t₂ s₂ _ h₂ ↦ wp_pure fun s' hs' hi' ↦
          hQ _ mk t₂ s' hi' (K.stable t₂ s₂ s' hs' h₂) hmk (htable.trans hpath.symm))
      obtain rfl := List.mem_singleton.mp hm
      exact hX he ho tbl htbl (heq.symm.trans htable)
    · exact hend _ t₁ s₁ hi₁ (D.releaseFailed hE hmk hi₁ h₁)
  · refine wp_ite (fun hok' ↦ ?_) fun _ ↦ hend _ t₁ s₁ hi₁ ?_
    · rw [hok] at hok'
      cases hok'
    · refine wp_get_bind ?_
      split
      · next m _ hm =>
        rw [(Prod.mk.inj (Prod.mk.inj hres).2).1] at hm
        cases hm
      · exact (D.keeper hE.lasting).pure () t₁ s₁ hi₁ h₁

omit hE in
/-- The opened table joins the others. -/
theorem addTable {t : Txn} {s : Store} {tbl : TableStats} {mk : Marker}
    (h : Holding i c [mk] t s) (hm : tbl.marker = some mk) (ht : mk.table = tbl.basePath) :
    Client.wp sem P i (do
      modify fun t ↦ { t with tables := t.tables ++ [tbl] }
      pure true : Tx Bool) t (fun _ t' s' ↦ Holding i c [] t' s') s := by
  refine wp_modify_bind (wp_pure fun s' hs' _ ↦ ?_)
  exact (D.rely (E := fun _ _ ↦ True) ⟨fun _ _ ↦ trivial, fun _ _ ↦ trivial⟩ hs'
    ⟨h.addTable hm ht, trivial⟩).1

end Enduring

end Holder

end LakeVilla

import LakeVilla.Protocol.Holder

/-!
# Keeping hold of markers through a commit

A commit gives a handle up with the marker that it overwrites, releases or finds taken over, and
moves versions one after the other. So a transaction holds its markers from its begin to its end.
-/

namespace LakeVilla

open Concurrency Client

namespace Holder

variable {sem : Semantics TxnId Txn Response Store} {P : Protocol TxnId Txn Response Store}
variable {i : TxnId} {c : Config} {once : Prop} (D : Holder sem P i c once)
include D

variable {E : Txn → Store → Prop}

/-! ## The commit -/

section Commit

variable (hE : Enduring E)
include hE

/-- A version moves: the old marker is gone before the new one is placed. -/
theorem shiftMarker (fuel n : ℕ) :
    Keeps sem P i (fun t s ↦ Holding i c [] t s ∧ E t s) (Tx.shiftMarker fuel n) := by
  have K := D.keeper hE.lasting (X := [])
  intro t s hi h
  refine wp_get_bind ?_
  split
  · exact K.pure _ t s hi h
  · next tbl hn =>
    -- what `releaseMarker` leaves: the handle of a marker that is gone
    have hrelease : ∀ {Q : Option Marker → Txn → Store → Prop},
        (∀ mk s', P.inv s' → Holding i c [] t s' ∧ E t s' → (∀ m, mk = some m → m.Mine i s') →
          (∀ m, tbl.marker = some m → m.valid = true → s'.Gone i m.table m.version) →
          Q mk t s') → Client.wp sem P i (Tx.releaseMarker tbl.marker) t Q s := by
      intro Q hQ
      cases hm : tbl.marker with
      | none =>
        exact wp_pure fun s' hs' hi' ↦ hQ none s' hi' (D.rely hE.lasting hs' h) nofun (by simp [hm])
      | some mk =>
        have hmine := h.1.mine (.inr ⟨tbl, List.mem_of_getElem? hn, hm⟩)
        refine wp_bind hi (D.release (hE.lasting.and (.mine i mk)) hi ⟨h.1, h.2, hmine⟩ hmine
          fun r s₁ hi₁ h₁ hgone hr ↦ wp_pure fun s' hs' hi' ↦ ?_)
        have hgl : Lasting fun _ s ↦
            mk.Mine i s ∧ (mk.valid = true → s.Gone i mk.table mk.version) :=
          (Lasting.mine i mk).and ⟨fun _ h ↦ h, fun hf h hv ↦ (h hv).mono hf⟩
        obtain ⟨hh, he, hmine, hgone⟩ := D.rely (hE.lasting.and hgl) hs'
          ⟨h₁.1, h₁.2.1, h₁.2.2, hgone⟩
        refine hQ _ s' hi' ⟨hh, he⟩ (fun m hm' ↦ ?_) fun m hm' hv ↦ ?_
        · obtain rfl := Option.some.inj hm'
          rcases hr with hr | hr
          · exact hr ▸ hmine
          · exact hr ▸ .setInvalid i s' mk
        · obtain rfl := Option.some.inj (hm'.symm.trans hm)
          exact hgone hv
    have hG : Lasting fun _ s ↦
        ∀ m, tbl.marker = some m → m.valid = true → s.Gone i m.table m.version :=
      ⟨fun _ h ↦ h, fun hf h m hm hv ↦ (h m hm hv).mono hf⟩
    refine wp_bind hi (hrelease fun mk s₁ hi₁ h₁ hmine hgone ↦ ?_)
    refine wp_bind hi₁ (D.reserveVersion (hE.lasting.and hG) fuel { tbl with marker := mk }
      tbl.markerVersion hi₁ ⟨h₁.1, h₁.2, hgone⟩ hmine (fun _ _ hm ↦ absurd hm List.not_mem_nil)
      fun m v s₂ hi₂ h₂ hpath _ ↦ wp_modify_bind (wp_modify fun s₃ hs₃ _ ↦ ?_))
    obtain ⟨hh, he, hgone⟩ := D.rely (hE.lasting.and hG) hs₃ h₂
    refine ⟨(hh.setTable hn (fun m hm hv ↦ (hgone m hm hv).2) rfl hpath).sameHandles
      ⟨rfl, rfl, rfl⟩, hE.frame ?_ he⟩
    refine List.map_modify_eq _ fun a ha ↦ ?_
    obtain rfl := Option.some.inj (ha.symm.trans hn)
    rfl

/-- The handle of a marker that is gone becomes invalid. -/
theorem invalidate {t : Txn} {s : Store} {n : ℕ} {tbl : TableStats} {mk : Marker}
    (h : Holding i c [] t s ∧ E t s) (hn : t.tables[n]? = some tbl) (hm : tbl.marker = some mk)
    (hgone : mk.valid = true → s.Gone i mk.table mk.version) {α : Type} (a : α) :
    Client.wp sem P i (do
      Tx.modifyTable n fun tbl ↦ { tbl with marker := some mk.setInvalid }
      pure a : Tx α) t (fun _ t' s' ↦ Holding i c [] t' s' ∧ E t' s') s := by
  refine wp_modify_bind (wp_pure fun s' hs' _ ↦ ?_)
  have hgl : Lasting fun _ s ↦ mk.valid = true → s.Gone i mk.table mk.version :=
    ⟨fun _ h ↦ h, fun hf h hv ↦ (h hv).mono hf⟩
  obtain ⟨hh, he, hgone⟩ := D.rely (hE.lasting.and hgl) hs' ⟨h.1, h.2, hgone⟩
  exact ⟨hh.setMarker hn hm (fun hv ↦ (hgone hv).2) (.inr rfl) rfl rfl,
    hE.frame (List.map_modify_eq _ fun _ _ ↦ rfl) he⟩

/-- A version that was taken over holds no marker of the transaction. -/
theorem markerLost {t : Txn} {s : Store} {n : ℕ} {tbl : TableStats} (hi : P.inv s)
    (h : Holding i c [] t s ∧ E t s) (hn : t.tables[n]? = some tbl) :
    Client.wp sem P i (Tx.markerLost n tbl) t
      (fun _ t' s' ↦ Holding i c [] t' s' ∧ E t' s') s := by
  have K := D.keeper hE.lasting (X := [])
  unfold Tx.markerLost
  split
  · next mk hm =>
    split
    · next etag hv he =>
      refine wp_bind hi (D.send hE.lasting rfl h fun o s₁ s₂ h₁ hs s₃ h₂₃ hi₃ h₃ ↦ ?_)
      cases o with
      | none => exact K.pure _ t s₃ hi₃ h₃
      | some o =>
        refine wp_ite (fun hne ↦ ?_) fun _ ↦ K.pure _ t s₃ hi₃ h₃
        refine D.invalidate hE h₃ hn hm (fun hv ↦ ?_) true
        obtain ⟨d, hd⟩ := D.served hs
        have hmine := h₁.1.mine (.inr ⟨tbl, List.mem_of_getElem? hn, hm⟩)
        have hgone : s₁.Gone i mk.table mk.version := hmine.gone (fun ⟨o', d', ho', hc'⟩ ↦ by
          have ho : (s₁.wait d.delay).get mk.path = some o := answer_read hd
          obtain rfl := Option.some.inj (ho.symm.trans ho')
          exact hne (Option.some.inj ((hmine.etag hv ho' hc').symm.trans he))) hv
        exact (D.rely (Lasting.gone i _ _) h₂₃
          ⟨(D.placeless hE.lasting rfl hs h₁).1, hgone.mono (D.fenced hs)⟩).2
    · exact K.pure _ t s hi h
  · exact K.pure _ t s hi h

/-- A commit is written over the marker of a handle: the marker is gone unless the request
failed. -/
theorem writeLog {t : Txn} {s : Store} {mk : Marker} {cm : Commit} (hi : P.inv s)
    (h : Holding i c [] t s ∧ E t s) (hm : mk.Mine i s) {Q : WriteStatus → Txn → Store → Prop}
    (hQ : ∀ r s', P.inv s' → Holding i c [] t s' ∧ E t s' → mk.Mine i s' →
      (r ≠ .error → mk.valid = true → s'.Gone i mk.table mk.version) → Q r t s') :
    Client.wp sem P i (Tx.writeLog mk (.commit cm)) t Q s := by
  have hM := hE.lasting.and (Lasting.mine i mk)
  -- from the state after the call on
  have hgone : ∀ {k : Call} {r : Response k} {s₁ s₂ s₃}, k.placeless = true →
      Holding i c [] t s₁ ∧ E t s₁ ∧ mk.Mine i s₁ → sem i t k s₁ r s₂ → P.rely sem i s₂ s₃ →
      ¬ s₂.Running mk.table mk.version i → mk.valid = true →
      s₃.Gone i mk.table mk.version := by
    intro k r s₁ s₂ s₃ hk h₁ hs h₂₃ hn hv
    have h₂ := D.placeless hM hk hs h₁
    exact (D.rely (Lasting.gone i _ _) h₂₃ ⟨h₂.1, h₂.2.2.gone hn hv⟩).2
  have hput : ∀ {s : Store}, ¬ (s.put mk.path (.commit cm)).Running mk.table mk.version i := by
    rintro s ⟨o, d, ho, hc⟩
    rw [Marker.path, Store.get_put_self] at ho
    obtain rfl := Option.some.inj ho
    cases hc
  refine wp_get_bind ?_
  split
  · refine wp_bind hi (D.send hM rfl ⟨h.1, h.2, hm⟩ fun r s₁ s₂ h₁ hs s₃ h₂₃ hi₃ h₃ ↦ ?_)
    obtain ⟨d, hd⟩ := D.served hs
    refine wp_ite (fun hr ↦ wp_pure fun s' hs' hi' ↦ ?_) fun _ ↦ wp_pure fun s' hs' hi' ↦ ?_
    · obtain ⟨hh, he, hm'⟩ := D.rely hM hs' h₃
      refine hQ _ s' hi' ⟨hh, he⟩ hm' fun _ hv ↦ hgone rfl h₁ hs (h₂₃.trans hs') ?_ hv
      rcases answer_write hd with ⟨-, rfl⟩ | ⟨hr', -⟩
      · exact hput
      · cases hr.symm.trans hr'
    · obtain ⟨hh, he, hm'⟩ := D.rely hM hs' h₃
      exact hQ _ s' hi' ⟨hh, he⟩ hm' fun hne ↦ absurd rfl hne
  · next etag _ hetag =>
    refine D.send hM rfl ⟨h.1, h.2, hm⟩ fun r s₁ s₂ h₁ hs s₃ h₂₃ hi₃ h₃ ↦ ?_
    obtain ⟨d, hd⟩ := D.served hs
    refine hQ r s₃ hi₃ ⟨h₃.1, h₃.2.1⟩ h₃.2.2 fun hne hv ↦ hgone rfl h₁ hs h₂₃ ?_ hv
    rcases answer_writeIfMatch hd with ⟨-, -, rfl⟩ | ⟨-, hmis, rfl⟩ | ⟨hr, -⟩
    · exact hput
    · rintro ⟨o, d', ho, hc⟩
      exact hmis o ho (Option.some.inj ((h₁.2.2.etag hv ho hc).symm.trans hetag))
    · exact absurd hr hne
  · next hmk =>
    refine wp_bind hi (D.send hM rfl ⟨h.1, h.2, hm⟩ fun r s₁ s₂ h₁ hs s₃ h₂₃ hi₃ h₃ ↦
      wp_pure fun s' hs' hi' ↦ ?_)
    obtain ⟨hh, he, hm'⟩ := D.rely hM hs' h₃
    refine hQ _ s' hi' ⟨hh, he⟩ hm' fun _ hv ↦ hm'.gone (hh.unmarked ?_ _ _) hv
    rwa [Txn.markers, h.1.cfg] at hmk

/-- A table is written: a handle that becomes invalid held a marker that is gone. -/
theorem writeCommit {t : Txn} {s : Store} {n : ℕ} {tbl : TableStats} (hi : P.inv s)
    (h : Holding i c [] t s ∧ E t s) (hn : t.tables[n]? = some tbl) :
    Client.wp sem P i (Tx.writeCommit n tbl) t
      (fun _ t' s' ↦ Holding i c [] t' s' ∧ E t' s') s := by
  have K := D.keeper hE.lasting (X := [])
  refine wp_get_bind ?_
  split
  · exact K.pure _ t s hi h
  · next mk hm =>
    have hM := hE.lasting.and (Lasting.mine i mk)
    have hmine := h.1.mine (.inr ⟨tbl, List.mem_of_getElem? hn, hm⟩)
    generalize t.cfg.storageRetries = attempts
    generalize false = uncertain
    induction attempts generalizing uncertain s with
    | zero => exact K.pure _ t s hi h
    | succ attempts ih =>
      refine wp_bind hi (D.writeLog hE hi h hmine fun r s₁ hi₁ h₁ hmine₁ hgone ↦ ?_)
      have refused : r ≠ .error → Client.wp sem P i (do
          if ← Tx.writtenByUs mk (buildCommitLog t tbl) uncertain then do
            Tx.invalidate n mk
            pure .ok
          else if (← get).markers then do
            Tx.invalidate n mk
            pure .lost
          else pure .taken : Tx Tx.CommitWrite) t
          (fun _ t' s' ↦ Holding i c [] t' s' ∧ E t' s') s₁ := by
        intro hr
        have hgl : Lasting fun _ s ↦ mk.valid = true → s.Gone i mk.table mk.version :=
          ⟨fun _ h ↦ h, fun hf h hv ↦ (h hv).mono hf⟩
        have ours : ∀ {Q : Bool → Txn → Store → Prop}, (∀ b s', P.inv s' →
            Holding i c [] t s' ∧ E t s' ∧ (mk.valid = true → s'.Gone i mk.table mk.version) →
            Q b t s') → Client.wp sem P i (Tx.writtenByUs mk (buildCommitLog t tbl) uncertain) t Q
              s₁ := by
          intro Q hQ
          refine wp_ite (fun _ ↦ ?_) fun _ ↦ wp_pure fun s' hs' hi' ↦ ?_
          · refine wp_bind hi₁ (D.send (hE.lasting.and hgl) rfl ⟨h₁.1, h₁.2, hgone hr⟩
              fun o _ _ _ _ s₂ _ hi₂ h₂ ↦ ?_)
            cases o with
            | none =>
              exact wp_pure fun s' hs' hi' ↦ hQ _ s' hi' (D.rely (hE.lasting.and hgl) hs' h₂)
            | some o =>
              exact wp_pure fun s' hs' hi' ↦ hQ _ s' hi' (D.rely (hE.lasting.and hgl) hs' h₂)
          · exact hQ _ s' hi' (D.rely (hE.lasting.and hgl) hs' ⟨h₁.1, h₁.2, hgone hr⟩)
        refine wp_bind hi₁ (ours fun b s₂ hi₂ h₂ ↦ wp_ite (fun _ ↦ ?_) fun _ ↦
          wp_get_bind (wp_ite (fun _ ↦ ?_) fun _ ↦ K.pure _ t s₂ hi₂ ⟨h₂.1, h₂.2.1⟩))
        · exact D.invalidate hE ⟨h₂.1, h₂.2.1⟩ hn hm h₂.2.2 _
        · exact D.invalidate hE ⟨h₂.1, h₂.2.1⟩ hn hm h₂.2.2 _
      cases r with
      | ok => exact D.invalidate hE h₁ hn hm (hgone nofun) _
      | error => exact ih hi₁ h₁ hmine₁ true
      | alreadyExists => exact refused nofun
      | preconditionFailed => exact refused nofun

theorem shiftExpiring (fuel rounds : ℕ) (is : List ℕ) (shifted : Bool) :
    Keeps sem P i (fun t s ↦ Holding i c [] t s ∧ E t s)
      (Tx.shiftExpiring fuel rounds is shifted) := by
  have K := D.keeper hE.lasting (X := [])
  induction is generalizing shifted with
  | nil => exact K.pure _
  | cons n is ih =>
    refine .get_bind fun t ↦ ?_
    split
    · exact ih _
    · refine .bind (.ite (K.leaseExpiring _) (K.pure _)) fun b ↦ .ite (.ite ?_ ?_) (ih _)
      · exact .bind (D.abort_keeps hE true) fun _ ↦ K.pure _
      · exact .bind (D.shiftMarker hE fuel n) fun _ ↦ ih _

theorem shiftLost (fuel : ℕ) (is : List ℕ) (moved : Bool) :
    Keeps sem P i (fun t s ↦ Holding i c [] t s ∧ E t s) (Tx.shiftLost fuel is moved) := by
  have K := D.keeper hE.lasting (X := [])
  induction is generalizing moved with
  | nil => exact K.pure _
  | cons n is ih =>
    intro t s hi h
    refine wp_get_bind ?_
    split
    · exact ih _ t s hi h
    · next tbl hn =>
      refine wp_bind hi (wp_mono (Q := fun _ t' s' ↦ Holding i c [] t' s' ∧ E t' s')
        (wp_ite (fun _ ↦ D.markerLost hE hi h hn) fun _ ↦ K.pure _ t s hi h)
        fun b t₁ s₁ hi₁ h₁ ↦ Keeps.ite ?_ (ih _) t₁ s₁ hi₁ h₁)
      exact .bind (D.shiftMarker hE fuel n) fun _ ↦ ih _

omit D hE in
/-- No handle is kept aside: every table may be loaded again. -/
theorem nothing_aside {t : Txn} : once → ∀ mk ∈ ([] : List Marker), ∀ tbl ∈ t.tables,
    mk.table ≠ tbl.basePath :=
  fun _ _ h ↦ absurd h List.not_mem_nil

theorem waitAllMarkers (fuel : ℕ) :
    Keeps sem P i (fun t s ↦ Holding i c [] t s ∧ E t s) (Tx.waitAllMarkers fuel) := by
  have K := D.keeper hE.lasting (X := [])
  induction fuel with
  | zero => exact .diverge
  | succ fuel ih =>
    refine .get_bind fun t ↦ .bind (K.waitMarkers fuel fun e _ t s h ↦ ?_) fun b ↦
      .ite (K.pure _) (.get_bind fun t ↦ .ite ?_ ?_)
    · exact ⟨h.1.sameHandles ⟨rfl, rfl, rfl⟩, hE.frame (t := t) rfl h.2⟩
    · exact .bind (D.abort_keeps hE true) fun _ ↦ K.pure _
    · exact .bind (D.reopenTables hE (fun _ ↦ nothing_aside) fuel false) fun _ ↦
        K.modify_bind (fun _ ↦ .of_tables rfl) ih

theorem rebuildState :
    Keeps sem P i (fun t s ↦ Holding i c [] t s ∧ E t s) Tx.rebuildState := by
  have K := D.keeper hE.lasting (X := [])
  have tables : ∀ is, Keeps sem P i (fun t s ↦ Holding i c [] t s ∧ E t s)
      (Tx.rebuildTables is) := by
    intro is
    induction is with
    | nil => exact K.pure _
    | cons n is ih =>
      refine .get_bind fun t ↦ ?_
      split
      · exact ih
      · refine K.modify_bind (fun t ↦ .modifyTable t n fun _ ↦ rfl)
          (.bind (K.parseAll _ 0 {} fun u _ t s _ h ↦ ?_) fun r ↦ ?_)
        · exact ⟨h.1.sameHandles ⟨rfl, rfl, rfl⟩, hE.frame (t := t) rfl h.2⟩
        · cases r with
          | none => exact K.pure _
          | some deltaLog => exact K.modify_bind (fun t ↦ .modifyTable t n fun _ ↦ rfl) ih
  refine .get_bind fun t ↦ .bind (tables _) fun b ↦ .ite ?_ (K.pure _)
  exact K.modify_bind (fun t ↦ .clearConcurrency t) (K.pure _)

theorem resolveConflicts (st : Tx.CommitState) :
    Keeps sem P i (fun t s ↦ Holding i c [] t s ∧ E t s) (Tx.resolveConflicts st) := by
  have K := D.keeper hE.lasting (X := [])
  have aborts : Keeps sem P i (fun t s ↦ Holding i c [] t s ∧ E t s) (do
      Tx.abort false
      pure none : Tx (Option Tx.CommitState)) := .bind (D.abort_keeps hE false) fun _ ↦ K.pure _
  have again : Keeps sem P i (fun t s ↦ Holding i c [] t s ∧ E t s) (Tx.redoAgain st) := by
    refine .get_bind fun t ↦ .ite aborts (.bind (D.rebuildState hE) fun b ↦ .ite ?_ aborts)
    exact .bind (K.redoRound _) fun _ ↦ K.pure _
  refine .get_bind fun t ↦ .ite (.ite (.ite again (K.pure _)) ?_) (.ite aborts (K.pure _))
  exact .bind (K.redoRound _) fun _ ↦ K.pure _

theorem writeTables (fuel rounds : ℕ) (is : List ℕ) :
    Keeps sem P i (fun t s ↦ Holding i c [] t s ∧ E t s) (Tx.writeTables fuel rounds is) := by
  have K := D.keeper hE.lasting (X := [])
  induction is with
  | nil => exact K.pure _
  | cons n is ih =>
    intro t s hi h
    refine wp_get_bind ?_
    split
    · exact ih t s hi h
    · next tbl hn =>
      refine wp_ite (fun _ ↦ wp_bind hi (wp_mono (D.writeCommit hE hi h hn)
        fun r t₁ s₁ hi₁ h₁ ↦ ?_)) fun _ ↦ ih t s hi h
      have next : Keeps sem P i (fun t s ↦ Holding i c [] t s ∧ E t s) (do
          Tx.modifyTable n fun tbl ↦ { tbl with committed := true }
          Tx.writeTables fuel rounds is) :=
        K.modify_bind (fun t ↦ .modifyTable t n fun _ ↦ rfl) ih
      cases r with
      | ok => exact next t₁ s₁ hi₁ h₁
      | lost =>
        exact Keeps.bind (.when K.stable (D.shiftMarker hE fuel n)) (fun _ ↦ K.pure _) t₁ s₁ hi₁ h₁
      | taken => exact Keeps.ite (K.pure _) (K.pure _) t₁ s₁ hi₁ h₁
      | failed => exact K.pure _ t₁ s₁ hi₁ h₁

theorem repairGlobalLog (fuel n : ℕ) :
    Keeps sem P i (fun t s ↦ Holding i c [] t s ∧ E t s) (Tx.repairGlobalLog fuel n) := by
  have K := D.keeper hE.lasting (X := [])
  have moveBehind : ∀ p first highest, Keeps sem P i (fun t s ↦ Holding i c [] t s ∧ E t s)
      (Tx.moveBehind fuel n p first highest) := by
    intro p first highest
    refine .bind (K.waitVersions fuel p _) fun _ t s hi h ↦ wp_get_bind ?_
    split
    · exact K.pure _ t s hi h
    · next tbl hn =>
      refine wp_bind hi (D.reserveVersion hE.lasting fuel { tbl with readVersion := highest }
        highest hi h (fun m hm ↦ h.1.mine (.inr ⟨tbl, List.mem_of_getElem? hn, hm⟩))
        (fun _ _ hm ↦ absurd hm List.not_mem_nil) fun m v s₁ hi₁ h₁ hpath hgone ↦
          wp_modify_bind (K.pure _ _ s₁ hi₁ ⟨?_, ?_⟩))
      · exact h₁.1.setTable hn (fun m hm hv ↦ (hgone m hm hv).2) rfl hpath
      · refine hE.frame (List.map_modify_eq _ fun a ha ↦ ?_) h₁.2
        obtain rfl := Option.some.inj (ha.symm.trans hn)
        rfl
  refine .get_bind fun t ↦ ?_
  split
  · exact K.pure _
  · refine .bind (K.highestCommitted _ fuel _) fun r ↦ ?_
    cases r with
    | none => exact K.pure _
    | some highest =>
      exact .ite (K.pure _) (.bind (K.updateGlobalEntry _ _) fun b ↦
        .ite (moveBehind _ _ highest) (K.pure _))

theorem afterInvalid (fuel rounds : ℕ) :
    Keeps sem P i (fun t s ↦ Holding i c [] t s ∧ E t s) (Tx.afterInvalid fuel rounds) := by
  have K := D.keeper hE.lasting (X := [])
  refine .bind K.releaseGlobalLock fun _ ↦ .bind (.get_bind fun t ↦
    .ite (D.shiftLost hE fuel _ false) (K.pure _)) fun b ↦ .ite (K.pure _) (.get_bind fun t ↦ ?_)
  refine .bind (D.abort_keeps hE false) fun _ ↦ .ite
    (.bind (D.reopenTables hE (fun _ ↦ nothing_aside) fuel false) fun _ ↦ ?_) (K.pure _)
  exact .ite (K.pure _) (K.pure _)

theorem finish (maps : VersionMaps) :
    Keeps sem P i (fun t s ↦ Holding i c [] t s ∧ E t s) (Tx.finish maps) := by
  have K := D.keeper hE.lasting (X := [])
  refine .bind (K.createGlobalSnapshot maps) fun _ ↦ K.modify_bind (fun _ ↦ .of_tables rfl)
    fun t s hi h ↦ wp_get_bind (wp_bind hi (wp_mono (D.releaseTables hE _ hi
      ⟨h.1, h.2, cleared_range t s⟩) fun _ t₁ s₁ hi₁ h₁ ↦ K.pure _ t₁ s₁ hi₁ ⟨h₁.1, h₁.2.1⟩))

theorem writePhase (fuel : ℕ) (st : Tx.CommitState) :
    Keeps sem P i (fun t s ↦ Holding i c [] t s ∧ E t s) (Tx.writePhase fuel st) := by
  have K := D.keeper hE.lasting (X := [])
  have aborts : ∀ {α : Type} (a : α), Keeps sem P i (fun t s ↦ Holding i c [] t s ∧ E t s) (do
      Tx.abort false
      pure a : Tx α) := fun a ↦ .bind (D.abort_keeps hE false) fun _ ↦ K.pure a
  refine .bind (K.startValidation fuel) fun r ↦ ?_
  split
  · refine .get_bind fun t ↦ .bind (D.writeTables hE fuel st.rounds _) fun r ↦ ?_
    cases r with
    | written => exact .bind (D.finish hE _) fun _ ↦ K.pure _
    | taken n =>
      refine .bind (.bind (.get_bind fun t ↦ .ite (D.repairGlobalLog hE fuel n) (K.pure _))
        fun _ ↦ .bind K.releaseGlobalLock fun _ ↦ .get_bind fun t ↦
          .ite (aborts _) (K.pure _)) fun _ ↦ .ite (K.pure _) (K.pure _)
    | lost =>
      exact .bind (.bind K.releaseGlobalLock fun _ ↦ .get_bind fun t ↦
        .ite (aborts _) (K.pure _)) fun _ ↦ .ite (K.pure _) (K.pure _)
    | failed => exact .bind K.releaseGlobalLock fun _ ↦ aborts _
  · refine .bind (D.afterInvalid hE fuel _) fun r ↦ ?_
    cases r with
    | some rounds => exact K.pure _
    | none => exact K.pure _
  · exact aborts _

theorem commit (fuel : ℕ) (readOnly : Bool) :
    Keeps sem P i (fun t s ↦ Holding i c [] t s ∧ E t s) (Tx.commit fuel readOnly) := by
  have K := D.keeper hE.lasting (X := [])
  have round : ∀ st, Keeps sem P i (fun t s ↦ Holding i c [] t s ∧ E t s)
      (Tx.commitRound fuel st) := by
    intro st
    refine .bind (.get_bind fun t ↦ .ite (D.waitAllMarkers hE fuel) (K.pure _)) fun b ↦
      .ite (.get_bind fun t ↦ .bind (D.shiftExpiring hE fuel _ _ false) fun r ↦ ?_) (K.pure _)
    split
    · exact K.pure _
    · exact K.pure _
    · refine .bind (K.collectUnseenVersions fuel) fun _ ↦ .bind (D.resolveConflicts hE st)
        fun r ↦ ?_
      cases r with
      | none => exact K.pure _
      | some st => exact D.writePhase hE fuel st
  have rounds : ∀ n st, Keeps sem P i (fun t s ↦ Holding i c [] t s ∧ E t s)
      (Tx.commitRounds fuel n st) := by
    intro n
    induction n with
    | zero => exact fun _ ↦ .diverge
    | succ n ih =>
      refine fun st ↦ .bind (round st) fun r ↦ ?_
      cases r with
      | done result => exact K.pure _
      | again st => exact ih st
  refine .ite (.bind (D.abort_keeps hE true) fun _ ↦ K.pure _) (K.modify_bind (fun t ↦ ?_)
    (rounds _ _))
  exact .map t fun _ ↦ rfl

end Commit

/-! ## A transaction -/

/-- The transaction holds its markers. -/
theorem begin {t : Txn} {s : Store} (fuel : ℕ) (p : Table) (hi : P.inv s)
    (h : Holding i c [] t s) (ht : t.tables = []) :
    Client.wp sem P i (Tx.begin fuel p) t (fun b t' s' ↦
      Holding i c [] t' s' ∧ (b = false → t'.tables = [])) s := by
  have hE : Enduring fun t _ ↦ t.tables = [] := ⟨fun hp h ↦ by simpa [h] using hp, fun _ h ↦ h⟩
  have K := D.keeper hE.lasting (X := [])
  refine wp_bind hi (wp_mono (K.parseGlobalSnapshots t s hi ⟨h, ht⟩) fun _ t₁ s₁ hi₁ h₁ ↦ ?_)
  refine wp_bind hi₁ (D.openTableV2 hE (fun ht _ tbl htbl ↦ ?_) fuel hi₁ h₁
    (fun tbl mk t₂ s₂ _ h₂ hm hpath ↦ ?_) fun t₂ s₂ hi₂ h₂ ↦ ?_)
  · rw [ht] at htbl
    cases htbl
  · refine wp_modify_bind (wp_pure fun s' hs' _ ↦ ⟨?_, nofun⟩)
    exact (D.rely hE.lasting hs' h₂).1.addTable hm hpath
  · exact wp_pure fun s' hs' _ ↦ (D.rely hE.lasting hs' h₂).imp_right fun h _ ↦ h

theorem openNewTable {t : Txn} {s : Store} (fuel : ℕ) (p : Table) (hi : P.inv s)
    (h : Holding i c [] t s) (hp : once → ∀ tbl ∈ t.tables, tbl.basePath ≠ p) :
    Client.wp sem P i (Tx.openNewTable fuel p) t (fun _ t' s' ↦ Holding i c [] t' s') s := by
  have hE : Enduring fun t _ ↦ once → ∀ tbl ∈ t.tables, tbl.basePath ≠ p := by
    refine ⟨fun {t t' s} hpaths h ho tbl htbl ↦ ?_, fun _ h ↦ h⟩
    have hmem := List.mem_map_of_mem (f := (·.basePath)) htbl
    rw [hpaths] at hmem
    obtain ⟨tbl', htbl', heq⟩ := List.mem_map.mp hmem
    exact heq ▸ h ho tbl' htbl'
  have K := D.keeper hE.lasting (X := [])
  have attempts : ∀ n {t s}, P.inv s → Holding i c [] t s →
      (once → ∀ tbl ∈ t.tables, tbl.basePath ≠ p) →
      Client.wp sem P i (Tx.openAttempts fuel p n) t (fun _ t' s' ↦ Holding i c [] t' s') s := by
    intro n
    induction n with
    | zero =>
      exact fun hi h hp ↦ wp_mono (Keeps.bind (D.abort_keeps hE true) (fun _ ↦ K.pure _) _ _ hi
        ⟨h, hp⟩) fun _ _ _ _ h ↦ h.1
    | succ n ih =>
      refine fun hi h hp ↦ wp_bind hi (D.openTableV2 hE (fun h ho ↦ h ho) fuel hi ⟨h, hp⟩
        (fun tbl mk t₁ s₁ _ h₁ hm hpath ↦ ?_) fun t₁ s₁ hi₁ h₁ ↦ ih hi₁ h₁.1 h₁.2)
      exact D.addTable h₁.1 hm hpath
  exact attempts 5 hi h hp

theorem transaction {t : Txn} {s : Store} (fuel : ℕ) (p : Table) (hi : P.inv s)
    (h : Holding i c [] t s) (ht : t.tables = []) :
    Client.wp sem P i (Tx.transaction fuel p) t (fun _ t' s' ↦ Holding i c [] t' s') s := by
  have hE : Enduring fun _ _ ↦ True := ⟨fun _ _ ↦ trivial, fun _ _ ↦ trivial⟩
  have K := D.keeper hE.lasting (X := [])
  have operations : ∀ n t s, P.inv s → Holding i c [] t s ∧ True →
      Client.wp sem P i (Tx.operations n) t (fun _ t' s' ↦ Holding i c [] t' s' ∧ True) s := by
    intro n
    induction n with
    | zero => exact fun _ _ _ _ ↦ wp_diverge
    | succ n ih =>
      refine fun t s hi h ↦ wp_bind hi (D.send hE.lasting rfl h
        fun op s₁ s₂ h₁ hs s₃ h₂₃ hi₃ h₃ ↦ ?_)
      cases op with
      | openTable q =>
        refine wp_bind hi₃ (wp_mono (D.openNewTable n q hi₃ h₃.1 (D.asked hs))
          fun b t₄ s₄ hi₄ h₄ ↦ ?_)
        exact Keeps.ite ih (K.pure _) t₄ s₄ hi₄ ⟨h₄, trivial⟩
      | commit readOnly => exact Keeps.bind (D.commit hE n readOnly) (fun _ ↦ K.pure _) t s₃ hi₃ h₃
      | abort => exact Keeps.bind (D.abort_keeps hE true) (fun _ ↦ K.pure _) t s₃ hi₃ h₃
      | _ => exact Keeps.bind (K.operate _) (fun _ ↦ ih) t s₃ hi₃ h₃
  have attempts : ∀ n {t s}, P.inv s → Holding i c [] t s → t.tables = [] →
      Client.wp sem P i (Tx.beginAttempts fuel p n) t (fun _ t' s' ↦ Holding i c [] t' s') s := by
    intro n
    induction n with
    | zero => exact fun hi h ht ↦ wp_mono (K.pure _ _ _ hi ⟨h, trivial⟩) fun _ _ _ _ h ↦ h.1
    | succ n ih =>
      refine fun hi h ht ↦ wp_bind hi (wp_mono (D.begin fuel p hi h ht) fun b t₁ s₁ hi₁ h₁ ↦
        wp_ite (fun _ ↦ ?_) fun hb ↦ ih hi₁ h₁.1 (h₁.2 (Bool.not_eq_true _ ▸ hb)))
      exact wp_mono (K.pure _ t₁ s₁ hi₁ ⟨h₁.1, trivial⟩) fun _ _ _ _ h ↦ h.1
  refine wp_bind hi (wp_mono (attempts 5 hi h ht) fun b t₁ s₁ hi₁ h₁ ↦ ?_)
  exact wp_mono (Keeps.ite (operations fuel) (K.pure _) t₁ s₁ hi₁ ⟨h₁, trivial⟩)
    fun _ _ _ _ h ↦ h.1

end Holder

end LakeVilla

import LakeVilla.Opening.Calls

/-!
# Placing and giving up markers alone

A transaction that runs alone reserves the version after the highest one at the first attempt, and
it gives up all the markers that it holds.
-/

namespace LakeVilla

namespace TableStats

/-- The table's marker, if it is valid. -/
def held (tbl : TableStats) : List Marker := tbl.marker.toList.filter (·.valid)

/-- The table after its version was given up. -/
def giveUp (tbl : TableStats) : TableStats := { tbl with marker := tbl.marker.map Marker.setInvalid }

@[simp] theorem giveUp_basePath (tbl : TableStats) : tbl.giveUp.basePath = tbl.basePath := rfl

@[simp] theorem held_giveUp (tbl : TableStats) : tbl.giveUp.held = [] := by
  unfold held giveUp
  cases tbl.marker with
  | none => rfl
  | some mk => rfl

theorem held_of_valid {tbl : TableStats} {mk : Marker} (hmk : tbl.marker = some mk)
    (hv : mk.valid = true) : tbl.held = [mk] := by
  simp [held, hmk, hv]

theorem held_of_invalid {tbl : TableStats} {mk : Marker} (hmk : tbl.marker = some mk)
    (hv : mk.valid = false) : tbl.held = [] := by
  simp [held, hmk, hv]

theorem held_of_none {tbl : TableStats} (hmk : tbl.marker = none) : tbl.held = [] := by
  simp [held, hmk]

end TableStats

theorem Marker.setInvalid_eq_self {mk : Marker} (hv : mk.valid = false) : mk.setInvalid = mk := by
  rw [setInvalid, ← hv]

/-- The markers that the tables hold. -/
def heldBy (tbls : List TableStats) : List Marker := tbls.flatMap (·.held)

@[simp] theorem heldBy_nil : heldBy [] = [] := rfl

@[simp] theorem heldBy_cons (tbl : TableStats) (tbls : List TableStats) :
    heldBy (tbl :: tbls) = tbl.held ++ heldBy tbls := rfl

@[simp] theorem heldBy_append (tbls tbls' : List TableStats) :
    heldBy (tbls ++ tbls') = heldBy tbls ++ heldBy tbls' := List.flatMap_append

@[simp] theorem heldBy_giveUp (tbls : List TableStats) :
    heldBy (tbls.map TableStats.giveUp) = [] := by
  induction tbls with
  | nil => rfl
  | cons tbl tbls ih => simp [ih]

namespace Opening

open Concurrency

variable {i : TxnId} {D : Prop} {t : Txn} {s s₀ : Store} {mk : Marker} {mks : List Marker}
variable {tbl : TableStats}

/-! ## Giving up -/

theorem emptyCommit_ne_marker (txnid : TxnId) (d : Option ℤ) : emptyCommit ≠ .marker txnid d :=
  fun h ↦ nomatch h

/-- A running marker is released. -/
theorem release (hs : Alone i s₀ s (mk :: mks)) {Q : Bool × Marker → Txn → Store → Prop}
    (h : ∀ s', Alone i s₀ s' mks → (∀ k, (s'.get k).isSome = (s.get k).isSome) →
      Q (true, mk.setInvalid) t s') :
    Client.solo (served false) i D (Tx.release mk) t Q s := by
  obtain ⟨hvalid, o, d, hget, hetag, -⟩ := hs.held mk (List.mem_cons_self ..)
  unfold Tx.release
  rw [if_pos hvalid]
  unfold Tx.releaseAttempts
  rw [hetag]
  refine Client.solo_bind (writeIfMatch hget fun s' o' ho' hput ↦ Client.solo_pure (h s' ?_ ?_))
  · exact hs.release hput fun txnid d ↦ ho' ▸ emptyCommit_ne_marker txnid d
  · exact Store.get_isSome_of_update hput (by rw [hget]; rfl)

/-- A marker that was given up before stays as it is. -/
theorem release_invalid (hmk : mk.valid = false) {Q : Bool × Marker → Txn → Store → Prop}
    (h : Q (true, mk) t s) : Client.solo (served false) i D (Tx.release mk) t Q s := by
  unfold Tx.release
  rw [hmk]
  exact Client.solo_pure h

/-- The marker of a table is destroyed with a new one in its place. -/
theorem destroyMarker (hs : Alone i s₀ s (tbl.held ++ mks)) {Q : Unit → Txn → Store → Prop}
    (h : ∀ s', Alone i s₀ s' mks → (∀ k, (s'.get k).isSome = (s.get k).isSome) → Q () t s') :
    Client.solo (served false) i D (Tx.destroyMarker tbl.marker) t Q s := by
  cases hmk : tbl.marker with
  | none =>
    rw [TableStats.held_of_none hmk] at hs
    exact Client.solo_pure (h s hs fun _ ↦ rfl)
  | some mk =>
    cases hv : mk.valid with
    | true =>
      rw [TableStats.held_of_valid hmk hv] at hs
      exact Client.solo_bind (release hs fun s' hs' hsome ↦ Client.solo_pure (h s' hs' hsome))
    | false =>
      rw [TableStats.held_of_invalid hmk hv] at hs
      exact Client.solo_bind (release_invalid hv (Client.solo_pure (h s hs fun _ ↦ rfl)))

variable {before after : List TableStats}

/-- A table gives up its version. -/
theorem abortTable (ht : t.tables = before ++ tbl :: after)
    (hs : Alone i s₀ s (tbl.held ++ mks)) {Q : Unit → Txn → Store → Prop}
    (h : ∀ s', Alone i s₀ s' mks → Q () { t with tables := before ++ tbl.giveUp :: after } s') :
    Client.solo (served false) i D (Tx.abortTable before.length) t Q s := by
  have hj : t.tables[before.length]? = some tbl := by rw [ht, List.getElem?_append_cons]
  have hmodify : ∀ f : TableStats → TableStats,
      t.tables.modify before.length f = before ++ f tbl :: after := by
    intro f
    rw [ht, List.modify_append_cons]
  refine Client.solo_get_bind ?_
  rw [hj]
  dsimp only
  split
  · next mk hmk =>
    have hgive : { tbl with marker := some mk.setInvalid } = tbl.giveUp := by
      rw [TableStats.giveUp, hmk]
      rfl
    cases hv : mk.valid with
    | true =>
      rw [TableStats.held_of_valid hmk hv] at hs
      refine Client.solo_bind (release hs fun s' hs' _ ↦ ?_)
      refine Client.solo_modify ?_
      rw [hmodify, if_pos rfl, hgive]
      exact h s' hs'
    | false =>
      rw [TableStats.held_of_invalid hmk hv] at hs
      refine Client.solo_bind (release_invalid hv ?_)
      refine Client.solo_modify ?_
      rw [hmodify, if_pos rfl, ← Marker.setInvalid_eq_self hv, hgive]
      exact h s hs
  · next hmk =>
    have hgive : tbl.giveUp = tbl := by
      obtain ⟨_⟩ := tbl
      subst hmk
      rfl
    rw [TableStats.held_of_none hmk] at hs
    have hQ := h s hs
    rw [hgive, ← ht] at hQ
    exact Client.solo_pure hQ

/-- The tables from one on give up their versions. -/
theorem abortTables (ht : t.tables = before ++ after) (hs : Alone i s₀ s (heldBy after ++ mks))
    {Q : Unit → Txn → Store → Prop}
    (h : ∀ s', Alone i s₀ s' mks →
      Q () { t with tables := before ++ after.map TableStats.giveUp } s') :
    Client.solo (served false) i D (Tx.abortTables (List.range' before.length after.length)) t Q
      s := by
  induction after generalizing t s before with
  | nil =>
    have hQ := h s hs
    rw [List.map_nil, ← ht] at hQ
    exact Client.solo_pure hQ
  | cons tbl after ih =>
    rw [heldBy_cons, List.append_assoc] at hs
    refine Client.solo_bind (abortTable ht hs fun s' hs' ↦ ?_)
    have hlen : before.length + 1 = (before ++ [tbl.giveUp]).length := by simp
    change Client.solo _ _ _ (Tx.abortTables (List.range' (before.length + 1) after.length)) _ _ _
    rw [hlen]
    refine ih (by simp) hs' fun s₂ hs₂ ↦ ?_
    simpa using h s₂ hs₂

/-- The tables give up their versions; what else the transaction holds stays. -/
theorem abort {clear : Bool} (hm : t.markers = true)
    (hs : Alone i s₀ s (heldBy t.tables ++ mks)) {Q : Unit → Txn → Store → Prop}
    (h : ∀ s' sublog, Alone i s₀ s' mks →
      Q () { t with tables := t.tables.map TableStats.giveUp, sublog := sublog } s') :
    Client.solo (served false) i D (Tx.abort clear) t Q s := by
  refine Client.solo_get_bind (Client.solo_bind (Client.solo_when (fun _ ↦ ?_) fun hf ↦ ?_))
  · rw [List.range_eq_range']
    have hnil : t.tables = [] ++ t.tables := rfl
    refine abortTables hnil hs fun s' hs' ↦ ?_
    exact Client.solo_when (fun _ ↦ Client.solo_modify (h s' [] hs')) fun _ ↦ h s' t.sublog hs'
  · cases hm.symm.trans hf

/-! ## Reserving -/

/-- The version after the highest one is reserved at the first attempt. -/
theorem reserveVersion {fuel h : ℕ} (hfuel : D ∨ 0 < fuel) (hid : t.transactionId = i)
    (hm : t.markers = true) (hs : Alone i s₀ s (tbl.held ++ mks))
    (hh : s.highest tbl.basePath = some h) {Q : TableStats × ℕ → Txn → Store → Prop}
    (hQ : ∀ s' mk, mk.table = tbl.basePath → mk.version = h + 1 → mk.valid = true →
      Alone i s₀ s' (mk :: mks) → s'.highest tbl.basePath = some (h + 1) →
      Q ({ tbl with marker := some mk, markerVersion := h + 1 }, h) t s') :
    Client.solo (served false) i D (Tx.reserveVersion fuel tbl h) t Q s := by
  cases fuel with
  | zero => exact Client.solo_diverge (hfuel.resolve_right (Nat.lt_irrefl 0))
  | succ fuel =>
    have hnone := Store.get_eq_none_of_highest hh
    refine Client.solo_get_bind ?_
    rw [if_pos hm]
    refine Client.solo_bind (check fun s₁ h₁ ↦ ?_)
    rw [hnone]
    refine Client.solo_bind (storeTime fun now s₂ h₂ ↦ ?_)
    have h₁₂ : s₂.get = s.get := h₂.trans h₁
    refine Client.solo_bind (writeAtomic (h₁₂ ▸ hnone) fun s₃ o ho hput ↦ ?_)
    have hs₂ := hs.congr h₁₂
    have hh₂ : s₂.highest tbl.basePath = some h :=
      (Store.highest_congr fun v ↦ by rw [h₁₂]).trans hh
    have hs₃ : Alone i s₀ s₃ (⟨tbl.basePath, h + 1, some o.etag,
        now.nowMs + t.cfg.options.markerLeaseMs, true⟩ :: (tbl.held ++ mks)) :=
      hs₂.place hh₂ rfl hput (hid ▸ ho) rfl rfl
    refine Client.solo_bind (destroyMarker (hs₃.perm List.perm_middle.symm) fun s₄ hs₄ hsome ↦ ?_)
    refine Client.solo_pure (hQ s₄ _ rfl rfl rfl hs₄ ?_)
    rw [Store.highest_congr fun v ↦ hsome _, Store.highest_place hput hh₂]

end Opening

end LakeVilla

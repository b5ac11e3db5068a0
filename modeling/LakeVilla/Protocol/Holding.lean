import LakeVilla.Protocol.Remembering

/-!
# Which markers a transaction holds

A transaction holds a handle of every marker that it places: the handle belongs to one of its
tables, or to a table that it is just loading. Handles are given up after their markers are gone,
since the store answers the requests that place and release markers. So every running marker of the
transaction is known to it (`Holding`).
-/

namespace LakeVilla

open Concurrency Client

/-- Version `v` of table `p` exists and holds no running marker of client `i`. -/
def Store.Gone (s : Store) (i : TxnId) (p : Table) (v : ℕ) : Prop :=
  s.Exists p v ∧ ¬ s.Running p v i

/-- While the handle is valid its version exists, and a running marker of client `i` that it holds
has the handle's ETag. -/
structure Marker.Mine (i : TxnId) (s : Store) (mk : Marker) : Prop where
  existing : mk.valid = true → s.Exists mk.table mk.version
  etag : ∀ {o d}, mk.valid = true → s.get mk.path = some o → o.content = .marker i d →
    mk.etag = some o.etag

/-- The handles of the transaction are the same. -/
structure Txn.SameHandles (t t' : Txn) : Prop where
  cfg : t'.cfg = t.cfg
  transactionId : t'.transactionId = t.transactionId
  tables : t'.tables.map (·.reservation) = t.tables.map (·.reservation)

theorem Txn.SameHandles.refl (t : Txn) : t.SameHandles t := ⟨rfl, rfl, rfl⟩

theorem Txn.SameHandles.trans {t t' t'' : Txn} (h : t.SameHandles t') (h' : t'.SameHandles t'') :
    t.SameHandles t'' :=
  ⟨h'.cfg.trans h.cfg, h'.transactionId.trans h.transactionId, h'.tables.trans h.tables⟩

theorem Txn.SameMarkers.handles {t t' : Txn} (h : t.SameMarkers t') : t.SameHandles t' :=
  ⟨h.cfg, h.transactionId, h.tables⟩

/-- The handle belongs to a table of the transaction, or to a table that is being loaded. -/
def Txn.Handles (t : Txn) (X : List Marker) (mk : Marker) : Prop :=
  mk ∈ X ∨ ∃ tbl ∈ t.tables, tbl.marker = some mk

/-- Every running marker of client `i` has a valid handle, of a table of the transaction or in
`X`. -/
structure Holding (i : TxnId) (c : Config) (X : List Marker) (t : Txn) (s : Store) : Prop where
  cfg : t.cfg = c
  id : t.transactionId = i
  held : ∀ {p v}, s.Running p v i →
    ∃ mk, t.Handles X mk ∧ mk.valid = true ∧ mk.path = .version p v
  mine : ∀ {mk}, t.Handles X mk → mk.Mine i s
  table : ∀ tbl ∈ t.tables, ∀ mk, tbl.marker = some mk → mk.table = tbl.basePath
  unmarked : c.levels.markers = false → ∀ p v, ¬ s.Running p v i

/-! ## Steps -/

section Steps

variable {i j : TxnId} {c : Config} {X : List Marker} {t t' : Txn} {s s' : Store} {p : Table}
variable {v : ℕ} {mk : Marker}

/-- A running marker was there before, or it was placed on an absent version. -/
theorem Fenced.running_back (hf : Fenced j s s') (h : s'.Running p v i) :
    s.Running p v i ∨ s.get (.version p v) = none ∧ i = j := by
  obtain ⟨o, d, ho, hc⟩ := h
  rcases hf.marker_back ho hc with ho | hnone
  · exact .inl ⟨o, d, ho, hc⟩
  · exact .inr hnone

theorem Store.Gone.mono (h : s.Gone i p v) (hf : Fenced j s s') : s'.Gone i p v := by
  refine ⟨hf.exists_mono h.1, fun hr ↦ ?_⟩
  rcases hf.running_back hr with hr | ⟨hnone, -⟩
  · exact h.2 hr
  · have := h.1
    rw [Store.Exists, hnone] at this
    cases this

theorem Marker.Mine.mono (h : mk.Mine i s) (hf : Fenced j s s') : mk.Mine i s' where
  existing hv := hf.exists_mono (h.existing hv)
  etag {o d} hv ho hc := by
    rcases hf.marker_back ho hc with ho' | ⟨hnone, -⟩
    · exact h.etag hv ho' hc
    · have := h.existing hv
      rw [Store.Exists, hnone] at this
      cases this

theorem Marker.Mine.setInvalid (i : TxnId) (s : Store) (mk : Marker) : mk.setInvalid.Mine i s :=
  ⟨nofun, nofun⟩

/-- The version of a valid handle is gone as soon as it holds no running marker. -/
theorem Marker.Mine.gone (h : mk.Mine i s) (hr : ¬ s.Running mk.table mk.version i)
    (hv : mk.valid = true) : s.Gone i mk.table mk.version :=
  ⟨h.existing hv, hr⟩

/-- A call that writes no marker leaves every running marker where it was. -/
theorem answer_placeless {d : Choice} {k : Call} {r : Response k} (hk : k.placeless = true)
    (h : answer d k s = (r, s')) (hr : s'.Running p v i) : s.Running p v i := by
  obtain ⟨o, dl, ho, hc⟩ := hr
  have hput : ∀ {k' c'}, (∀ j d, c' ≠ Content.marker j d) → s' = s.put k' c' →
      s.Running p v i := by
    rintro k' c' hne rfl
    rw [Store.get_put] at ho
    split at ho
    · obtain rfl := Option.some.inj ho
      exact absurd hc (hne i dl)
    · exact ⟨o, dl, ho, hc⟩
  have hsame : s' = s → s.Running p v i := fun h ↦ h ▸ ⟨o, dl, ho, hc⟩
  cases k with
  | write k' c' =>
    have hne : ∀ j d, c' ≠ Content.marker j d := fun j d h ↦ by
      rw [h] at hk
      cases hk
    rcases answer_write h with ⟨-, h⟩ | ⟨-, -, h | h⟩
    · exact hput hne h
    · exact hsame h
    · exact hput hne h
  | writeAtomic k' c' =>
    have hne : ∀ j d, c' ≠ Content.marker j d := fun j d h ↦ by
      rw [h] at hk
      cases hk
    obtain ⟨r, e⟩ := r
    rcases answer_writeAtomic h with ⟨-, -, -, h⟩ | ⟨-, -, h⟩ | ⟨-, -, h | ⟨-, h⟩⟩
    · exact hput hne h
    · exact hsame h
    · exact hsame h
    · exact hput hne h
  | writeIfMatch k' c' etag =>
    have hne : ∀ j d, c' ≠ Content.marker j d := fun j d h ↦ by
      rw [h] at hk
      cases hk
    rcases answer_writeIfMatch h with ⟨-, -, h⟩ | ⟨-, -, h⟩ | ⟨-, -, h | ⟨-, h⟩⟩
    · exact hput hne h
    · exact hsame h
    · exact hsame h
    · exact hput hne h
  | deleteFile k' =>
    rcases answer_deleteFile h with h | rfl
    · exact hsame h
    · rw [Store.get_erase] at ho
      split at ho
      · cases ho
      · exact ⟨o, dl, ho, hc⟩
  | check | read | listObjects | storeTime | localTimeMs | schedule | nextOp =>
    exact hsame (Prod.mk.inj h).2.symm

namespace Holding

/-- No marker of the client was placed. -/
theorem mono (h : Holding i c X t s) (hf : Fenced j s s')
    (hr : ∀ p v, s'.Running p v i → s.Running p v i) : Holding i c X t s' where
  cfg := h.cfg
  id := h.id
  held hrun := h.held (hr _ _ hrun)
  mine hmk := (h.mine hmk).mono hf
  table := h.table
  unmarked hm p v hrun := h.unmarked hm p v (hr p v hrun)

theorem other (h : Holding i c X t s) (hf : Fenced j s s') (hj : j ≠ i) : Holding i c X t s' :=
  h.mono hf fun _ _ hrun ↦ (hf.running_back hrun).resolve_right fun hn ↦ hj hn.2.symm

/-- A handle of a marker that is gone is dropped. -/
theorem drop (h : Holding i c (mk :: X) t s)
    (hmk : mk.valid = true → ¬ s.Running mk.table mk.version i) : Holding i c X t s where
  cfg := h.cfg
  id := h.id
  held hrun := by
    obtain ⟨mk', hmem, hv, hp⟩ := h.held hrun
    refine ⟨mk', ?_, hv, hp⟩
    rcases hmem with hmem | hmem
    · rcases List.mem_cons.mp hmem with rfl | hmem
      · obtain ⟨rfl, rfl⟩ := Key.version.inj hp
        exact absurd hrun (hmk hv)
      · exact .inl hmem
    · exact .inr hmem
  mine hmk := h.mine (hmk.imp_left (List.mem_cons_of_mem mk))
  table := h.table
  unmarked := h.unmarked

theorem sameHandles (h : Holding i c X t s) (ht : t.SameHandles t') : Holding i c X t' s := by
  have hback : ∀ tbl' ∈ t'.tables, ∃ tbl ∈ t.tables, tbl.reservation = tbl'.reservation := by
    intro tbl' htbl'
    have hmem := List.mem_map_of_mem (f := (·.reservation)) htbl'
    rw [ht.tables] at hmem
    exact List.mem_map.mp hmem
  have hforth : ∀ tbl ∈ t.tables, ∃ tbl' ∈ t'.tables, tbl'.reservation = tbl.reservation := by
    intro tbl htbl
    have hmem := List.mem_map_of_mem (f := (·.reservation)) htbl
    rw [← ht.tables] at hmem
    exact List.mem_map.mp hmem
  refine ⟨ht.cfg.trans h.cfg, ht.transactionId.trans h.id, fun hrun ↦ ?_, fun hmk ↦ h.mine ?_,
    fun tbl' htbl' mk hmk ↦ ?_, h.unmarked⟩
  · obtain ⟨mk, hmem, hv, hp⟩ := h.held hrun
    refine ⟨mk, hmem.imp_right fun ⟨tbl, htbl, hmk⟩ ↦ ?_, hv, hp⟩
    obtain ⟨tbl', htbl', heq⟩ := hforth tbl htbl
    exact ⟨tbl', htbl', (Prod.mk.inj (Prod.mk.inj heq).2).1.trans hmk⟩
  · refine hmk.imp_right fun ⟨tbl', htbl', hmk⟩ ↦ ?_
    obtain ⟨tbl, htbl, heq⟩ := hback tbl' htbl'
    exact ⟨tbl, htbl, (Prod.mk.inj (Prod.mk.inj heq).2).1.trans hmk⟩
  · obtain ⟨tbl, htbl, heq⟩ := hback tbl' htbl'
    obtain ⟨hb, hr⟩ := Prod.mk.inj heq
    rw [← hb]
    exact h.table tbl htbl mk ((Prod.mk.inj hr).1.trans hmk)

/-- The handle of table `n` is replaced by a new one, which was kept aside, after its marker is
gone. -/
theorem setTable (h : Holding i c (mk :: X) t s) {n : ℕ} {old : TableStats}
    (hn : t.tables[n]? = some old)
    (hold : ∀ m, old.marker = some m → m.valid = true → ¬ s.Running m.table m.version i)
    {f : TableStats → TableStats} (hf : (f old).marker = some mk)
    (ht : mk.table = (f old).basePath) :
    Holding i c X { t with tables := t.tables.modify n f } s where
  cfg := h.cfg
  id := h.id
  held hrun := by
    obtain ⟨m, hmem, hv, hp⟩ := h.held hrun
    refine ⟨m, ?_, hv, hp⟩
    have hnew : f old ∈ t.tables.modify n f := by
      refine List.mem_of_getElem? (i := n) ?_
      rw [List.getElem?_modify_eq, hn]
      rfl
    rcases hmem with hmem | ⟨tbl, htbl, hm⟩
    · rcases List.mem_cons.mp hmem with rfl | hmem
      · exact .inr ⟨f old, hnew, hf⟩
      · exact .inl hmem
    · obtain ⟨k, hk⟩ := List.mem_iff_getElem?.mp htbl
      by_cases hkn : n = k
      · subst hkn
        obtain rfl := Option.some.inj (hk.symm.trans hn)
        obtain ⟨rfl, rfl⟩ := Key.version.inj hp
        exact absurd hrun (hold m hm hv)
      · have hsame : (t.tables.modify n f)[k]? = some tbl := by
          rw [List.getElem?_modify, hk]
          simp [hkn]
        exact .inr ⟨tbl, List.mem_of_getElem? hsame, hm⟩
  mine {m} hmk := by
    rcases hmk with hmk | ⟨tbl, htbl, hm⟩
    · exact h.mine (.inl (List.mem_cons_of_mem _ hmk))
    · rcases List.mem_modify htbl with htbl | ⟨_, hk, rfl⟩
      · exact h.mine (.inr ⟨tbl, htbl, hm⟩)
      · obtain rfl := Option.some.inj (hk.symm.trans hn)
        obtain rfl := Option.some.inj (hm.symm.trans hf)
        exact h.mine (.inl List.mem_cons_self)
  table tbl htbl m hm := by
    rcases List.mem_modify htbl with htbl | ⟨_, hk, rfl⟩
    · exact h.table tbl htbl m hm
    · obtain rfl := Option.some.inj (hk.symm.trans hn)
      obtain rfl := Option.some.inj (hm.symm.trans hf)
      exact ht
  unmarked := h.unmarked

/-- A handle that needs no marker is kept aside. -/
theorem add (h : Holding i c X t s) (hmk : mk.Mine i s) : Holding i c (mk :: X) t s where
  cfg := h.cfg
  id := h.id
  held hrun := by
    obtain ⟨m, hm, hv, hp⟩ := h.held hrun
    exact ⟨m, hm.imp_left (List.mem_cons_of_mem mk), hv, hp⟩
  mine {m} hm := by
    rcases hm with hm | hm
    · rcases List.mem_cons.mp hm with rfl | hm
      · exact hmk
      · exact h.mine (.inl hm)
    · exact h.mine (.inr hm)
  table := h.table
  unmarked := h.unmarked

/-- The handle of a table whose marker is gone is replaced by an invalid one. -/
theorem setMarker (h : Holding i c X t s) {n : ℕ} {old : TableStats} {m : Marker}
    (hn : t.tables[n]? = some old) (hm : old.marker = some m)
    (hold : m.valid = true → ¬ s.Running m.table m.version i) (hmk : mk = m ∨ mk = m.setInvalid)
    {f : TableStats → TableStats} (hf : (f old).marker = some mk)
    (hb : (f old).basePath = old.basePath) :
    Holding i c X { t with tables := t.tables.modify n f } s := by
  have htbl := h.table old (List.mem_of_getElem? hn) m hm
  refine setTable (h.add ?_) hn (fun m' hm' ↦ ?_) hf ?_
  · rcases hmk with rfl | rfl
    · exact h.mine (.inr ⟨old, List.mem_of_getElem? hn, hm⟩)
    · exact .setInvalid i s m
  · obtain rfl := Option.some.inj (hm'.symm.trans hm)
    exact hold
  · rw [hb, ← htbl]
    rcases hmk with rfl | rfl
    · rfl
    · rfl

/-- A loaded table joins the others, with the handle that was kept aside. -/
theorem addTable (h : Holding i c (mk :: X) t s) {tbl : TableStats} (hmk : tbl.marker = some mk)
    (ht : mk.table = tbl.basePath) :
    Holding i c X { t with tables := t.tables ++ [tbl] } s where
  cfg := h.cfg
  id := h.id
  held hrun := by
    obtain ⟨m, hm, hv, hp⟩ := h.held hrun
    refine ⟨m, ?_, hv, hp⟩
    rcases hm with hm | ⟨tbl', htbl', hm⟩
    · rcases List.mem_cons.mp hm with rfl | hm
      · exact .inr ⟨tbl, by simp, hmk⟩
      · exact .inl hm
    · exact .inr ⟨tbl', by simp [htbl'], hm⟩
  mine {m} hm := by
    rcases hm with hm | ⟨tbl', htbl', hm⟩
    · exact h.mine (.inl (List.mem_cons_of_mem _ hm))
    · rcases List.mem_append.mp htbl' with htbl' | htbl'
      · exact h.mine (.inr ⟨tbl', htbl', hm⟩)
      · obtain rfl := List.mem_singleton.mp htbl'
        obtain rfl := Option.some.inj (hm.symm.trans hmk)
        exact h.mine (.inl List.mem_cons_self)
  table tbl' htbl' m hm := by
    rcases List.mem_append.mp htbl' with htbl' | htbl'
    · exact h.table tbl' htbl' m hm
    · obtain rfl := List.mem_singleton.mp htbl'
      obtain rfl := Option.some.inj (hm.symm.trans hmk)
      exact ht
  unmarked := h.unmarked

/-- The client placed a marker. -/
theorem place (h : Holding i c X t s) {e : ETag} {d : Option ℤ} {dms : ℤ}
    (hf : Fenced i s s') (hm : c.levels.markers = true)
    (hs : s' = s.put (.version p v) (.marker i d)) (he : e = s.nextEtag + 1) :
    Holding i c (⟨p, v, some e, dms, true⟩ :: X) t s' := by
  subst hs
  refine ⟨h.cfg, h.id, fun {q u} hrun ↦ ?_, fun {m} hmk ↦ ?_, h.table, by simp [hm]⟩
  · by_cases hqu : (q, u) = (p, v)
    · obtain ⟨rfl, rfl⟩ := Prod.mk.inj hqu
      exact ⟨_, .inl List.mem_cons_self, rfl, rfl⟩
    · have hold : s.Running q u i := by
        obtain ⟨o, d', ho, hc⟩ := hrun
        rw [Store.get_put_of_ne s _ fun h ↦
          hqu (Prod.ext (Key.version.inj h).1 (Key.version.inj h).2)]
          at ho
        exact ⟨o, d', ho, hc⟩
      obtain ⟨m, hmk, hv, hp⟩ := h.held hold
      exact ⟨m, hmk.imp_left (List.mem_cons_of_mem _), hv, hp⟩
  · rcases hmk with hmk | hmk
    · rcases List.mem_cons.mp hmk with rfl | hmk
      · refine ⟨fun _ ↦ by simp [Store.Exists], fun {o d'} _ ho _ ↦ ?_⟩
        rw [show Marker.path _ = Key.version p v from rfl, Store.get_put_self] at ho
        obtain rfl := Option.some.inj ho
        rw [he]
      · exact (h.mine (.inl hmk)).mono hf
    · exact (h.mine (.inr hmk)).mono hf

end Holding

end Steps

end LakeVilla

import LakeVilla.Protocol.Write
import LakeVilla.Protocol.Repair

/-!
# The custody of the global log

The code of a commit uses the global log through four operations: the validation, which acquires
the lock, the write of the new log, the change of one entry, and the release of the lock. A protocol
is `Managed` if it allows them. It may keep track of who holds the lock and of what the log says:
`H maps` holds from a validation that returned `maps` on until the lock is released, and `K` holds
once the new log was written. `Steady` protocols keep track of nothing.
-/

namespace LakeVilla

open Concurrency

/-! ## Assertions about the global log -/

/-- The transactions have the same part in the global log. -/
structure Txn.Alike (t t' : Txn) : Prop where
  cfg : t'.cfg = t.cfg
  maps : VersionMaps.ofTables t'.tables = VersionMaps.ofTables t.tables
  paths : t'.tables.map (·.basePath) = t.tables.map (·.basePath)

/-- The table has the same part in the version maps. -/
structure TableStats.Alike (a b : TableStats) : Prop where
  basePath : b.basePath = a.basePath
  changed : b.changed = a.changed
  readVersion : b.readVersion = a.readVersion
  markerVersion : b.markerVersion = a.markerVersion

theorem VersionMaps.ofTables_alike {ts ts' : List TableStats}
    (h : List.Forall₂ TableStats.Alike ts ts') :
    VersionMaps.ofTables ts' = VersionMaps.ofTables ts := by
  unfold VersionMaps.ofTables
  generalize ({} : VersionMaps) = maps
  induction h generalizing maps with
  | nil => rfl
  | cons hab _ ih =>
    rw [List.foldl_cons, List.foldl_cons, hab.basePath, hab.changed, hab.readVersion,
      hab.markerVersion]
    exact ih _

theorem Txn.Alike.of_tables {t t' : Txn} (hc : t'.cfg = t.cfg)
    (h : List.Forall₂ TableStats.Alike t.tables t'.tables) : t.Alike t' where
  cfg := hc
  maps := VersionMaps.ofTables_alike h
  paths := by
    generalize t.tables = ts at h
    generalize t'.tables = ts' at h
    induction h with
    | nil => rfl
    | cons hab _ ih => rw [List.map_cons, List.map_cons, hab.basePath, ih]

theorem Aborted.alike {t t' : Txn} (h : Aborted t t') : t.Alike t' := by
  refine .of_tables (by rw [h.eq]) (h.tables.imp fun a b hab ↦ ?_)
  rw [hab.eq]
  exact ⟨rfl, rfl, rfl, rfl⟩

/-- An assertion about the global log that only its own operations may break. -/
structure Guarded (sem : Semantics TxnId Txn Response Store)
    (P : Protocol TxnId Txn Response Store) (i : TxnId) (A : Txn → Store → Prop) : Prop where
  rely : ∀ {t s s'}, A t s → P.rely sem i s s' → P.inv s' → A t s'
  apart : ∀ {t s s'}, A t s → Apart s s' → A t s'
  alike : ∀ {t t' s}, A t s → t.Alike t' → A t' s

/-- The protocol allows the operations on the global log. -/
structure Managed (sem : Semantics TxnId Txn Response Store)
    (P : Protocol TxnId Txn Response Store) (i : TxnId) (c : Config)
    (H : VersionMaps → Txn → Store → Prop) (K : Txn → Store → Prop) : Prop
    extends Disciplined sem P where
  held : ∀ maps, Guarded sem P i (H maps)
  kept : Guarded sem P i K
  startValidation : ∀ (fuel : ℕ) {t s}, t.cfg = c → t.transactionId = i →
    (∀ tbl ∈ t.tables, s.Exists tbl.basePath tbl.readVersion) → P.inv s →
    ∀ {Q : Validation × VersionMaps → Txn → Store → Prop},
    (∀ r maps t' s', QuietLater i s s' → P.inv s' → t.Locked t' → maps.Sound t.tables s' →
      (r = .valid → H maps t' s') → Q (r, maps) t' s') →
    Client.wp sem P i (Tx.startValidation fuel) t Q s
  createGlobalSnapshot : ∀ {maps t s}, H maps t s → (∀ e ∈ maps.lines, s.Exists e.1 e.2) →
    P.inv s → ∀ {Q : Unit → Txn → Store → Prop},
    (∀ t' s', QuietLater i s s' → P.inv s' → t.Locked t' → K t' s' → Q () t' s') →
    Client.wp sem P i (Tx.createGlobalSnapshot maps) t Q s
  updateGlobalEntry : ∀ {maps t s path update}, H maps t s → t.cfg.levels.l2 = true →
    path ∈ t.tables.map (·.basePath) →
    (∀ s', Later s s' → ∀ current v, (∀ u, current = some u → s'.Exists path u) →
      update current = some v → s'.Exists path v) →
    (∀ current, ∃ v, update current = some v ∧ ∀ u, current = some u → u ≤ v) → P.inv s →
    ∀ {Q : Bool → Txn → Store → Prop},
    (∀ r s', QuietLater i s s' → P.inv s' → Q r t s') →
    Client.wp sem P i (Tx.updateGlobalEntry path update) t Q s
  releaseGlobalLock : ∀ {t s}, P.inv s → ∀ {Q : Unit → Txn → Store → Prop},
    (∀ t' s', QuietLater i s s' → P.inv s' → t.Locked t' → Q () t' s') →
    Client.wp sem P i Tx.releaseGlobalLock t Q s

/-- `Steady` protocols allow all operations on the global log. -/
theorem Steady.managed {sem : Semantics TxnId Txn Response Store}
    {P : Protocol TxnId Txn Response Store} (D : Steady sem P) (i : TxnId) (c : Config) :
    Managed sem P i c (fun _ _ _ ↦ True) fun _ _ ↦ True where
  toDisciplined := D.toDisciplined
  held _ := ⟨fun _ _ _ ↦ trivial, fun _ _ ↦ trivial, fun _ _ ↦ trivial⟩
  kept := ⟨fun _ _ _ ↦ trivial, fun _ _ ↦ trivial, fun _ _ ↦ trivial⟩
  startValidation fuel _ _ _ hid hr hi _ h := (D.logRules i).startValidation fuel hid hr hi
    fun r maps t' s' hs hi' hl hm _ ↦ h r maps t' s' hs hi' hl hm fun _ ↦ trivial
  createGlobalSnapshot _ hl hi _ h := D.createGlobalSnapshot hl hi
    fun t' s' hs hi' hl ↦ h t' s' hs hi' hl trivial
  updateGlobalEntry _ _ _ hup _ hi _ h := D.updateGlobalEntry hup hi h
  releaseGlobalLock hi _ h := (D.lockRules i).releaseGlobalLock hi h

/-! ## Carrying an assertion -/

section Keeping

variable {sem : Semantics TxnId Txn Response Store} {P : Protocol TxnId Txn Response Store}
variable {i : TxnId} {c : Config} {L : Bool → Txn → Store → Prop} {b : Bool}
variable {ps : List (Table × ℕ)} {js : List ℕ} {t : Txn} {s : Store} {A : Store → Prop}

theorem Disciplined.keeping (D : Disciplined sem P) (hA : ∀ {s s'}, A s → Apart s s' → A s') :
    Disciplined sem (P.keeping i A) where
  served := D.served
  wf := D.wf
  fenced h := D.fenced h.1
  quiet hi hs hwf hf hq ha hc hn :=
    have ⟨hi', hg⟩ := D.quiet hi hs hwf hf hq ha hc hn
    ⟨hi', hg, fun _ h ↦ hA h ha⟩

theorem Local.keeping (h : Local P i L) : Local (P.keeping i A) i L :=
  ⟨h.later, h.frame, h.load, h.append, h.concurrent⟩

theorem Tracks.keeping {tbl : TableStats} :
    Tracks (P.keeping i A) i t s tbl ↔ Tracks P i t s tbl :=
  ⟨fun h ↦ ⟨h.fresh, h.logged, h.below, h.covered, h.checked⟩,
    fun h ↦ ⟨h.fresh, h.logged, h.below, h.covered, h.checked⟩⟩

theorem Known.keeping :
    Known sem (P.keeping i A) i c L b ps js t s ↔ Known sem P i c L b ps js t s :=
  ⟨fun h ↦ ⟨h.sound, h.cfg, h.recalled, fun hr hu j tbl hj hn ↦
      Tracks.keeping.mp (h.tracks hr hu j tbl hj hn), h.locally, h.opened, h.owns⟩,
    fun h ↦ ⟨h.sound, h.cfg, h.recalled, fun hr hu j tbl hj hn ↦
      Tracks.keeping.mpr (h.tracks hr hu j tbl hj hn), h.locally, h.opened, h.owns⟩⟩

theorem Loading.keeping :
    Loading sem (P.keeping i A) i c L b ps js t s ↔ Loading sem P i c L b ps js t s :=
  ⟨fun h ↦ ⟨Known.keeping.mp h.toKnown, h.uncommitted⟩,
    fun h ↦ ⟨Known.keeping.mpr h.toKnown, h.uncommitted⟩⟩

theorem Clear.keeping : Clear sem (P.keeping i A) i c b t s ↔ Clear sem P i c b t s :=
  ⟨fun h ↦ ⟨h.caught, h.conflict, h.redone⟩, fun h ↦ ⟨h.caught, h.conflict, h.redone⟩⟩

theorem Commits.apart {tbl : TableStats} {s' : Store} (h : Commits i t tbl s s') : Apart s s' := by
  rw [h.put]
  exact .put

theorem Committing.keeping (C : Committing sem P i c L)
    (hA : ∀ {s s'}, A s → Apart s s' → A s') : Committing sem (P.keeping i A) i c L where
  commit hi hs hk hr hc hwf hf := by
    have hr' := Ready.mk (Known.keeping.mp hr.known) (Clear.keeping.mp hr.clear) hr.table hr.pending
    obtain ⟨hi', hg⟩ := C.commit hi hs hk hr' hc hwf hf
    exact ⟨hi', hg, fun _ h ↦ hA h ⟨hc.apart.globalLog, hc.apart.globalTmpLog⟩⟩

/-- Code that leaves the global log alone keeps an assertion about it. -/
theorem Guarded.carry {A : Txn → Store → Prop} {α : Type} {x : Tx α} {t₀ : Txn}
    {Q : α → Txn → Store → Prop} (hA : Guarded sem P i A) (h₀ : A t₀ s)
    (h : Client.wp sem (P.keeping i (A t₀)) i x t Q s) :
    Client.wp sem P i x t (fun a t' s' ↦ Q a t' s' ∧ A t₀ s') s :=
  Client.wp_frame (fun ha hr hi ↦ hA.rely ha hr hi) h h₀

theorem Guarded.wp_bind {A : Txn → Store → Prop} {α β : Type} {x : Tx α} {f : α → Tx β} {t₀ : Txn}
    {Q : β → Txn → Store → Prop} (hA : Guarded sem P i A) (h₀ : A t₀ s) (hi : P.inv s)
    (h : Client.wp sem (P.keeping i (A t₀)) i x t
      (fun a t' s' ↦ A t₀ s' → Client.wp sem P i (f a) t' Q s') s) :
    Client.wp sem P i (x >>= f) t Q s :=
  Client.wp_bind hi (Client.wp_mono (hA.carry h₀ h) fun _ _ _ _ h' ↦ h'.1 h'.2)

end Keeping

end LakeVilla

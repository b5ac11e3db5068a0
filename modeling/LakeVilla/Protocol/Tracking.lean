import Mathlib.Data.List.Nodup
import LakeVilla.Protocol.Snapshot

/-!
# What a transaction knows of its tables

A transaction's conflict detection rests on what it knows of the versions below its reserved ones:
each was merged into the snapshot, is remembered to be waited for, or will never hold an action
(`Tracks`). A version that was merged after the operations were executed is recorded among the
concurrent changes.

The operations of the user do not depend on any of this. What a proof needs to know about them is a
predicate on the transaction and the log that survives whatever the protocol does to the transaction
(`Local`).
-/

namespace LakeVilla

open Concurrency

/-! ## Changes that leave the operations alone -/

/-- The table up to its reserved version. -/
def TableStats.Moved (a b : TableStats) : Prop :=
  b = { a with
    marker := b.marker, markerVersion := b.markerVersion, readVersion := b.readVersion,
    committed := b.committed }

namespace TableStats.Moved

variable {a b c : TableStats}

theorem refl (a : TableStats) : a.Moved a := rfl

theorem trans (h : a.Moved b) (h' : b.Moved c) : a.Moved c := by
  rw [Moved, h', h]

theorem basePath (h : a.Moved b) : b.basePath = a.basePath := by rw [h]

end TableStats.Moved

theorem Unmarked.moved {a b : TableStats} (h : Unmarked a b) : a.Moved b := by
  rw [TableStats.Moved, h.eq]

/-- The transaction up to its reserved versions and what it remembers; its operations may be
deferred from now on. -/
structure Txn.Frame (t t' : Txn) : Prop where
  eq : t' = { t with
    tables := t'.tables, prevMarkers := t'.prevMarkers, relation := t'.relation,
    localLog := t'.localLog, explicitLog := t'.explicitLog,
    globalLockToken := t'.globalLockToken, nextToken := t'.nextToken, waiting := t'.waiting,
    hazards := t'.hazards, decided := t'.decided }
  tables : List.Forall₂ TableStats.Moved t.tables t'.tables
  explicitLog : t'.explicitLog = t.explicitLog ∨ t.cfg.levels.l0 = true ∧ t'.explicitLog = false ∧
    (t.explicitLog = true → t.deferring ⊆ t'.hazards)
  hazards : t.hazards ⊆ t'.hazards

namespace Txn.Frame

variable {t t' t'' : Txn}

theorem refl (t : Txn) : t.Frame t :=
  ⟨rfl, List.forall₂_same.mpr fun a _ ↦ .refl a, .inl rfl, List.Subset.refl _⟩

theorem cfg (h : t.Frame t') : t'.cfg = t.cfg := by rw [h.eq]

theorem markers (h : t.Frame t') : t'.markers = t.markers := by
  rw [Txn.markers, Txn.markers, h.cfg]

theorem deferring (h : t.Frame t') (he : t'.explicitLog = t.explicitLog) :
    t'.deferring = t.deferring := by
  have hd : t'.hasDeletes = t.hasDeletes ∧
      t'.tables.any (·.wasRead) = t.tables.any (·.wasRead) := by
    rw [Txn.hasDeletes, Txn.hasDeletes]
    have hts := h.tables
    generalize t.tables = ts at hts
    generalize t'.tables = ts' at hts
    induction hts with
    | nil => exact ⟨rfl, rfl⟩
    | cons hab _ ih =>
      obtain ⟨ih₁, ih₂⟩ := ih
      rw [hab]
      exact ⟨by rw [List.any_cons, List.any_cons, ih₁]; rfl,
        by rw [List.any_cons, List.any_cons, ih₂]⟩
  rw [Txn.deferring, Txn.deferring, hd.1, hd.2, Txn.serializable, Txn.serializable, h.cfg, he]

theorem reopening (h : t.Frame t') (tbl : TableStats) : t'.reopening tbl ⊆ t.reopening tbl := by
  rw [Txn.reopening, Txn.reopening, Txn.serializable, Txn.serializable, h.cfg]
  rcases h.explicitLog with he | ⟨-, he, -⟩
  · rw [he]
    exact List.Subset.refl _
  · simp [he]

theorem trans (h : t.Frame t') (h' : t'.Frame t'') : t.Frame t'' where
  eq := by rw [h'.eq, h.eq]
  tables := h.tables.comp (fun h₁ h₂ ↦ h₁.trans h₂) h'.tables
  explicitLog := by
    rcases h'.explicitLog with he | ⟨hl, he, hd⟩
    · rw [he]
      exact h.explicitLog.imp_right fun ⟨h₁, h₂, h₃⟩ ↦
        ⟨h₁, h₂, fun ht ↦ List.Subset.trans (h₃ ht) h'.hazards⟩
    · refine .inr ⟨h.cfg ▸ hl, he, fun ht ↦ ?_⟩
      rcases h.explicitLog with he' | ⟨-, -, hd'⟩
      · exact h.deferring he' ▸ hd (he'.trans ht)
      · exact List.Subset.trans (hd' ht) h'.hazards
  hazards := List.Subset.trans h.hazards h'.hazards

end Txn.Frame

theorem Parsed.frame {p : Table} {vs : List ℕ} {t t' : Txn} (h : Parsed p vs t t') :
    t.Frame t' where
  eq := by rw [h.eq]; rfl
  tables := by
    rw [h.tables]
    exact List.forall₂_same.mpr fun a _ ↦ .refl a
  explicitLog := h.explicitLog
  hazards := h.hazards

theorem Aborted.frame {t t' : Txn} (h : Aborted t t') (hs : t'.sublog = t.sublog) : t.Frame t' where
  eq := by rw [h.eq, hs]
  tables := h.tables.imp fun _ _ h ↦ h.moved
  explicitLog := .inl (by rw [h.eq])
  hazards := by rw [h.eq]; exact List.Subset.refl _

/-- The transaction only learns more. -/
structure Txn.Grows (t t' : Txn) : Prop where
  cfg : t'.cfg = t.cfg
  prevMarkers : t.prevMarkers ⊆ t'.prevMarkers
  hazards : t.hazards ⊆ t'.hazards
  explicitLog : t'.explicitLog = true → t.explicitLog = true

namespace Txn.Grows

variable {t t' t'' : Txn}

theorem refl (t : Txn) : t.Grows t :=
  ⟨rfl, List.Subset.refl _, List.Subset.refl _, fun h ↦ h⟩

theorem trans (h : t.Grows t') (h' : t'.Grows t'') : t.Grows t'' :=
  ⟨h'.cfg.trans h.cfg, List.Subset.trans h.prevMarkers h'.prevMarkers,
    List.Subset.trans h.hazards h'.hazards,
    fun he ↦ h.explicitLog (h'.explicitLog he)⟩

theorem markers (h : t.Grows t') : t'.markers = t.markers := by
  rw [Txn.markers, Txn.markers, h.cfg]

end Txn.Grows

theorem Parsed.grows {p : Table} {vs : List ℕ} {t t' : Txn} (h : Parsed p vs t t') :
    t.Grows t' where
  cfg := h.cfg
  prevMarkers := h.prevMarkers ▸ List.subset_append_left _ _
  hazards := h.hazards
  explicitLog he := by
    rcases h.explicitLog with he' | ⟨-, he', -⟩
    · exact he'.symm.trans he
    · exact absurd he (by simp [he'])

theorem Aborted.grows {t t' : Txn} (h : Aborted t t') : t.Grows t' := by
  rw [h.eq]
  exact ⟨rfl, List.Subset.refl _, List.Subset.refl _, fun h ↦ h⟩

theorem Txn.Grows.modifyTable (t : Txn) (j : ℕ) (f : TableStats → TableStats) :
    t.Grows (t.modifyTable j f) :=
  ⟨rfl, List.Subset.refl _, List.Subset.refl _, fun h ↦ h⟩

/-- No commit runs: the snapshots end below the reserved versions, and nothing is written yet. -/
def Txn.Idle (t : Txn) : Prop :=
  ∀ tbl ∈ t.tables, tbl.committed = false ∧ ∀ u ∈ tbl.deltaLog.versions, u < tbl.markerVersion

/-- The transaction learns more by opening tables. -/
structure Txn.Reloads (t t' : Txn) : Prop extends t.Grows t' where
  idle : t.Idle → t'.Idle

namespace Txn.Reloads

variable {t t' t'' : Txn}

theorem refl (t : Txn) : t.Reloads t := ⟨.refl t, fun h ↦ h⟩

theorem trans (h : t.Reloads t') (h' : t'.Reloads t'') : t.Reloads t'' :=
  ⟨h.toGrows.trans h'.toGrows, fun hi ↦ h'.idle (h.idle hi)⟩

theorem of_tables (h : t.Grows t') (ht : t'.tables = t.tables) : t.Reloads t' :=
  ⟨h, fun hi tbl htbl ↦ hi tbl (ht ▸ htbl)⟩

theorem modifyTable {j : ℕ} {tbl tbl' : TableStats} (hj : t.tables[j]? = some tbl)
    (hc : tbl'.committed = tbl.committed)
    (h : ∀ u ∈ tbl'.deltaLog.versions, u < tbl'.markerVersion) :
    t.Reloads (t.modifyTable j fun _ ↦ tbl') where
  toGrows := .modifyTable t j _
  idle hi x hx := by
    rcases List.mem_modify hx with hx | ⟨_, _, rfl⟩
    · exact hi x hx
    · exact ⟨hc.trans (hi tbl (List.mem_of_getElem? hj)).1, h⟩

end Txn.Reloads

theorem Aborted.reloads {t t' : Txn} (h : Aborted t t') : t.Reloads t' where
  toGrows := h.grows
  idle hi x hx := by
    obtain ⟨y, hy, hxy⟩ := h.tables.exists_left hx
    rw [hxy.eq]
    exact hi y hy

/-! ## Snapshots -/

/-- The snapshot of a table that was just loaded. -/
structure Snapshot (t : Txn) (s : Store) (tbl : TableStats) : Prop where
  replays : Replays s tbl.basePath tbl.deltaLog
  versions : ∀ u ∈ tbl.deltaLog.versions, u < tbl.markerVersion
  base : t.hazards = [] → tbl.base = tbl.deltaLog.versions
  concurrent : tbl.concurrentRemoves = [] ∧ tbl.concurrentChange = false
  /-- a running marker would have deferred the operations -/
  explicit : t.cfg.levels.l0 = true → t.cfg.levels.l2 = false → t.explicitLog = true →
    ∀ u < tbl.markerVersion, u ∈ tbl.deltaLog.versions

theorem Snapshot.mono {t t' : Txn} {s s' : Store} {tbl : TableStats} (h : Snapshot t s tbl)
    (ht : t.Grows t') (hs : Later s s') : Snapshot t' s' tbl where
  replays := h.replays.mono hs
  versions := h.versions
  base hh := h.base (List.subset_nil.mp (hh ▸ ht.hazards))
  concurrent := h.concurrent
  explicit h₁ h₂ h₃ := h.explicit (ht.cfg ▸ h₁) (ht.cfg ▸ h₂) (ht.explicitLog h₃)

/-- What a table knows of the versions below the reserved one. -/
structure Tracks (P : Protocol TxnId Txn Response Store) (i : TxnId) (t : Txn) (s : Store)
    (tbl : TableStats) : Prop where
  fresh : t.markers = true → tbl.committed = false →
    ∃ mk, tbl.marker = some mk ∧ mk.valid = true ∧ mk.Open i s
  logged : ∀ u ∈ tbl.deltaLog.versions, ∃ as, s.log tbl.basePath u = some as
  below : ∀ u ∈ tbl.deltaLog.versions, u < tbl.markerVersion ∨ t.markers = false
  covered : ∀ u < tbl.markerVersion,
    Seen P t.markers s tbl.basePath tbl.deltaLog.versions t.prevMarkers u ∨
      s.log tbl.basePath u = some []
  checked : t.hazards = [] → ∀ u ∈ tbl.deltaLog.versions, u ∈ tbl.base ∨
    ∀ as, s.log tbl.basePath u = some as →
      Action.removed as ⊆ tbl.concurrentRemoves ∧ (as = [] ∨ tbl.concurrentChange = true)

theorem Tracks.mono {P : Protocol TxnId Txn Response Store} {i : TxnId} {t t' : Txn} {s s' : Store}
    {tbl : TableStats} (h : Tracks P i t s tbl) (ht : t.Grows t') (hs : QuietLater i s s') :
    Tracks P i t' s' tbl where
  fresh h₁ h₂ := by
    obtain ⟨mk, hmk, hv, ho⟩ := h.fresh (ht.markers ▸ h₁) h₂
    exact ⟨mk, hmk, hv, ho.mono hs⟩
  logged u hu := by
    obtain ⟨as, has⟩ := h.logged u hu
    exact ⟨as, hs.later.log_mono has⟩
  below u hu := (h.below u hu).imp_right fun hm ↦ ht.markers ▸ hm
  covered u hu := by
    rcases h.covered u hu with h' | h'
    · exact .inl (ht.markers ▸ h'.mono hs.later (List.Subset.refl _) ht.prevMarkers)
    · exact .inr (hs.later.log_mono h')
  checked h₁ u hu := by
    refine (h.checked (List.subset_nil.mp (h₁ ▸ ht.hazards)) u hu).imp_right fun hc as has ↦ ?_
    obtain ⟨as', has'⟩ := h.logged u hu
    obtain rfl : as' = as := Option.some.inj ((hs.later.log_mono has').symm.trans has)
    exact hc as' has'

/-- The remembered versions lie below the reserved version of a table that is opened; `ps` are
tables that are being opened, with their reserved versions. -/
structure Recalled (ps : List (Table × ℕ)) (t : Txn) : Prop where
  markers : t.prevMarkers ≠ [] → t.markers = true
  below : ∀ e ∈ t.prevMarkers, ∀ tbl ∈ t.tables, tbl.basePath = e.1 → e.2 < tbl.markerVersion
  below' : ∀ e ∈ t.prevMarkers, ∀ q ∈ ps, q.1 = e.1 → e.2 < q.2
  opened : ∀ e ∈ t.prevMarkers, e.1 ∈ t.tables.map (·.basePath) ++ ps.map (·.1)

/-- No table is opened twice. -/
def Txn.Distinct (t : Txn) : Prop := (t.tables.map (·.basePath)).Nodup

/-- No table is opened twice, also with those that are being opened. -/
def Txn.DistinctWith (ps : List (Table × ℕ)) (t : Txn) : Prop :=
  (t.tables.map (·.basePath) ++ ps.map (·.1)).Nodup

theorem Txn.DistinctWith.distinct {ps : List (Table × ℕ)} {t : Txn} (h : t.DistinctWith ps) :
    t.Distinct := List.Nodup.of_append_left h

theorem Txn.Distinct.index_eq {t : Txn} (h : t.Distinct) {j k : ℕ} {a b : TableStats}
    (hj : t.tables[j]? = some a) (hk : t.tables[k]? = some b) (hab : a.basePath = b.basePath) :
    j = k := by
  refine (List.getElem?_inj (i := j) ?_ h).mp ?_
  · have := (List.getElem?_eq_some_iff.mp hj).1
    simpa using this
  · rw [List.getElem?_map, List.getElem?_map, hj, hk, Option.map_some, Option.map_some, hab]

/-! ## Operations -/

/-- A predicate on the operations of client `i` that the protocol keeps. The flag says whether
deferred operations were executed. -/
structure Local (P : Protocol TxnId Txn Response Store) (i : TxnId)
    (L : Bool → Txn → Store → Prop) : Prop where
  later : ∀ {b t s s'}, L b t s → Later s s' → L b t s'
  frame : ∀ {b t t' s}, L b t s → t.Frame t' → L b t' s
  load : ∀ {b t s j tbl tbl'}, L b t s → t.tables[j]? = some tbl → t.reopening tbl ⊆ t.hazards →
    Snapshot t s tbl' →
    tbl' = { tbl with
      deltaLog := tbl'.deltaLog, marker := tbl'.marker, readVersion := tbl'.readVersion,
      markerVersion := tbl'.markerVersion, base := tbl'.base, concurrentRemoves := [],
      concurrentChange := false } →
    L b { t with tables := t.tables.modify j fun _ ↦ tbl' } s
  append : ∀ {t s tbl}, L false t s → Snapshot t s tbl →
    tbl = { ({ basePath := tbl.basePath } : TableStats) with
      deltaLog := tbl.deltaLog, marker := tbl.marker, readVersion := tbl.readVersion,
      markerVersion := tbl.markerVersion, base := tbl.base } →
    L false { t with tables := t.tables ++ [tbl] } s
  concurrent : ∀ {b t s p u c tbl}, L b t s → s.log p u = some c.actions →
    t.tables[t.tableOf p]? = some tbl → tbl.basePath = p → L b (t.applyConcurrent p u c) s

/-- Some tables are written, others are not yet. -/
def Txn.torn (t : Txn) : Bool := t.tables.any (·.committed) && t.tables.any (·.pending)

/-- A commit of client `i` that has written a table also writes the others. -/
def Firm (sem : Semantics TxnId Txn Response Store) (i : TxnId) : Prop :=
  ∀ m k s r s', sem i m k s r s' → k.isCommit = true → m.torn = true → k.succeeded r = true

/-- Assumptions on the steps of client `i` with configuration `c`: writes succeed, and the answers
about versions that a commit waits for are right. -/
structure Regular (sem : Semantics TxnId Txn Response Store) (i : TxnId) (c : Config) : Prop
    extends Reliable sem i where
  check : ∀ {m p v s r s'}, sem i m (.check (.version p v)) s r s' →
    c.levels.markers = false ∨ m.waiting = some (p, v) → r = (s'.get (.version p v)).isSome
  read : ∀ {m p v s r s'}, sem i m (.read (.version p v)) s r s' →
    c.levels.markers = false ∨ m.waiting = some (p, v) → r = s'.get (.version p v)
  firm : c.levels.l0 = true → Firm sem i

/-- The tables are distinct, and opening them again never failed. -/
structure Txn.Usable (t : Txn) : Prop where
  distinct : t.Distinct
  opened : .reopenFailed ∉ t.hazards

/-- A read finds the client's own commit. -/
def Rereads (sem : Semantics TxnId Txn Response Store) (i : TxnId) : Prop :=
  ∀ m p v s r s', sem i m (.read (.version p v)) s r s' → ∀ as, as ≠ [] → s'.Holds i p v as →
    r = s'.get (.version p v)

/-- The table up to its snapshot and its reserved version. -/
structure TableStats.Kept (a b : TableStats) : Prop where
  basePath : b.basePath = a.basePath
  committed : b.committed = a.committed
  actions : b.actions = a.actions

theorem TableStats.Kept.refl (a : TableStats) : a.Kept a := ⟨rfl, rfl, rfl⟩

/-- The commits of client `i` that have actions are those of the tables that it has written. -/
structure Owns (sem : Semantics TxnId Txn Response Store) (i : TxnId) (c : Config) (t : Txn)
    (s : Store) : Prop where
  own : Rereads sem i → c.levels.l0 = false ∨ Firm sem i → ∀ p v as, as ≠ [] → s.Holds i p v as →
    ∃ tbl ∈ t.tables, tbl.basePath = p ∧ tbl.committed = true
  written : c.levels.l0 = false ∨ Firm sem i → ∀ tbl ∈ t.tables, tbl.committed = true →
    tbl.actions ≠ [] → ∃ v, s.Holds i tbl.basePath v tbl.actions

namespace Owns

variable {sem : Semantics TxnId Txn Response Store} {i : TxnId} {c : Config} {t t' : Txn}
variable {s s' : Store}

theorem mono (h : Owns sem i c t s) (hs : QuietLater i s s') : Owns sem i c t s' where
  own hr hl p v as ha hv := h.own hr hl p v as ha (hs.holds_back ha hv)
  written hl tbl htbl hc ha :=
    have ⟨v, hv⟩ := h.written hl tbl htbl hc ha
    ⟨v, hs.later.holds_mono ha hv⟩

theorem tables (h : Owns sem i c t s) (ht : List.Forall₂ TableStats.Kept t.tables t'.tables) :
    Owns sem i c t' s where
  own hr hl p v as ha hv := by
    obtain ⟨a, haa, hp, hc⟩ := h.own hr hl p v as ha hv
    obtain ⟨b, hb, hab⟩ := ht.exists_right haa
    exact ⟨b, hb, hab.basePath.trans hp, hab.committed.trans hc⟩
  written hl b hb hc ha := by
    obtain ⟨a, haa, hab⟩ := ht.exists_left hb
    rw [hab.actions, hab.basePath]
    rw [hab.actions] at ha
    exact h.written hl a haa (hab.committed ▸ hc) ha

theorem same (h : Owns sem i c t s) (ht : t'.tables = t.tables) : Owns sem i c t' s :=
  ⟨ht ▸ h.own, ht ▸ h.written⟩

theorem modify (h : Owns sem i c t s) {j : ℕ} {f : TableStats → TableStats}
    (ht : t'.tables = t.tables.modify j f) (hf : ∀ a, t.tables[j]? = some a → a.Kept (f a)) :
    Owns sem i c t' s :=
  h.tables (ht ▸ List.forall₂_modify TableStats.Kept.refl hf)

end Owns

/-- What a transaction knows while the tables `js` still have to be loaded, and `ps` are being
opened. -/
structure Known (sem : Semantics TxnId Txn Response Store) (P : Protocol TxnId Txn Response Store)
    (i : TxnId) (c : Config) (L : Bool → Txn → Store → Prop) (b : Bool) (ps : List (Table × ℕ))
    (js : List ℕ) (t : Txn) (s : Store) : Prop where
  sound : Sound i t s
  cfg : t.cfg = c
  recalled : t.DistinctWith ps → Recalled ps t
  tracks : Regular sem i c → t.Usable → ∀ j tbl, t.tables[j]? = some tbl → j ∉ js →
    Tracks P i t s tbl
  locally : Regular sem i c → Truthful sem i → c.storageRetries ≠ 0 → t.Usable → L b t s
  opened : Truthful sem i → c.storageRetries ≠ 0 → .reopenFailed ∉ t.hazards
  owns : Owns sem i c t s

/-- What holds of a transaction that has not written a table, unless it may end without writing the
others. -/
structure Loading (sem : Semantics TxnId Txn Response Store) (P : Protocol TxnId Txn Response Store)
    (i : TxnId) (c : Config) (L : Bool → Txn → Store → Prop) (b : Bool) (ps : List (Table × ℕ))
    (js : List ℕ) (t : Txn) (s : Store) : Prop extends Known sem P i c L b ps js t s where
  uncommitted : Firm sem i → ∀ tbl ∈ t.tables, tbl.committed = false

/-- What holds of a transaction between the phases of the protocol. -/
abbrev Good (sem : Semantics TxnId Txn Response Store) (P : Protocol TxnId Txn Response Store)
    (i : TxnId) (c : Config) (L : Bool → Txn → Store → Prop) (b : Bool) (t : Txn) (s : Store) :
    Prop :=
  Loading sem P i c L b [] [] t s

theorem Loading.recalled' {sem : Semantics TxnId Txn Response Store}
    {P : Protocol TxnId Txn Response Store} {i : TxnId} {c : Config}
    {L : Bool → Txn → Store → Prop} {b : Bool} {t : Txn} {s : Store} (hg : Good sem P i c L b t s)
    (hd : t.Distinct) : Recalled [] t :=
  hg.recalled (by simpa [Txn.DistinctWith, Txn.Distinct] using hd)

/-! ### Frames -/

/-- The transaction up to data that only the connection to the global log uses. -/
def Txn.Aside (t t' : Txn) : Prop :=
  t' = { t with
    relation := t'.relation, localLog := t'.localLog, globalLockToken := t'.globalLockToken,
    nextToken := t'.nextToken, waiting := t'.waiting, decided := t'.decided }

theorem Txn.Aside.grows {t t' : Txn} (h : t.Aside t') : t.Grows t' := by
  rw [h]
  exact ⟨rfl, List.Subset.refl _, List.Subset.refl _, fun h ↦ h⟩

theorem Txn.Aside.frame {t t' : Txn} (h : t.Aside t') : t.Frame t' := by
  rw [h]
  exact ⟨rfl, List.forall₂_same.mpr fun a _ ↦ .refl a, .inl rfl, List.Subset.refl _⟩

theorem Known.mono {sem : Semantics TxnId Txn Response Store}
    {P : Protocol TxnId Txn Response Store} {i : TxnId} {c : Config} {L : Bool → Txn → Store → Prop}
    {b : Bool} {ps : List (Table × ℕ)} {js : List ℕ} {t : Txn} {s s' : Store} (hL : Local P i L)
    (hg : Known sem P i c L b ps js t s) (hs : QuietLater i s s') :
    Known sem P i c L b ps js t s' where
  sound := hg.sound.mono hs.later
  cfg := hg.cfg
  recalled := hg.recalled
  tracks hr hu j tbl hj hn :=
    (hg.tracks hr hu j tbl hj hn).mono (.refl t) hs
  locally hr htr hn hu := hL.later (hg.locally hr htr hn hu) hs.later
  opened := hg.opened
  owns := hg.owns.mono hs

namespace Loading

variable {sem : Semantics TxnId Txn Response Store} {P : Protocol TxnId Txn Response Store}
variable {i : TxnId} {c : Config} {L : Bool → Txn → Store → Prop} {b : Bool}
variable {ps : List (Table × ℕ)} {js : List ℕ} {t t' : Txn} {s s' : Store}

theorem mono (hL : Local P i L) (hg : Loading sem P i c L b ps js t s) (hs : QuietLater i s s') :
    Loading sem P i c L b ps js t s' :=
  ⟨hg.toKnown.mono hL hs, hg.uncommitted⟩

/-- Everything has to be loaded again. -/
theorem all (hg : Loading sem P i c L b ps js t s) :
    Loading sem P i c L b ps (List.range t.tables.length) t s where
  sound := hg.sound
  cfg := hg.cfg
  recalled := hg.recalled
  uncommitted := hg.uncommitted
  tracks hr hu j tbl hj hn := by
    have := (List.getElem?_eq_some_iff.mp hj).1
    exact absurd (List.mem_range.mpr this) hn
  locally := hg.locally
  opened := hg.opened
  owns := hg.owns

theorem aside (hL : Local P i L) (hg : Loading sem P i c L b ps js t s) (ha : t.Aside t')
    (hl : ∀ e ∈ t'.localLog, s.Exists e.1 e.2) : Loading sem P i c L b ps js t' s := by
  have hf := ha.frame
  have hgr := ha.grows
  rw [ha] at hf hgr ⊢
  exact
    { sound := ⟨hg.sound.id, hg.sound.tables, hl, hg.sound.prevMarkers⟩
      cfg := hg.cfg
      recalled := fun hd ↦
        have hr := hg.recalled hd
        ⟨hr.markers, hr.below, hr.below', hr.opened⟩
      uncommitted := hg.uncommitted
      tracks := fun hr hu j tbl hj hn ↦ (hg.tracks hr ⟨hu.distinct, hu.opened⟩ j tbl hj hn).mono
        hgr .refl
      locally := fun hr htr hn hu ↦
        hL.frame (hg.locally hr htr hn ⟨hu.distinct, hu.opened⟩) hf
      opened := hg.opened
      owns := hg.owns.same rfl }

end Loading

end LakeVilla

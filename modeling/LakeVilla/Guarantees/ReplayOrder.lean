import LakeVilla.Checkpoint.Replay
import Mathlib.Data.Finset.Max

/-!
# The order in which actions are parsed

Versions and checkpoint are parsed by several threads. Whatever the order in which the add and
remove actions are registered, the live files are the same: those whose newest version adds them and
does not remove them.

The entry of a removed file is the newest remove, but without a size it takes size and partition
values from the entry that it finds: this does depend on the order.
-/

namespace LakeVilla.Checkpoint

/-- An add or remove action: its path and its entry. -/
abbrev FileAction := DataFile × FileEntry

/-- `register_action` for one action after the other -/
def DeltaLogManager.registerActions (m : DeltaLogManager) (actions : List FileAction) :
    DeltaLogManager := actions.foldl (fun m a ↦ m.registerAction a.1 a.2) m

/-- All actions add or remove. -/
def AddsAndRemoves (actions : List FileAction) : Prop :=
  ∀ a ∈ actions, a.2.operation = .add ∨ a.2.operation = .delete

instance (actions : List FileAction) : Decidable (AddsAndRemoves actions) :=
  inferInstanceAs (Decidable (∀ a ∈ actions, _))

/-- Every version has at most one action of a kind for every path. -/
def OncePerVersion (operation : DLOperation) (actions : List FileAction) : Prop :=
  ∀ path version, (actions.filter fun a ↦
    a.1 = path ∧ a.2.version = version ∧ a.2.operation = operation).length ≤ 1

/-! ## The entry of a path -/

section Entry

variable {actions : List FileAction} {path : DataFile} {current entry e r : FileEntry}

/-- A remove as it is registered: without a size it may take size and partition values of an add. -/
inductive Completes (actions : List FileAction) (path : DataFile) (r : FileEntry) :
    FileEntry → Prop
  | same : Completes actions path r r
  | ofAdd {a : FileEntry} : (path, a) ∈ actions → a.operation = .add → r.size < 0 →
      Completes actions path r { r with size := a.size, partitionValues := a.partitionValues }

/-- The entry after some actions. -/
structure Newest (actions : List FileAction) (path : DataFile) (e : FileEntry) : Prop where
  max : ∀ a ∈ actions, a.1 = path → a.2.version ≤ e.version
  add : e.operation = .add → (path, e) ∈ actions ∧
    ∀ a ∈ actions, a.1 = path → a.2.version = e.version → a.2.operation = .add
  delete : e.operation ≠ .add → ∃ r, (path, r) ∈ actions ∧ r.operation = .delete ∧
    r.version = e.version ∧ Completes actions path r e

theorem Completes.mono {actions' : List FileAction} (h : Completes actions path r e)
    (hsub : ∀ a ∈ actions, a ∈ actions') : Completes actions' path r e := by
  cases h with
  | same => exact .same
  | ofAdd ha hadd hsize => exact .ofAdd (hsub _ ha) hadd hsize

/-- Actions of other files change nothing. -/
theorem Newest.append_other {a : FileAction} (h : Newest actions path e) (ha : a.1 ≠ path) :
    Newest (actions ++ [a]) path e := by
  have hmem : ∀ b ∈ actions ++ [a], b.1 = path → b ∈ actions := by
    intro b hb hpath
    refine (List.mem_append.mp hb).resolve_right fun hb ↦ ha ?_
    rw [← List.mem_singleton.mp hb, hpath]
  refine ⟨fun b hb hpath ↦ h.max b (hmem b hb hpath) hpath, fun hadd ↦ ?_, fun hdel ↦ ?_⟩
  · obtain ⟨he, hall⟩ := h.add hadd
    exact ⟨List.mem_append_left _ he, fun b hb hpath ↦ hall b (hmem b hb hpath) hpath⟩
  · obtain ⟨r, hr, hop, hversion, hcompletes⟩ := h.delete hdel
    exact ⟨r, List.mem_append_left _ hr, hop, hversion,
      hcompletes.mono fun b hb ↦ List.mem_append_left _ hb⟩

/-- The first action of a file is its entry. -/
theorem Newest.first (hnone : ∀ a ∈ actions, a.1 ≠ path)
    (he : e.operation = .add ∨ e.operation = .delete) : Newest (actions ++ [(path, e)]) path e := by
  have hmem : ∀ b ∈ actions ++ [(path, e)], b.1 = path → b = (path, e) := by
    intro b hb hpath
    exact List.mem_singleton.mp ((List.mem_append.mp hb).resolve_left fun hb ↦ hnone b hb hpath)
  have hself : (path, e) ∈ actions ++ [(path, e)] :=
    List.mem_append_right _ (List.mem_singleton_self _)
  refine ⟨fun b hb hpath ↦ ?_, fun hadd ↦ ⟨hself, fun b hb hpath _ ↦ ?_⟩, fun hne ↦ ?_⟩
  · exact (congrArg (·.2.version) (hmem b hb hpath)).le
  · rw [hmem b hb hpath]
    exact hadd
  · exact ⟨e, hself, he.resolve_left hne, rfl, .same⟩

/-- What the merge of two actions does to the entry of a file. -/
theorem Newest.merge (h : Newest actions path current)
    (he : e.operation = .add ∨ e.operation = .delete) :
    Newest (actions ++ [(path, e)]) path (current.mergeAction e) := by
  have hself : (path, e) ∈ actions ++ [(path, e)] :=
    List.mem_append_right _ (List.mem_singleton_self _)
  have hcases : ∀ b ∈ actions ++ [(path, e)], b ∈ actions ∨ b = (path, e) := fun b hb ↦
    (List.mem_append.mp hb).imp_right List.mem_singleton.mp
  unfold FileEntry.mergeAction
  split_ifs with hold hkeep
  · -- the current entry stays
    have hle : e.version ≤ current.version := by
      rcases hold with h | h
      · exact h.le
      · exact h.1.le
    refine ⟨fun b hb hpath ↦ ?_, fun hadd ↦ ?_, fun hne ↦ ?_⟩
    · rcases hcases b hb with hb | rfl
      · exact h.max b hb hpath
      · exact hle
    · obtain ⟨hmem, hall⟩ := h.add hadd
      refine ⟨List.mem_append_left _ hmem, fun b hb hpath hversion ↦ ?_⟩
      rcases hcases b hb with hb | rfl
      · exact hall b hb hpath hversion
      · rcases hold with h | ⟨-, h | h⟩
        · exact absurd hversion h.ne
        · cases hadd.symm.trans h
        · exact he.resolve_right h
    · obtain ⟨r, hr, hop, hversion, hcompletes⟩ := h.delete hne
      exact ⟨r, List.mem_append_left _ hr, hop, hversion,
        hcompletes.mono fun b hb ↦ List.mem_append_left _ hb⟩
  all_goals
    have hle : current.version ≤ e.version := not_lt.mp fun h ↦ hold (.inl h)
    have hmax : ∀ b ∈ actions ++ [(path, e)], b.1 = path → b.2.version ≤ e.version := by
      intro b hb hpath
      rcases hcases b hb with hb | rfl
      · exact (h.max b hb hpath).trans hle
      · exact le_rfl
  · -- a remove takes size and partition values of an add
    obtain ⟨hdelete, hsize, hadd⟩ := hkeep
    refine ⟨hmax, fun hadd ↦ ?_, fun _ ↦ ⟨e, hself, hdelete, rfl, ?_⟩⟩
    · cases hdelete.symm.trans hadd
    · exact .ofAdd (List.mem_append_left _ (h.add hadd).1) hadd hsize
  · refine ⟨hmax, fun hadd ↦ ⟨hself, fun b hb hpath hversion ↦ ?_⟩, fun hne ↦ ?_⟩
    · rcases hcases b hb with hb | rfl
      · -- an add replaces older entries only
        refine absurd (h.max b hb hpath) (not_le.mpr ?_)
        rw [hversion]
        refine lt_of_le_of_ne hle fun heq ↦ hold (.inr ⟨heq.symm, .inr ?_⟩)
        rw [hadd]
        decide
      · exact hadd
    · exact ⟨e, hself, he.resolve_left hne, rfl, .same⟩

end Entry

namespace DeltaLogManager

theorem lookup_registerAction (m : DeltaLogManager) (path path' : DataFile) (entry : FileEntry) :
    (m.registerAction path' entry).files.lookup path =
      if path = path' then
        some (match m.files.lookup path' with
          | some current => current.mergeAction entry
          | none => entry)
      else m.files.lookup path := AssocList.lookup_insertOrAssign _ _ _ _

/-- After some actions every file has its newest entry, and other files have none. -/
theorem lookup_registerActions {actions : List FileAction} (hop : AddsAndRemoves actions)
    (path : DataFile) :
    match (registerActions {} actions).files.lookup path with
    | none => ∀ a ∈ actions, a.1 ≠ path
    | some e => Newest actions path e := by
  induction actions using List.reverseRecOn with
  | nil => exact fun _ h ↦ nomatch h
  | append_singleton actions a ih =>
    have ih := ih fun b hb ↦ hop b (List.mem_append_left _ hb)
    have ha := hop a (List.mem_append_right _ (List.mem_singleton_self a))
    obtain ⟨path', e⟩ := a
    have hrun : (registerActions {} (actions ++ [(path', e)])) =
        (registerActions {} actions).registerAction path' e := List.foldl_append ..
    rw [hrun, lookup_registerAction]
    by_cases hpath : path = path'
    · subst hpath
      rw [if_pos rfl]
      cases hlookup : (registerActions {} actions).files.lookup path with
      | none =>
        rw [hlookup] at ih
        exact Newest.first ih ha
      | some current =>
        rw [hlookup] at ih
        exact ih.merge ha
    · rw [if_neg hpath]
      cases hlookup : (registerActions {} actions).files.lookup path with
      | none =>
        rw [hlookup] at ih
        intro b hb
        rcases List.mem_append.mp hb with hb | hb
        · exact ih b hb
        · rw [List.mem_singleton.mp hb]
          exact Ne.symm hpath
      | some current =>
        rw [hlookup] at ih
        exact ih.append_other (Ne.symm hpath)

end DeltaLogManager

/-! ## Live files -/

theorem eq_of_length_le_one {α : Type} {l : List α} {x y : α} (h : l.length ≤ 1) (hx : x ∈ l)
    (hy : y ∈ l) : x = y := by
  rcases l with _ | ⟨z, _ | ⟨w, l⟩⟩
  · cases hx
  · exact (List.mem_singleton.mp hx).trans (List.mem_singleton.mp hy).symm
  · simp at h

theorem OncePerVersion.eq {operation : DLOperation} {actions : List FileAction} {path : DataFile}
    {a b : FileEntry} (h : OncePerVersion operation actions) (ha : (path, a) ∈ actions)
    (hb : (path, b) ∈ actions) (ha' : a.operation = operation) (hb' : b.operation = operation)
    (hversion : a.version = b.version) : a = b := by
  have hsame : (path, a) = (path, b) := by
    apply eq_of_length_le_one (h path b.version)
    · exact List.mem_filter.mpr ⟨ha, decide_eq_true ⟨rfl, hversion, ha'⟩⟩
    · exact List.mem_filter.mpr ⟨hb, decide_eq_true ⟨rfl, rfl, hb'⟩⟩
  exact (Prod.mk.inj hsame).2

/-- A file is live with this entry: an add of its newest version, which has no remove. -/
structure NewestAdds (actions : List FileAction) (path : DataFile) (e : FileEntry) : Prop where
  mem : (path, e) ∈ actions
  add : e.operation = .add
  max : ∀ a ∈ actions, a.1 = path → a.2.version ≤ e.version
  noRemove : ∀ a ∈ actions, a.1 = path → a.2.version = e.version → a.2.operation ≠ .delete

/-- **Replay.** Whatever the order in which the actions of a log are registered, the live files are
those whose newest version has an add and no remove, and their entries are these adds. -/
theorem replay_order_independent {actions actions' : List FileAction} (hop : AddsAndRemoves actions)
    (honce : OncePerVersion .add actions) (hperm : actions'.Perm actions) (path : DataFile)
    (e : FileEntry) :
    ((DeltaLogManager.registerActions {} actions').files.lookup path = some e ∧
        e.operation = .add) ↔ NewestAdds actions path e := by
  have hop' : AddsAndRemoves actions' := fun a ha ↦ hop a (hperm.mem_iff.mp ha)
  have hnewest := DeltaLogManager.lookup_registerActions hop' path
  constructor
  · rintro ⟨hlookup, hadd⟩
    rw [hlookup] at hnewest
    obtain ⟨hmem, hall⟩ := hnewest.add hadd
    refine ⟨hperm.mem_iff.mp hmem, hadd, fun a ha hpath ↦ ?_, fun a ha hpath hversion ↦ ?_⟩
    · exact hnewest.max a (hperm.mem_iff.mpr ha) hpath
    · rw [hall a (hperm.mem_iff.mpr ha) hpath hversion]
      decide
  · intro h
    have hmem := hperm.mem_iff.mpr h.mem
    cases hlookup : (DeltaLogManager.registerActions {} actions').files.lookup path with
    | none =>
      rw [hlookup] at hnewest
      exact absurd rfl (hnewest _ hmem)
    | some e' =>
      rw [hlookup] at hnewest
      have hle := hnewest.max _ hmem rfl
      -- the entry is no remove: it would have the version of the add
      have hadd : e'.operation = .add := by
        by_contra hne
        obtain ⟨r, hr, hdelete, hversion, -⟩ := hnewest.delete hne
        have hr' := hperm.mem_iff.mp hr
        refine h.noRemove _ hr' rfl ?_ hdelete
        exact le_antisymm (h.max _ hr' rfl) (hversion ▸ hle)
      have hmem' := hperm.mem_iff.mp (hnewest.add hadd).1
      have hversion : e'.version = e.version := le_antisymm (h.max _ hmem' rfl) hle
      obtain rfl := honce.eq hmem' h.mem hadd h.add hversion
      exact ⟨rfl, hadd⟩

/-! ## Tombstones -/

namespace DeltaLogManager

/-- `get_tombstones`, with the fields that a checkpoint takes -/
def tombstones (m : DeltaLogManager) : List CheckpointRemove :=
  m.files.filterMap fun e ↦
    if e.2.operation = .delete then
      some ⟨e.1, e.2.deletionTimestamp, e.2.size, e.2.partitionValues⟩
    else none

theorem nodup_registerActions {m : DeltaLogManager} (h : (m.files.map (·.1)).Nodup)
    (actions : List FileAction) : ((m.registerActions actions).files.map (·.1)).Nodup := by
  induction actions generalizing m with
  | nil => exact h
  | cons a actions ih => exact ih (AssocList.nodup_insertOrAssign h _ _)

theorem mem_tombstones {m : DeltaLogManager} (h : (m.files.map (·.1)).Nodup)
    {t : CheckpointRemove} : t ∈ m.tombstones ↔ ∃ e, m.files.lookup t.path = some e ∧
      e.operation = .delete ∧ t = ⟨t.path, e.deletionTimestamp, e.size, e.partitionValues⟩ := by
  simp only [tombstones, List.mem_filterMap]
  constructor
  · rintro ⟨⟨path, e⟩, hmem, ht⟩
    split_ifs at ht with hdelete
    obtain rfl := Option.some.inj ht
    exact ⟨e, AssocList.lookup_of_mem h hmem, hdelete, rfl⟩
  · rintro ⟨e, hlookup, hdelete, ht⟩
    refine ⟨(t.path, e), AssocList.mem_of_lookup hlookup, ?_⟩
    rw [if_pos hdelete]
    exact congrArg some ht.symm

/-- A remove of the newest version stays. -/
theorem lookup_registerActions_of_delete {m : DeltaLogManager} {path : DataFile} {e : FileEntry}
    {actions : List FileAction} (h : m.files.lookup path = some e) (hdelete : e.operation = .delete)
    (hle : ∀ a ∈ actions, a.1 = path → a.2.version ≤ e.version) :
    (m.registerActions actions).files.lookup path = some e := by
  induction actions generalizing m with
  | nil => exact h
  | cons a actions ih =>
    refine ih ?_ fun b hb ↦ hle b (List.mem_cons_of_mem _ hb)
    rw [lookup_registerAction]
    split_ifs with hpath
    · subst hpath
      have hversion := hle a List.mem_cons_self rfl
      simp only [h, FileEntry.mergeAction]
      rw [if_pos]
      rcases hversion.lt_or_eq with hlt | heq
      · exact .inl hlt
      · exact .inr ⟨heq, .inl hdelete⟩
    · exact h

end DeltaLogManager

/-- The newest version of a file removes it, by the remove `r`. -/
structure NewestRemove (actions : List FileAction) (path : DataFile) (r : FileEntry) : Prop where
  mem : (path, r) ∈ actions
  delete : r.operation = .delete
  max : ∀ a ∈ actions, a.1 = path → a.2.version ≤ r.version

/-- The newest add of a file. -/
structure NewestAdd (actions : List FileAction) (path : DataFile) (a : FileEntry) : Prop where
  mem : (path, a) ∈ actions
  add : a.operation = .add
  max : ∀ b ∈ actions, b.1 = path → b.2.operation = .add → b.2.version ≤ a.version

/-- The action that size and partition values of a removed file come from: the remove if it has a
size, else the newest add before it, if there is one. -/
def SizeFrom (actions : List FileAction) (path : DataFile) (r s : FileEntry) : Prop :=
  if 0 ≤ r.size then s = r
  else NewestAdd actions path s ∨ (¬∃ a, NewestAdd actions path a) ∧ s = r

/-- What `get_tombstones` is to return. -/
def IsTombstone (actions : List FileAction) (t : CheckpointRemove) : Prop :=
  ∃ r s, NewestRemove actions t.path r ∧ SizeFrom actions t.path r s ∧
    t = ⟨t.path, r.deletionTimestamp, s.size, s.partitionValues⟩

/-- Newest removes without a size have nothing to take from the adds. -/
def NothingToTake (actions : List FileAction) : Prop :=
  ∀ path r, NewestRemove actions path r → r.size < 0 → ∀ a, (path, a) ∈ actions →
    a.operation = .add → a.size = r.size ∧ a.partitionValues = r.partitionValues

section Tombstones

variable {actions : List FileAction} {path : DataFile} {r s e : FileEntry}

theorem exists_sizeFrom (actions : List FileAction) (path : DataFile) (r : FileEntry) :
    ∃ s, SizeFrom actions path r s := by
  unfold SizeFrom
  split
  · exact ⟨r, rfl⟩
  · by_cases h : ∃ a, NewestAdd actions path a
    · obtain ⟨a, ha⟩ := h
      exact ⟨a, .inl ha⟩
    · exact ⟨r, .inr ⟨h, rfl⟩⟩

/-- Then size and partition values are those of the remove, wherever they are looked up. -/
theorem NothingToTake.sizeFrom (h : NothingToTake actions) (hr : NewestRemove actions path r)
    (hs : SizeFrom actions path r s) : s.size = r.size ∧ s.partitionValues = r.partitionValues := by
  unfold SizeFrom at hs
  split at hs
  · rw [hs]
    exact ⟨rfl, rfl⟩
  · next hsize =>
    rcases hs with hs | ⟨-, rfl⟩
    · exact h path r hr (not_le.mp hsize) s hs.mem hs.add
    · exact ⟨rfl, rfl⟩

theorem NothingToTake.completes (h : NothingToTake actions) (hr : NewestRemove actions path r)
    (he : Completes actions path r e) : e = r := by
  cases he with
  | same => rfl
  | ofAdd ha hadd hsize =>
    obtain ⟨hsize', hvalues⟩ := h path r hr hsize _ ha hadd
    rw [hsize', hvalues]

/-- The tombstone after the remove came first, and after an add came first. -/
theorem lookup_remove_first {rest : List FileAction}
    (hr : NewestRemove ((path, r) :: rest) path r) :
    (DeltaLogManager.registerActions {} ((path, r) :: rest)).files.lookup path = some r := by
  refine DeltaLogManager.lookup_registerActions_of_delete (m := ({} : DeltaLogManager).registerAction
    path r) ?_ hr.delete fun a ha ↦ hr.max a (List.mem_cons_of_mem _ ha)
  rw [DeltaLogManager.lookup_registerAction, if_pos rfl]
  rfl

theorem lookup_add_first {rest : List FileAction} {a : FileEntry} (hadd : a.operation = .add)
    (hsize : r.size < 0) (hr : NewestRemove ((path, a) :: (path, r) :: rest) path r) :
    (DeltaLogManager.registerActions {} ((path, a) :: (path, r) :: rest)).files.lookup path =
      some { r with size := a.size, partitionValues := a.partitionValues } := by
  have hle : a.version ≤ r.version := hr.max _ List.mem_cons_self rfl
  have hmerge : a.mergeAction r =
      { r with size := a.size, partitionValues := a.partitionValues } := by
    unfold FileEntry.mergeAction
    rw [if_neg, if_pos ⟨hr.delete, hsize, hadd⟩]
    rintro (h | ⟨-, h | h⟩)
    · exact absurd h (not_lt.mpr hle)
    · cases hadd.symm.trans h
    · exact h hr.delete
  refine DeltaLogManager.lookup_registerActions_of_delete
    (m := (({} : DeltaLogManager).registerAction path a).registerAction path r) ?_ hr.delete
    fun b hb ↦ hr.max b (List.mem_cons_of_mem _ (List.mem_cons_of_mem _ hb))
  rw [DeltaLogManager.lookup_registerAction, if_pos rfl, DeltaLogManager.lookup_registerAction,
    if_pos rfl]
  exact congrArg some hmerge

theorem NewestRemove.perm {actions' : List FileAction} (h : NewestRemove actions path r)
    (hperm : actions'.Perm actions) : NewestRemove actions' path r :=
  ⟨hperm.mem_iff.mpr h.mem, h.delete, fun a ha ↦ h.max a (hperm.mem_iff.mp ha)⟩

/-- Registered in any order, the actions leave the remove, up to what it takes from an add. -/
theorem lookup_newestRemove {actions' : List FileAction} (hop : AddsAndRemoves actions)
    (honce : OncePerVersion .delete actions) (hperm : actions'.Perm actions)
    (hr : NewestRemove actions path r) :
    ∃ e, (DeltaLogManager.registerActions {} actions').files.lookup path = some e ∧
      e.operation = .delete ∧ Completes actions path r e := by
  have hop' : AddsAndRemoves actions' := fun a ha ↦ hop a (hperm.mem_iff.mp ha)
  have hnewest := DeltaLogManager.lookup_registerActions hop' path
  have hmem := hperm.mem_iff.mpr hr.mem
  cases hlookup : (DeltaLogManager.registerActions {} actions').files.lookup path with
  | none =>
    rw [hlookup] at hnewest
    exact absurd rfl (hnewest _ hmem)
  | some e =>
    rw [hlookup] at hnewest
    have hle := hnewest.max _ hmem rfl
    have hne : e.operation ≠ .add := by
      intro hadd
      obtain ⟨he, hall⟩ := hnewest.add hadd
      have hversion := le_antisymm hle (hr.max _ (hperm.mem_iff.mp he) rfl)
      cases (hall _ hmem rfl hversion).symm.trans hr.delete
    obtain ⟨r', hr', hdelete, hversion, hcompletes⟩ := hnewest.delete hne
    have hr'' := hperm.mem_iff.mp hr'
    have hsame : r'.version = r.version :=
      le_antisymm (hr.max _ hr'' rfl) (hversion ▸ hle)
    obtain rfl := honce.eq hr'' hr.mem hdelete hr.delete hsame
    refine ⟨e, rfl, ?_, hcompletes.mono fun a ha ↦ hperm.mem_iff.mp ha⟩
    cases hcompletes with
    | same => exact hdelete
    | ofAdd => exact hdelete

end Tombstones

/-- **Tombstones.** They are the same whatever the order in which the actions are registered, if and
only if no newest remove without a size has anything to take from an add. -/
theorem tombstones_order_independent_iff {actions : List FileAction} (hop : AddsAndRemoves actions)
    (hremoves : OncePerVersion .delete actions) :
    (∀ actions' : List FileAction, actions'.Perm actions →
        ∀ t, t ∈ (DeltaLogManager.registerActions {} actions').tombstones ↔
          IsTombstone actions t) ↔
      NothingToTake actions := by
  have hmem : ∀ (actions' : List FileAction) (t : CheckpointRemove),
      t ∈ (DeltaLogManager.registerActions {} actions').tombstones ↔
        ∃ e, (DeltaLogManager.registerActions {} actions').files.lookup t.path = some e ∧
          e.operation = .delete ∧ t = ⟨t.path, e.deletionTimestamp, e.size, e.partitionValues⟩ :=
    fun actions' t ↦ DeltaLogManager.mem_tombstones
      (DeltaLogManager.nodup_registerActions (m := {}) List.nodup_nil actions')
  constructor
  · intro h path r hr hsize a ha hadd
    have hne : (path, a) ≠ (path, r) := by
      rintro heq
      obtain rfl := (Prod.mk.inj heq).2
      cases hadd.symm.trans hr.delete
    -- the remove first, and the add and then the remove first
    have hfirst : ((path, r) :: actions.erase (path, r)).Perm actions :=
      (List.perm_cons_erase hr.mem).symm
    have hrest : ((path, r) :: (actions.erase (path, a)).erase (path, r)).Perm
        (actions.erase (path, a)) :=
      (List.perm_cons_erase ((List.mem_erase_of_ne hne.symm).mpr hr.mem)).symm
    have hsecond : ((path, a) :: (path, r) :: (actions.erase (path, a)).erase (path, r)).Perm
        actions := (hrest.cons _).trans (List.perm_cons_erase ha).symm
    have hremove := lookup_remove_first (hr.perm hfirst)
    have hadd' := lookup_add_first hadd hsize (hr.perm hsecond)
    have htomb := (h _ hfirst ⟨path, r.deletionTimestamp, r.size, r.partitionValues⟩).mp
      ((hmem _ _).mpr ⟨r, hremove, hr.delete, rfl⟩)
    obtain ⟨e, he, -, ht⟩ := (hmem _ _).mp ((h _ hsecond _).mpr htomb)
    obtain rfl := Option.some.inj (hadd'.symm.trans he)
    simp only [CheckpointRemove.mk.injEq, true_and] at ht
    exact ⟨ht.1.symm, ht.2.symm⟩
  · intro h actions' hperm t
    rw [hmem]
    constructor
    · rintro ⟨e, he, hdelete, ht⟩
      have hop' : AddsAndRemoves actions' := fun a ha ↦ hop a (hperm.mem_iff.mp ha)
      have hnewest := DeltaLogManager.lookup_registerActions hop' t.path
      rw [he] at hnewest
      obtain ⟨r, hr, hr₀, hversion, hcompletes⟩ := hnewest.delete (by rw [hdelete]; decide)
      have hr' : NewestRemove actions t.path r :=
        ⟨hperm.mem_iff.mp hr, hr₀, fun a ha hpath ↦
          hversion ▸ hnewest.max a (hperm.mem_iff.mpr ha) hpath⟩
      obtain rfl := h.completes hr' (hcompletes.mono fun a ha ↦ hperm.mem_iff.mp ha)
      obtain ⟨s, hs⟩ := exists_sizeFrom actions t.path e
      obtain ⟨hsize, hvalues⟩ := h.sizeFrom hr' hs
      refine ⟨e, s, hr', hs, ?_⟩
      rw [hsize, hvalues]
      exact ht
    · rintro ⟨r, s, hr, hs, ht⟩
      obtain ⟨e, he, hdelete, hcompletes⟩ := lookup_newestRemove hop hremoves hperm hr
      obtain rfl := h.completes hr hcompletes
      obtain ⟨hsize, hvalues⟩ := h.sizeFrom hr hs
      rw [hsize, hvalues] at ht
      exact ⟨e, he, hdelete, ht⟩

/-! ## Sample logs -/

theorem oncePerVersion_of_nodup {actions : List FileAction} (operation : DLOperation)
    (h : (actions.map fun a ↦ (a.1, a.2.version, a.2.operation)).Nodup) :
    OncePerVersion operation actions := by
  intro path version
  have hsub := h.sublist
    ((List.filter_sublist (p := fun a : FileAction ↦
      a.1 = path ∧ a.2.version = version ∧ a.2.operation = operation) (l := actions)).map _)
  have hall : ∀ a ∈ actions.filter fun a ↦
      a.1 = path ∧ a.2.version = version ∧ a.2.operation = operation,
      (a.1, a.2.version, a.2.operation) = (path, version, operation) := by
    intro a ha
    obtain ⟨hpath, hversion, hop⟩ := of_decide_eq_true (List.mem_filter.mp ha).2
    rw [hpath, hversion, hop]
  generalize (actions.filter fun a ↦
    a.1 = path ∧ a.2.version = version ∧ a.2.operation = operation) = l at hsub hall ⊢
  rcases l with _ | ⟨a, _ | ⟨b, l⟩⟩
  · exact Nat.zero_le 1
  · exact le_rfl
  · have hab := (hall a List.mem_cons_self).trans
      (hall b (List.mem_cons_of_mem _ List.mem_cons_self)).symm
    rw [List.map_cons, List.map_cons, List.nodup_cons, hab] at hsub
    exact absurd List.mem_cons_self hsub.1

def addOf (version size : ℤ) : FileEntry := { operation := .add, size, version }

def removeOf (version size : ℤ) : FileEntry := { operation := .delete, size, version }

/-- A file that is added, removed and added again. -/
def restored : List FileAction :=
  [(sampleFile 0, addOf 1 5), (sampleFile 0, removeOf 2 5), (sampleFile 0, addOf 3 7)]

theorem replay_order_independent_sample :
    (DeltaLogManager.registerActions {} restored.reverse).files.lookup (sampleFile 0) =
        some (addOf 3 7) ∧ (addOf 3 7).operation = .add :=
  (replay_order_independent (by decide) (oncePerVersion_of_nodup .add (by decide))
    (List.reverse_perm _) (sampleFile 0) (addOf 3 7)).mpr
    ⟨by decide, rfl, by decide, by decide⟩

/-- A file that is added with a size and then removed without one. -/
def removed : List FileAction := [(sampleFile 0, addOf 1 5), (sampleFile 0, removeOf 2 (-1))]

/-- In the order of the versions the tombstone takes the size of the add, in the other order it has
none. -/
theorem tombstone_loses_size :
    ¬∀ actions' : List FileAction, actions'.Perm removed → ∀ t,
      t ∈ (DeltaLogManager.registerActions {} actions').tombstones ↔ IsTombstone removed t := by
  intro h
  have hforward := h removed (List.Perm.refl _) ⟨sampleFile 0, 0, -1, none⟩
  have hbackward := h removed.reverse (List.reverse_perm _) ⟨sampleFile 0, 0, -1, none⟩
  have hmem : (⟨sampleFile 0, 0, -1, none⟩ : CheckpointRemove) ∈
      (DeltaLogManager.registerActions {} removed.reverse).tombstones := by decide
  have hnot : (⟨sampleFile 0, 0, -1, none⟩ : CheckpointRemove) ∉
      (DeltaLogManager.registerActions {} removed).tombstones := by decide
  exact hnot (hforward.mpr (hbackward.mp hmem))

/-- A file that is added and then removed, both with a size. -/
def removedWithSize : List FileAction :=
  [(sampleFile 0, addOf 1 5), (sampleFile 0, removeOf 2 5)]

/-- Parsed in the other order, they lead to the same tombstone. -/
theorem tombstones_order_independent_sample :
    ⟨sampleFile 0, 0, 5, none⟩ ∈
        (DeltaLogManager.registerActions {} removedWithSize.reverse).tombstones ↔
      IsTombstone removedWithSize ⟨sampleFile 0, 0, 5, none⟩ := by
  refine (tombstones_order_independent_iff (by decide)
    (oncePerVersion_of_nodup .delete (by decide))).mpr ?_ _ (List.reverse_perm _) _
  intro path r hr hsize
  have hmem := hr.mem
  simp only [removedWithSize, List.mem_cons, Prod.mk.injEq, List.not_mem_nil, or_false] at hmem
  rcases hmem with ⟨-, rfl⟩ | ⟨-, rfl⟩
  · exact absurd hsize (by decide)
  · exact absurd hsize (by decide)

end LakeVilla.Checkpoint

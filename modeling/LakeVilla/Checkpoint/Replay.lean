import LakeVilla.Checkpoint.Content
import LakeVilla.Data.Versioned

/-!
# A checkpoint stands for the log below it

What a snapshot shows (`View`): the live files with their data, the application transactions, the
configured domains, protocol and metaData. Each part of it is a register that keeps the newest
version, so a view does not depend on the order in which the versions are applied
(`view_congr`), and a checkpoint shows what the snapshot showed that it was written from
(`view_checkpoint`). The versions after the checkpoint then lead to the view of the whole log.
-/

namespace LakeVilla.Checkpoint

open Versioned

/-! ## Views -/

/-- What a snapshot tells about a live file. Without `partitionValues` there are none. -/
structure LiveFile where
  stats : Text
  size : ℤ
  modificationTime : ℤ
  partitionValues : JsonObject
  tags : Option JsonObject
  deriving DecidableEq, Repr

def FileEntry.live (e : FileEntry) : Option LiveFile :=
  if e.operation = .add then
    some ⟨e.stats, e.size, e.modificationTime, e.partitionValues.getD [], e.tags⟩
  else none

/-- What a snapshot tells about an application: a negative `lastUpdated` stands for none. -/
structure Application where
  version : ℤ
  lastUpdated : Option ℤ
  deriving DecidableEq, Repr

def CheckpointTxn.application (txn : CheckpointTxn) : Application where
  version := txn.version
  lastUpdated := if 0 ≤ txn.lastUpdated then some txn.lastUpdated else none

/-- What a snapshot shows. -/
@[ext] structure View where
  files : DataFile → Option LiveFile
  transactions : AppId → Option Application
  domains : Domain → Option Text
  protocol : Option Protocol
  metadata : Option Metadata

def DeltaLogManager.view (m : DeltaLogManager) : View where
  files path := (m.files.lookup path).bind (·.live)
  transactions appId := (m.transactions.lookup appId).map (·.2.application)
  domains domain := (m.domains.lookup domain).bind (·.2)
  protocol := m.protocol.map (·.2)
  metadata := m.metadata.map (·.2)

/-! ## The parts of a view as registers -/

section Registers

/-- A later write of the same version replaces the value. -/
abbrev lastWrite {α : Type} (_ : α) (b : α) : α := b

/-- A remove replaces an add of the same version; otherwise the first action stays. -/
def removeWins (a b : Option LiveFile) : Option LiveFile := b.bind fun _ ↦ a

def fileWrite (path : DataFile) : Registration → Option (Option LiveFile)
  | .add path' entry =>
    if path' = path then some { entry with operation := .add : FileEntry }.live else none
  | .remove path' _ => if path' = path then some none else none
  | _ => none

def transactionWrite (appId : AppId) : Registration → Option CheckpointTxn
  | .transaction appId' txn => if appId' = appId then some txn else none
  | _ => none

def domainWrite (domain : Domain) : Registration → Option (Option Text)
  | .domain domain' configuration => if domain' = domain then some configuration else none
  | _ => none

def protocolWrite : Registration → Option Protocol
  | .protocol protocol => some protocol
  | _ => none

def metadataWrite : Registration → Option Metadata
  | .metadata metadata => some metadata
  | _ => none

/-- The newest action of a file. -/
def fileAction (m : DeltaLogManager) (path : DataFile) : Option (ℤ × Option LiveFile) :=
  (m.files.lookup path).map fun e ↦ (e.version, e.live)

theorem newer_eq_write {α : Type} (version : ℤ) (x : α) (y : Option (ℤ × α)) :
    newer version x y = write id lastWrite y (version, x) := by
  cases y with
  | none => rfl
  | some y =>
    obtain ⟨u, y⟩ := y
    simp only [newer, write, lastWrite, id]
    rcases lt_trichotomy version u with h | h | h
    · rw [if_neg h.not_ge, if_pos h]
    · rw [if_pos h.ge, if_neg h.not_lt, if_pos h, h]
    · rw [if_pos h.le, if_neg h.not_gt, if_neg h.ne']

theorem FileEntry.live_delete {e : FileEntry} (h : e.operation = .delete) : e.live = none := by
  rw [live, if_neg (by rw [h]; decide)]

theorem mergeAction_live (current entry : FileEntry)
    (h : entry.operation = .add ∨ entry.operation = .delete) :
    some ((current.mergeAction entry).version, (current.mergeAction entry).live) =
      write id removeWins (some (current.version, current.live)) (entry.version, entry.live) := by
  have hkept : entry.operation = .delete → ∀ size pv,
      ({ entry with size := size, partitionValues := pv } : FileEntry).live = entry.live :=
    fun hd size pv ↦ (FileEntry.live_delete (e := { entry with size := size, partitionValues := pv })
      hd).trans (FileEntry.live_delete hd).symm
  unfold FileEntry.mergeAction
  simp only [write, id]
  rcases lt_trichotomy entry.version current.version with hv | hv | hv
  · rw [if_pos (.inl hv), if_pos hv]
  · rw [if_neg hv.not_lt, if_pos hv]
    rcases h with h | h
    · -- an add after another action of its version
      rw [if_pos (.inr ⟨hv, .inr (by rw [h]; decide)⟩)]
      simp [FileEntry.live, h, removeWins]
    · rw [FileEntry.live_delete h, removeWins, Option.bind_none]
      by_cases hc : current.operation = .delete
      · rw [if_pos (.inr ⟨hv, .inl hc⟩), FileEntry.live_delete hc]
      · rw [if_neg (by simp [hv, hc, h])]
        split
        · rw [hkept h, FileEntry.live_delete h, hv]
        · rw [FileEntry.live_delete h, hv]
  · rw [if_neg (by simp [hv.not_gt, hv.ne']), if_neg hv.not_gt, if_neg hv.ne']
    split
    · next hd => rw [hkept hd.1]
    · rfl

theorem fileAction_registerAction (m : DeltaLogManager) (path path' : DataFile) (entry : FileEntry)
    (h : entry.operation = .add ∨ entry.operation = .delete) :
    fileAction (m.registerAction path' entry) path =
      if path' = path then write id removeWins (fileAction m path) (entry.version, entry.live)
      else fileAction m path := by
  unfold fileAction DeltaLogManager.registerAction
  simp only [AssocList.lookup_insertOrAssign]
  by_cases hp : path' = path
  · subst hp
    rw [if_pos rfl, if_pos rfl, Option.map_some]
    cases m.files.lookup path' with
    | none => rfl
    | some current => exact mergeAction_live current entry h
  · rw [if_neg hp, if_neg (Ne.symm hp)]

theorem assignNewer_lookup {α : Type} (l : List (ℕ × (ℤ × α))) (key key' : ℕ) (x : α)
    (version : ℤ) :
    (assignNewer l key' x version).lookup key =
      if key' = key then write id lastWrite (l.lookup key) (version, x) else l.lookup key := by
  rw [← newer_eq_write]
  unfold assignNewer
  split
  · next u y hl =>
    split
    · next hv =>
      split
      · next he => rw [← he, hl, newer, if_neg hv.not_ge]
      · rfl
    · next hv =>
      rw [AssocList.lookup_insertOrAssign]
      by_cases he : key' = key
      · rw [if_pos he.symm, if_pos he, ← he, hl, newer, if_pos (not_lt.mp hv)]
      · rw [if_neg (Ne.symm he), if_neg he]
  · next hl =>
    rw [AssocList.lookup_insertOrAssign]
    by_cases he : key' = key
    · rw [if_pos he.symm, if_pos he, ← he, hl, newer]
    · rw [if_neg (Ne.symm he), if_neg he]

/-- The register of a file. -/
def fileRegister (path : DataFile) : Register DeltaLogManager.perform LiveFile where
  start := id
  again := removeWins
  see := id
  get m := fileAction m path
  writes := fileWrite path
  get_perform m e := by
    obtain ⟨version, r⟩ := e
    cases r with
    | add path' entry =>
      refine (fileAction_registerAction m path path' _ (.inl rfl)).trans ?_
      by_cases hp : path' = path
      · simp only [fileWrite, if_pos hp]
        rfl
      · simp only [fileWrite, if_neg hp]
        rfl
    | remove path' entry =>
      refine (fileAction_registerAction m path path' _ (.inr rfl)).trans ?_
      by_cases hp : path' = path
      · simp only [fileWrite, if_pos hp]
        rfl
      · simp only [fileWrite, if_neg hp]
        rfl
    | _ => rfl

/-- The register of an application. -/
def transactionRegister (appId : AppId) : Register DeltaLogManager.perform Application where
  start := id
  again := lastWrite
  see txn := some txn.application
  get m := m.transactions.lookup appId
  writes := transactionWrite appId
  get_perform m e := by
    obtain ⟨version, r⟩ := e
    cases r with
    | transaction appId' txn =>
      refine (assignNewer_lookup m.transactions appId appId' txn version).trans ?_
      by_cases ha : appId' = appId
      · simp only [transactionWrite, if_pos ha]
        rfl
      · simp only [transactionWrite, if_neg ha]
        rfl
    | _ => rfl

/-- The register of a domain. -/
def domainRegister (domain : Domain) : Register DeltaLogManager.perform Text where
  start := id
  again := lastWrite
  see := id
  get m := m.domains.lookup domain
  writes := domainWrite domain
  get_perform m e := by
    obtain ⟨version, r⟩ := e
    cases r with
    | domain domain' configuration =>
      refine (assignNewer_lookup m.domains domain domain' configuration version).trans ?_
      by_cases hd : domain' = domain
      · simp only [domainWrite, if_pos hd]
        rfl
      · simp only [domainWrite, if_neg hd]
        rfl
    | _ => rfl

def protocolRegister : Register DeltaLogManager.perform Protocol where
  start := id
  again := lastWrite
  see := some
  get m := m.protocol
  writes := protocolWrite
  get_perform m e := by
    obtain ⟨version, r⟩ := e
    cases r with
    | protocol protocol => exact newer_eq_write version protocol m.protocol
    | _ => rfl

def metadataRegister : Register DeltaLogManager.perform Metadata where
  start := id
  again := lastWrite
  see := some
  get m := m.metadata
  writes := metadataWrite
  get_perform m e := by
    obtain ⟨version, r⟩ := e
    cases r with
    | metadata metadata => exact newer_eq_write version metadata m.metadata
    | _ => rfl

end Registers

namespace DeltaLogManager

variable {m m' : DeltaLogManager} {es es' : List (ℤ × Registration)} {c : ℤ}

theorem performAll_append (m : DeltaLogManager) (es es' : List (ℤ × Registration)) :
    m.performAll (es ++ es') = (m.performAll es).performAll es' := List.foldl_append ..

theorem view_files (m : DeltaLogManager) (path : DataFile) :
    m.view.files path = (fileRegister path).shows m := by
  simp only [view, Register.shows, shown, fileRegister, fileAction]
  cases m.files.lookup path <;> rfl

theorem view_transactions (m : DeltaLogManager) (appId : AppId) :
    m.view.transactions appId = (transactionRegister appId).shows m := by
  simp only [view, Register.shows, shown, transactionRegister]
  cases m.transactions.lookup appId <;> rfl

theorem view_protocol (m : DeltaLogManager) : m.view.protocol = protocolRegister.shows m := by
  simp only [view, Register.shows, shown, protocolRegister]
  cases m.protocol <;> rfl

theorem view_metadata (m : DeltaLogManager) : m.view.metadata = metadataRegister.shows m := by
  simp only [view, Register.shows, shown, metadataRegister]
  cases m.metadata <;> rfl

/-- A view consists of what the registers show. -/
theorem view_eq (h₁ : ∀ path, (fileRegister path).shows m = (fileRegister path).shows m')
    (h₂ : ∀ appId, (transactionRegister appId).shows m = (transactionRegister appId).shows m')
    (h₃ : ∀ domain, (domainRegister domain).shows m = (domainRegister domain).shows m')
    (h₄ : protocolRegister.shows m = protocolRegister.shows m')
    (h₅ : metadataRegister.shows m = metadataRegister.shows m') : m.view = m'.view := by
  refine View.ext (funext fun path ↦ ?_) (funext fun appId ↦ ?_) (funext h₃) ?_ ?_
  · rw [view_files, view_files, h₁]
  · rw [view_transactions, view_transactions, h₂]
  · rw [view_protocol, view_protocol, h₄]
  · rw [view_metadata, view_metadata, h₅]

/-- **Versions may be applied in any order.** -/
theorem view_congr (h : SameVersions es es') :
    (performAll {} es).view = (performAll {} es').view :=
  view_eq (fun _ ↦ Register.shows_congr rfl h) (fun _ ↦ Register.shows_congr rfl h)
    (fun _ ↦ Register.shows_congr rfl h) (Register.shows_congr rfl h) (Register.shows_congr rfl h)

/-- Nothing in the snapshot is newer than version `c`. -/
structure Until (c : ℤ) (m : DeltaLogManager) : Prop where
  file : ∀ path, (fileRegister path).Until c m
  transaction : ∀ appId, (transactionRegister appId).Until c m
  domain : ∀ domain, (domainRegister domain).Until c m
  protocol : protocolRegister.Until c m
  metadata : metadataRegister.Until c m

theorem until_performAll (h : ∀ e ∈ es, e.1 ≤ c) : Until c (performAll {} es) where
  file _ := Register.until_foldl rfl h
  transaction _ := Register.until_foldl rfl h
  domain _ := Register.until_foldl rfl h
  protocol := Register.until_foldl rfl h
  metadata := Register.until_foldl rfl h

/-- Later versions lead from equal views to equal views. -/
theorem view_resume (h : m.view = m'.view) (hm : Until c m) (hm' : Until c m')
    (hes : ∀ e ∈ es, c < e.1) : (m.performAll es).view = (m'.performAll es).view := by
  refine view_eq (fun path ↦ ?_) (fun appId ↦ ?_) (fun domain ↦ ?_) ?_ ?_
  · refine Register.shows_resume ?_ (hm.file path) (hm'.file path) hes
    rw [← view_files, ← view_files, h]
  · refine Register.shows_resume ?_ (hm.transaction appId) (hm'.transaction appId) hes
    rw [← view_transactions, ← view_transactions, h]
  · exact Register.shows_resume (congrFun (congrArg View.domains h) domain) (hm.domain domain)
      (hm'.domain domain) hes
  · refine Register.shows_resume ?_ hm.protocol hm'.protocol hes
    rw [← view_protocol, ← view_protocol, h]
  · refine Register.shows_resume ?_ hm.metadata hm'.metadata hes
    rw [← view_metadata, ← view_metadata, h]

end DeltaLogManager

/-! ## What the log makes of the snapshot -/

/-- An add with a size and a modification time. -/
def AddAction.Timed (a : AddAction) : Prop :=
  (∃ size ∈ a.size, 0 ≤ size) ∧ ∃ time ∈ a.modificationTime, 0 ≤ time

def LogLine.Timed (line : LogLine) : Prop := ∀ a ∈ line.add, a.Timed

/-- The registrations of such actions. -/
def Registration.Timed : Registration → Prop
  | .add _ entry => 0 ≤ entry.size ∧ 0 ≤ entry.modificationTime
  | _ => True

/-- A snapshot of a log: every file, application and domain has one entry; live files have a size
and a time. -/
structure DeltaLogManager.Sound (m : DeltaLogManager) : Prop where
  files : (m.files.map (·.1)).Nodup
  transactions : (m.transactions.map (·.1)).Nodup
  domains : (m.domains.map (·.1)).Nodup
  live : ∀ e ∈ m.files, e.2.operation = .add → 0 ≤ e.2.size ∧ 0 ≤ e.2.modificationTime

theorem LogLine.Timed.registrations {line : LogLine} (h : line.Timed) :
    ∀ r ∈ line.registrations, r.Timed := by
  intro r hr
  simp only [LogLine.registrations, List.mem_append, List.mem_map, List.mem_flatMap,
    Option.mem_toList] at hr
  rcases hr with ((((⟨_, -, rfl⟩ | ⟨_, -, rfl⟩) | ⟨a, -, rfl⟩) | ⟨a, -, rfl⟩) | ⟨a, ha, hr⟩) |
    ⟨a, -, hr⟩
  · trivial
  · trivial
  · unfold TxnAction.registration
    split <;> trivial
  · unfold DomainMetadataAction.registration
    split <;> trivial
  · obtain ⟨⟨size, hs, hs₀⟩, time, ht, ht₀⟩ := h a ha
    unfold AddAction.registrations at hr
    split at hr
    · rcases List.mem_append.mp hr with hr | hr
      · split at hr
        · obtain rfl := List.mem_singleton.mp hr
          trivial
        · cases hr
      · obtain rfl := List.mem_singleton.mp hr
        rw [Option.mem_def] at hs ht
        simp [Registration.Timed, FileEntry.ofAdd, hs, ht, hs₀, ht₀]
    · cases hr
  · unfold RemoveAction.registrations at hr
    split at hr
    · obtain rfl := List.mem_singleton.mp hr
      trivial
    · cases hr

theorem nodup_assignNewer {α : Type} {l : List (ℕ × (ℤ × α))} (hl : (l.map (·.1)).Nodup) (key : ℕ)
    (x : α) (version : ℤ) : ((assignNewer l key x version).map (·.1)).Nodup := by
  unfold assignNewer
  split
  · split
    · exact hl
    · exact AssocList.nodup_insertOrAssign hl _ _
  · exact AssocList.nodup_insertOrAssign hl _ _

namespace DeltaLogManager.Sound

variable {m : DeltaLogManager}

theorem empty : Sound {} where
  files := List.nodup_nil
  transactions := List.nodup_nil
  domains := List.nodup_nil
  live _ he := by cases he

theorem registerAction (h : m.Sound) (path : DataFile) {entry : FileEntry}
    (he : entry.operation = .add → 0 ≤ entry.size ∧ 0 ≤ entry.modificationTime) :
    (m.registerAction path entry).Sound where
  files := AssocList.nodup_insertOrAssign h.files _ _
  transactions := h.transactions
  domains := h.domains
  live e hmem hadd := by
    rcases AssocList.mem_insertOrAssign hmem with hold | rfl
    · exact h.live e hold hadd
    · cases hl : m.files.lookup path with
      | none =>
        simp only [hl] at hadd ⊢
        exact he hadd
      | some current =>
        simp only [hl] at hadd ⊢
        unfold FileEntry.mergeAction at hadd ⊢
        split
        · next hc =>
          rw [if_pos hc] at hadd
          exact h.live _ (AssocList.mem_of_lookup hl) hadd
        · next hc =>
          rw [if_neg hc] at hadd
          split
          · next hd =>
            rw [if_pos hd, hd.1] at hadd
            cases hadd
          · next hd =>
            rw [if_neg hd] at hadd
            exact he hadd

theorem perform (h : m.Sound) {e : ℤ × Registration} (he : e.2.Timed) : (m.perform e).Sound := by
  obtain ⟨version, r⟩ := e
  cases r with
  | metadata metadata => exact ⟨h.files, h.transactions, h.domains, h.live⟩
  | protocol protocol => exact ⟨h.files, h.transactions, h.domains, h.live⟩
  | transaction appId txn =>
    exact ⟨h.files, nodup_assignNewer h.transactions _ _ _, h.domains, h.live⟩
  | domain domain configuration =>
    exact ⟨h.files, h.transactions, nodup_assignNewer h.domains _ _ _, h.live⟩
  | add path entry => exact h.registerAction path fun _ ↦ he
  | remove path entry => exact h.registerAction path fun hd ↦ by cases hd
  | unsupported reason => exact ⟨h.files, h.transactions, h.domains, h.live⟩

theorem performAll (h : m.Sound) {es : List (ℤ × Registration)} (hes : ∀ e ∈ es, e.2.Timed) :
    (m.performAll es).Sound := by
  induction es generalizing m with
  | nil => exact h
  | cons e es ih =>
    exact ih (h.perform (hes e List.mem_cons_self)) fun e' he' ↦ hes e' (List.mem_cons_of_mem _ he')

end DeltaLogManager.Sound

/-! ## The view of a checkpoint -/

section Checkpoint

variable {m : DeltaLogManager} {version retentionStart now : ℤ} {content : CheckpointContent}

/-- What a register shows after one action, or none, of one version was written to it. -/
theorem shows_write {C : Type} (r : Register DeltaLogManager.perform C) (hr : r.get {} = none)
    (rs : List Registration) (x : Option r.B) (h : rs.filterMap r.writes = x.toList) :
    r.shows (.performAll {} (rs.map (Prod.mk version))) = x.bind fun b ↦ r.see (r.start b) := by
  rw [Register.shows, DeltaLogManager.performAll, Register.get_foldl, hr, Register.log_version, h]
  cases x <;> rfl

/-- The content of a checkpoint after it was written and read. -/
def CheckpointContent.reread (now : ℤ) (content : CheckpointContent) : CheckpointContent :=
  { content with
    adds := content.adds.map (·.reread now)
    removes := content.removes.map (·.reread)
    txns := content.txns.map fun e ↦ (e.1, e.2.reread) }

theorem checkpointCalls_eq {es : List (ℤ × Registration)}
    (h : m.checkpointCalls version retentionStart now = some es) :
    ∃ protocol metadata, m.protocol.map (·.2) = some protocol ∧
      m.metadata.map (·.2) = some metadata ∧
      es = (CheckpointContent.reread now ⟨m.getEntries, m.getTombstones retentionStart,
        m.getTransactions, m.getDomainMetadata, some protocol, some metadata⟩).calls version := by
  obtain ⟨content, hc, h⟩ := Option.bind_eq_some_iff.mp h
  obtain ⟨rows, hrows, h⟩ := Option.bind_eq_some_iff.mp h
  obtain rfl := Option.some.inj h
  rw [readDLCheckpointContent_generateCheckpoint hrows]
  unfold DeltaLogManager.checkpointContent at hc
  split at hc
  · cases hc
  · split at hc
    · next hp hm =>
      split at hc
      · cases hc
      · obtain rfl := Option.some.inj hc
        exact ⟨_, _, by rw [hp]; rfl, by rw [hm]; rfl, rfl⟩
    · cases hc

theorem CheckpointContent.filterMap_registrations {β : Type} (c : CheckpointContent)
    (f : Registration → Option β) : c.registrations.filterMap f =
      c.adds.filterMap (fun e ↦ f e.registration) ++
        c.removes.filterMap (fun e ↦ f e.registration) ++
        c.txns.filterMap (fun e ↦ f (.transaction e.1 e.2)) ++
        c.domains.filterMap (fun e ↦ f (.domain e.1 (some e.2))) ++
        c.protocol.toList.filterMap (fun p ↦ f (.protocol p)) ++
        c.metadata.toList.filterMap (fun p ↦ f (.metadata p)) := by
  simp only [registrations, List.filterMap_append, List.filterMap_map, Function.comp_def]

theorem filterMap_none {α β : Type} (l : List α) : l.filterMap (fun _ ↦ (none : Option β)) = [] :=
  List.filterMap_eq_nil_iff.mpr fun _ _ ↦ rfl

theorem fileWrite_registrations (hm : m.Sound) (path : DataFile) (protocol : Option Protocol)
    (metadata : Option Metadata) :
    (CheckpointContent.reread now ⟨m.getEntries, m.getTombstones retentionStart,
        m.getTransactions, m.getDomainMetadata, protocol, metadata⟩).registrations.filterMap
      (fileWrite path) =
      ((m.files.lookup path).bind fun e ↦
        if e.operation = .add then some e.live
        else if e.operation = .delete ∧ retentionStart ≤ e.deletionTimestamp then some none
        else none).toList := by
  have hadds : (m.getEntries.map (·.reread now)).filterMap (fun e ↦ fileWrite path e.registration) =
      ((m.files.lookup path).bind fun e ↦
        if e.operation = .add then some e.live else none).toList := by
    rw [← AssocList.filterMap_key hm.files, DeltaLogManager.getEntries,
      List.filterMap_map, List.filterMap_filterMap]
    refine List.filterMap_congr fun e he ↦ ?_
    by_cases hadd : e.2.operation = .add
    · obtain ⟨hs, ht⟩ := hm.live e he hadd
      simp [hadd, CheckpointEntry.registration, CheckpointEntry.reread, fileWrite, FileEntry.live,
        hs.not_gt, ht.not_gt]
    · simp [hadd]
  have hremoves : ((m.getTombstones retentionStart).map (·.reread)).filterMap
      (fun e ↦ fileWrite path e.registration) = ((m.files.lookup path).bind fun e ↦
        if e.operation = .delete ∧ retentionStart ≤ e.deletionTimestamp then some none
        else none).toList := by
    rw [← AssocList.filterMap_key hm.files, DeltaLogManager.getTombstones,
      List.filterMap_map, List.filterMap_filterMap]
    refine List.filterMap_congr fun e _ ↦ ?_
    by_cases hd : e.2.operation = .delete ∧ retentionStart ≤ e.2.deletionTimestamp
    · simp [hd, CheckpointRemove.registration, CheckpointRemove.reread, fileWrite]
    · simp [hd]
  rw [CheckpointContent.filterMap_registrations]
  simp only [CheckpointContent.reread]
  rw [hadds, hremoves]
  simp only [fileWrite, filterMap_none, List.append_nil]
  cases m.files.lookup path with
  | none => rfl
  | some e => by_cases hadd : e.operation = .add <;> simp [hadd]

@[simp] theorem CheckpointTxn.application_reread (txn : CheckpointTxn) :
    txn.reread.application = txn.application := by
  unfold application reread
  by_cases h : 0 ≤ txn.lastUpdated <;> simp [h]

theorem transactionWrite_registrations (hm : m.Sound) (appId : AppId) (protocol : Option Protocol)
    (metadata : Option Metadata) :
    (CheckpointContent.reread now ⟨m.getEntries, m.getTombstones retentionStart,
        m.getTransactions, m.getDomainMetadata, protocol, metadata⟩).registrations.filterMap
      (transactionWrite appId) =
        ((m.transactions.lookup appId).bind fun e ↦ some e.2.reread).toList := by
  have htxns : (m.getTransactions.map fun e ↦ (e.1, e.2.reread)).filterMap
      (fun e ↦ transactionWrite appId (.transaction e.1 e.2)) =
      ((m.transactions.lookup appId).bind fun e ↦ some e.2.reread).toList := by
    rw [← AssocList.filterMap_key hm.transactions, DeltaLogManager.getTransactions, List.map_map,
      List.filterMap_map]
    exact List.filterMap_congr fun e _ ↦ by simp [transactionWrite]
  rw [CheckpointContent.filterMap_registrations]
  simp only [CheckpointContent.reread]
  rw [htxns]
  simp only [CheckpointEntry.registration, CheckpointRemove.registration, transactionWrite,
    filterMap_none, List.append_nil, List.nil_append]

theorem domainWrite_registrations (hm : m.Sound) (domain : Domain) (protocol : Option Protocol)
    (metadata : Option Metadata) :
    (CheckpointContent.reread now ⟨m.getEntries, m.getTombstones retentionStart,
        m.getTransactions, m.getDomainMetadata, protocol, metadata⟩).registrations.filterMap
      (domainWrite domain) =
      ((m.domains.lookup domain).bind fun e ↦ e.2.map some).toList := by
  have hdomains : m.getDomainMetadata.filterMap
      (fun e ↦ domainWrite domain (.domain e.1 (some e.2))) =
      ((m.domains.lookup domain).bind fun e ↦ e.2.map some).toList := by
    rw [← AssocList.filterMap_key hm.domains, DeltaLogManager.getDomainMetadata,
      List.filterMap_filterMap]
    refine List.filterMap_congr fun e _ ↦ ?_
    cases e.2.2 <;> simp [domainWrite]
  rw [CheckpointContent.filterMap_registrations]
  simp only [CheckpointContent.reread]
  rw [hdomains]
  simp only [CheckpointEntry.registration, CheckpointRemove.registration, domainWrite,
    filterMap_none, List.append_nil, List.nil_append]

/-- **A checkpoint shows its snapshot.** -/
theorem view_checkpoint {es : List (ℤ × Registration)} (hm : m.Sound)
    (h : m.checkpointCalls version retentionStart now = some es) :
    (DeltaLogManager.performAll {} es).view = m.view := by
  obtain ⟨protocol, metadata, hp, hmd, rfl⟩ := checkpointCalls_eq h
  refine DeltaLogManager.view_eq (fun path ↦ ?_) (fun appId ↦ ?_) (fun domain ↦ ?_) ?_ ?_
  · refine (shows_write (fileRegister path) rfl _ _
      (fileWrite_registrations hm path (some protocol) (some metadata))).trans ?_
    simp only [Register.shows, shown, fileRegister, fileAction, FileEntry.live]
    cases m.files.lookup path with
    | none => rfl
    | some e =>
      by_cases hadd : e.operation = .add
      · simp [hadd]
      · by_cases hd : e.operation = .delete ∧ retentionStart ≤ e.deletionTimestamp <;>
          simp [hadd, hd]
  · refine (shows_write (transactionRegister appId) rfl _ _
      (transactionWrite_registrations hm appId (some protocol) (some metadata))).trans ?_
    simp only [Register.shows, shown, transactionRegister]
    cases m.transactions.lookup appId with
    | none => rfl
    | some e => simp
  · refine (shows_write (domainRegister domain) rfl _ _
      (domainWrite_registrations hm domain (some protocol) (some metadata))).trans ?_
    simp only [Register.shows, shown, domainRegister]
    cases m.domains.lookup domain with
    | none => rfl
    | some e => cases he : e.2 <;> simp [he]
  · refine (shows_write protocolRegister rfl _ (some protocol) ?_).trans ?_
    · simp [CheckpointContent.filterMap_registrations, CheckpointContent.reread, protocolRegister,
        CheckpointEntry.registration, CheckpointRemove.registration, protocolWrite]
    · rw [← DeltaLogManager.view_protocol]
      exact hp.symm
  · refine (shows_write metadataRegister rfl _ (some metadata) ?_).trans ?_
    · simp [CheckpointContent.filterMap_registrations, CheckpointContent.reread, metadataRegister,
        CheckpointEntry.registration, CheckpointRemove.registration, metadataWrite]
    · rw [← DeltaLogManager.view_metadata]
      exact hmd.symm

end Checkpoint

/-! ## The whole log -/

theorem logCalls_append (first : ℤ) (log log' : List (List LogLine)) :
    logCalls first (log ++ log') = logCalls first log ++ logCalls (first + log.length) log' := by
  induction log generalizing first with
  | nil => simp [logCalls]
  | cons lines log ih =>
    have hnext : first + 1 + log.length = first + (log.length + 1 : ℕ) := by omega
    simp only [List.cons_append, logCalls, ih, List.append_assoc, List.length_cons, hnext]

/-- The calls for the versions from `first` on have these versions, and are about their lines. -/
theorem mem_logCalls {first : ℤ} {log : List (List LogLine)} {e : ℤ × Registration}
    (h : e ∈ logCalls first log) :
    first ≤ e.1 ∧ e.1 < first + log.length ∧ ∃ lines ∈ log, ∃ line ∈ lines,
      e.2 ∈ line.registrations := by
  induction log generalizing first with
  | nil => cases h
  | cons lines log ih =>
    rw [List.length_cons]
    rcases List.mem_append.mp h with h | h
    · obtain ⟨r, hr, rfl⟩ := List.mem_map.mp h
      obtain ⟨line, hline, hr⟩ := List.mem_flatMap.mp hr
      exact ⟨le_rfl, by omega, lines, List.mem_cons_self, line, hline, hr⟩
    · obtain ⟨hle, hlt, lines', hlines, hline⟩ := ih h
      exact ⟨by omega, by omega, lines', List.mem_cons_of_mem _ hlines, hline⟩

/-- The snapshot of a log with sizes and times. -/
theorem sound_logCalls {log : List (List LogLine)} (hlog : ∀ lines ∈ log, ∀ line ∈ lines, line.Timed)
    {first : ℤ} {es : List (ℤ × Registration)} (hes : SameVersions es (logCalls first log)) :
    (DeltaLogManager.performAll {} es).Sound := by
  refine DeltaLogManager.Sound.empty.performAll fun e he ↦ ?_
  obtain ⟨-, -, lines, hlines, line, hline, hr⟩ := mem_logCalls (hes.mem.mp he)
  exact (hlog lines hlines line hline).registrations _ hr

/-- **A checkpoint replaces the log below it.** Let `log` be the versions of a table, and let a
checkpoint of version `c` be written from a replay `es₀` of the versions up to `c`. Then a load
`es₁` from this checkpoint and the later versions shows what a replay `es₂` of the whole log shows.
In each of the three, the versions (and the checkpoint) are applied in any order. -/
theorem view_of_checkpoint {log : List (List LogLine)} {c : ℕ} {retentionStart now : ℤ}
    {checkpoint es₀ es₁ es₂ : List (ℤ × Registration)} (hc : c < log.length)
    (hlog : ∀ lines ∈ log, ∀ line ∈ lines, line.Timed)
    (h₀ : SameVersions es₀ (logCalls 0 (log.take (c + 1))))
    (hwrite : (DeltaLogManager.performAll {} es₀).checkpointCalls c retentionStart now =
      some checkpoint)
    (h₁ : SameVersions es₁ (checkpoint ++ logCalls (c + 1) (log.drop (c + 1))))
    (h₂ : SameVersions es₂ (logCalls 0 log)) :
    (DeltaLogManager.performAll {} es₁).view = (DeltaLogManager.performAll {} es₂).view := by
  -- both loads end with the versions after `c`
  have hsplit : logCalls 0 log =
      logCalls 0 (log.take (c + 1)) ++ logCalls (c + 1) (log.drop (c + 1)) := by
    have hfirst : (0 : ℤ) + (log.take (c + 1)).length = c + 1 := by
      rw [List.length_take, min_eq_left hc]
      omega
    conv_lhs => rw [← List.take_append_drop (c + 1) log, logCalls_append, hfirst]
  rw [DeltaLogManager.view_congr h₁, DeltaLogManager.view_congr h₂, hsplit,
    DeltaLogManager.performAll_append, DeltaLogManager.performAll_append]
  have hsound := sound_logCalls (fun lines h ↦ hlog lines (List.mem_of_mem_take h)) h₀
  refine DeltaLogManager.view_resume (c := c) ?_ ?_ ?_ ?_
  · rw [view_checkpoint hsound hwrite, DeltaLogManager.view_congr h₀]
  · obtain ⟨_, _, -, -, rfl⟩ := checkpointCalls_eq hwrite
    refine DeltaLogManager.until_performAll fun e he ↦ ?_
    obtain ⟨_, -, rfl⟩ := List.mem_map.mp he
    exact le_rfl
  · refine DeltaLogManager.until_performAll fun e he ↦ ?_
    obtain ⟨-, hlt, -⟩ := mem_logCalls he
    rw [List.length_take, min_eq_left hc] at hlt
    omega
  · intro e he
    obtain ⟨hle, -, -⟩ := mem_logCalls he
    omega

def sampleFile (seq : ℕ) : DataFile := { owner := none, seq, rows := [] }

/-- Two files and a domain come; then one of the files and the domain go. -/
def sampleLog : List (List LogLine) :=
  [[{ protocol := some { minReaderVersion := some 1, minWriterVersion := some 2 } },
    { metaData := some { id := some "t".toList } },
    { add := some { path := some (sampleFile 0), size := some 10, modificationTime := some 5 } }],
   [{ txn := some { appId := some 7, version := some 1 } },
    { domainMetadata := some { domain := some 3, configuration := some "on".toList } },
    { add := some { path := some (sampleFile 1), size := some 20, modificationTime := some 6 } }],
   [{ remove := some { path := some (sampleFile 0), deletionTimestamp := some 8 } },
    { domainMetadata := some { domain := some 3, removed := true } }]]

/-- A checkpoint of version 1 that is parsed after version 2. -/
theorem view_of_checkpoint_sample :
    ∃ checkpoint, (DeltaLogManager.performAll {} (logCalls 0 (sampleLog.take 2))).checkpointCalls
        1 0 100 = some checkpoint ∧
      (DeltaLogManager.performAll {} (logCalls 2 (sampleLog.drop 2) ++ checkpoint)).view =
        (DeltaLogManager.performAll {} (logCalls 0 sampleLog)).view := by
  obtain ⟨checkpoint, hwrite⟩ := Option.isSome_iff_exists.mp
    (show ((DeltaLogManager.performAll {} (logCalls 0 (sampleLog.take 2))).checkpointCalls
      1 0 100).isSome by decide)
  have htimed : ∀ lines ∈ sampleLog, ∀ line ∈ lines, line.Timed := by
    simp [sampleLog, LogLine.Timed, AddAction.Timed]
  refine ⟨checkpoint, hwrite, view_of_checkpoint (c := 1) (by decide) htimed (fun _ ↦ rfl) hwrite
    (.swap fun e he e' he' ↦ ?_) fun _ ↦ rfl⟩
  obtain ⟨hle, -, -⟩ := mem_logCalls he
  obtain ⟨_, _, -, -, rfl⟩ := checkpointCalls_eq hwrite
  obtain ⟨_, -, rfl⟩ := List.mem_map.mp he'
  intro h
  rw [h] at hle
  exact absurd (show (2 : ℤ) ≤ 1 from hle) (by decide)

end LakeVilla.Checkpoint

import LakeVilla.Checkpoint.Content
import LakeVilla.Concurrency.RelyGuarantee
import LakeVilla.Storage.Connector
import Mathlib.Data.Nat.Basic

/-!
# The hint to the last checkpoint

`_last_checkpoint` names the newest checkpoint of a table, so that readers need no listing.
`write_checkpoint` writes the checkpoint first and then updates the hint: it reads the hint with its
ETag and, if that names an older version or none, overwrites it by a conditional write. The hint
thus never moves backwards and never names a checkpoint that is missing, however the calls of
several clients interleave and whichever of them fail (`hint_never_moves_backwards`).
-/

namespace LakeVilla.Checkpoint

open Concurrency Client Relation

/-! ## The objects -/

/-- The JSON text of the hint, as far as it is written or read: an object with some of these members
as natural numbers, a number alone, or anything else. -/
inductive LastCheckpoint
  | object (version parts size sizeInBytes numOfAddFiles : Option ℕ)
  | number (n : ℕ)
  | other
  deriving DecidableEq, Repr

structure CheckpointInfo where
  version : Option ℕ := none
  parts : ℕ := 1
  deriving DecidableEq, Repr

/-- Objects of a table's `_delta_log/` that checkpoints are about. -/
inductive LogKey
  /-- `<version>.checkpoint.parquet` -/
  | checkpoint (version : ℕ)
  /-- `_last_checkpoint` -/
  | lastCheckpoint
  deriving DecidableEq, Repr

inductive LogContent
  | rows (rows : List CheckpointRow)
  | hint (text : LastCheckpoint)
  deriving DecidableEq, Repr

structure LogObject where
  content : LogContent
  etag : ETag
  deriving DecidableEq, Repr

/-- The objects with the last ETag handed out. -/
structure LogStore where
  get : LogKey → Option LogObject
  nextEtag : ETag
  etag_le : ∀ k o, get k = some o → o.etag ≤ nextEtag

def LogStore.put (s : LogStore) (k : LogKey) (c : LogContent) : LogStore where
  get := Function.update s.get k (some ⟨c, s.nextEtag + 1⟩)
  nextEtag := s.nextEtag + 1
  etag_le k' o h := by
    by_cases hk : k' = k
    · subst hk
      rw [Function.update_self] at h
      obtain rfl := Option.some.inj h
      exact Nat.le_refl _
    · rw [Function.update_of_ne hk] at h
      exact Nat.le_succ_of_le (s.etag_le k' o h)

/-! ## Calls -/

inductive LogCall
  | readVersioned (k : LogKey)
  | writeAtomic (k : LogKey) (c : LogContent)
  | writeIfMatch (k : LogKey) (c : LogContent) (etag : ETag)
  deriving DecidableEq, Repr

abbrev LogResponse : LogCall → Type
  | .readVersioned _ => Option LogObject
  | .writeAtomic _ _ => WriteStatus
  | .writeIfMatch _ _ _ => WriteStatus

/-- A conditional write that goes through if `allowed`, under a fault. -/
def LogStore.writeUnder (f : Fault) (allowed : Bool) (rejected : WriteStatus) (s : LogStore)
    (k : LogKey) (c : LogContent) : WriteStatus × LogStore :=
  let r := if allowed then (.ok, s.put k c) else (rejected, s)
  match f with
  | .none => r
  | .failed => (.error, s)
  | .lost => (.error, r.2)

/-- One call, answered in store `s`. -/
def LogStore.answer (f : Fault) : (c : LogCall) → LogStore → LogResponse c × LogStore
  | .readVersioned k, s => (f.ask none (s.get k), s)
  | .writeAtomic k c, s => s.writeUnder f (s.get k).isNone .alreadyExists k c
  | .writeIfMatch k c etag, s =>
    s.writeUnder f ((s.get k).any fun o ↦ o.etag = etag) .preconditionFailed k c

def logService (I : Type) : Service I LogResponse LogStore Fault :=
  fun _ f c s ↦ some (s.answer f c)

/-- Every call may fail, and every response may be lost. -/
def logSem (I : Type) : Semantics I Unit LogResponse LogStore :=
  semOf (logService I) fun _ _ _ _ _ ↦ true

/-! ## Writing checkpoints -/

abbrev LogClient := Client Unit LogResponse

def readVersioned (k : LogKey) : LogClient (Option LogObject) := perform (LogCall.readVersioned k)

def writeAtomic (k : LogKey) (c : LogContent) : LogClient WriteStatus :=
  perform (LogCall.writeAtomic k c)

def writeIfMatch (k : LogKey) (c : LogContent) (etag : ETag) : LogClient WriteStatus :=
  perform (LogCall.writeIfMatch k c etag)

/-- `read_last_checkpoint`, of the object that was read -/
def readLastCheckpoint : Option LogObject → CheckpointInfo
  | some ⟨.hint (.object (some version) parts _ _ _), _⟩ => ⟨some version, parts.getD 1⟩
  | some ⟨.hint (.number n), _⟩ => ⟨some n, 1⟩
  | _ => {}

/-- The version that the hint names, if it can be read. -/
def LogStore.named (s : LogStore) : Option ℕ := (readLastCheckpoint (s.get .lastCheckpoint)).version

/-- The conditional write of the loop, on the version that was read. -/
def writeLastCheckpoint (last : LastCheckpoint) : Option LogObject → LogClient WriteStatus
  | none => writeAtomic .lastCheckpoint (.hint last)
  | some o => writeIfMatch .lastCheckpoint (.hint last) o.etag

/-- The loop of `write_checkpoint`, with the attempts that are left. -/
def updateLastCheckpoint (version : ℕ) (last : LastCheckpoint) :
    ℕ → LogClient Bool
  | 0 => return false
  | attempts + 1 => do
    let content ← readVersioned .lastCheckpoint
    if (readLastCheckpoint content).version.any (version ≤ ·) then
      return true
    else
      let status ← writeLastCheckpoint last content
      if status = .ok then
        return true
      else
        updateLastCheckpoint version last attempts

/-- What a client writes a checkpoint of. -/
structure Request where
  version : ℕ
  deltaLog : DeltaLogManager
  retentionStart : ℤ
  now : ℤ

section Writing

-- `storage_retries`, and the size of a Parquet file
variable (retries : ℕ) (parquetSize : List CheckpointRow → ℕ)

/-- `write_checkpoint` -/
def writeCheckpoint (r : Request) : LogClient Bool :=
  match r.deltaLog.checkpointContent r.retentionStart with
  | none => return false
  | some content =>
    match generateCheckpoint r.now content with
    | none => return false
    | some rows => do
      let status ← writeAtomic (.checkpoint r.version) (.rows rows)
      if status = .ok ∨ status = .alreadyExists then
        let size := 2 + content.adds.length + content.removes.length + content.txns.length +
          content.domains.length
        -- the last two are only known for our file
        updateLastCheckpoint r.version
          (.object (some r.version) none (some size)
            (if status = .ok then some (parquetSize rows) else none)
            (if status = .ok then some content.adds.length else none)) retries
      else
        return false

/-- A client that writes checkpoints one after the other. -/
def writeCheckpoints : List Request → LogClient Unit
  | [] => return ()
  | r :: rs => do
    let _ ← writeCheckpoint retries parquetSize r
    writeCheckpoints rs

/-- Clients before their first step. -/
def logWorld {I : Type} (s : LogStore) (requests : I → List Request) :
    World I Unit LogResponse LogStore (Unit × Unit) where
  shared := s
  client i := writeCheckpoints retries parquetSize (requests i) ()

end Writing

/-! ## What a call can do -/

/-- What no call undoes: objects stay, a changed object has a new ETag, and a changed hint names a
newer version, of which there is a checkpoint. -/
structure Advance (s s' : LogStore) : Prop where
  stays : ∀ k, (s.get k).isSome → (s'.get k).isSome
  changed : ∀ k o, s'.get k = some o → s.get k = some o ∨ s.nextEtag < o.etag
  nextEtag : s.nextEtag ≤ s'.nextEtag
  hint : s'.get .lastCheckpoint = s.get .lastCheckpoint ∨ ∃ v, s'.named = some v ∧
    (s'.get (.checkpoint v)).isSome ∧ ∀ u ∈ s.named, u < v

theorem Advance.refl (s : LogStore) : Advance s s where
  stays _ h := h
  changed _ _ h := .inl h
  nextEtag := le_rfl
  hint := .inl rfl

theorem LogStore.put_get_self (s : LogStore) (k : LogKey) (c : LogContent) :
    (s.put k c).get k = some ⟨c, s.nextEtag + 1⟩ := Function.update_self ..

theorem LogStore.put_get_of_ne (s : LogStore) {k k' : LogKey} (c : LogContent) (h : k' ≠ k) :
    (s.put k c).get k' = s.get k' := Function.update_of_ne h ..

theorem LogStore.put_changed {s : LogStore} {k k' : LogKey} {c : LogContent} {o : LogObject}
    (h : (s.put k c).get k' = some o) : s.get k' = some o ∨ s.nextEtag < o.etag := by
  by_cases hk : k' = k
  · subst hk
    rw [put_get_self] at h
    obtain rfl := Option.some.inj h
    exact .inr (Nat.lt_succ_self _)
  · rw [put_get_of_ne s c hk] at h
    exact .inl h

theorem LogStore.put_stays {s : LogStore} {k k' : LogKey} {c : LogContent}
    (h : (s.get k').isSome) : ((s.put k c).get k').isSome := by
  by_cases hk : k' = k
  · subst hk
    rw [put_get_self]
    rfl
  · rwa [put_get_of_ne s c hk]

/-- A write of a checkpoint. -/
theorem Advance.put_checkpoint (s : LogStore) (version : ℕ) (c : LogContent) :
    Advance s (s.put (.checkpoint version) c) where
  stays _ h := LogStore.put_stays h
  changed _ _ h := LogStore.put_changed h
  nextEtag := Nat.le_succ _
  hint := .inl (s.put_get_of_ne c (by simp))

/-- A write of the hint. -/
theorem Advance.put_hint {s : LogStore} {version : ℕ}
    {parts size sizeInBytes numOfAddFiles : Option ℕ}
    (hc : (s.get (.checkpoint version)).isSome) (hn : ∀ u ∈ s.named, u < version) :
    Advance s (s.put .lastCheckpoint
      (.hint (.object (some version) parts size sizeInBytes numOfAddFiles))) where
  stays _ h := LogStore.put_stays h
  changed _ _ h := LogStore.put_changed h
  nextEtag := Nat.le_succ _
  hint := .inr ⟨version, by rw [LogStore.named, LogStore.put_get_self]; rfl,
    LogStore.put_stays hc, hn⟩

/-- The three outcomes of a conditional write. -/
theorem LogStore.writeUnder_cases {f : Fault} {allowed : Bool} {rejected r : WriteStatus}
    {s s' : LogStore} {k : LogKey} {c : LogContent}
    (h : (r, s') = s.writeUnder f allowed rejected k c) :
    (allowed = true ∧ (r = .ok ∨ r = .error) ∧ s' = s.put k c) ∨
      ((r = .error ∨ allowed = false ∧ r = rejected) ∧ s' = s) := by
  unfold writeUnder at h
  cases f <;> cases allowed <;> obtain ⟨rfl, rfl⟩ := Prod.mk.inj h <;> simp

/-! ## Every client keeps the protocol -/

/-- Every call advances the store. -/
def advancing (I : Type) : Concurrency.Protocol I Unit LogResponse LogStore where
  inv _ := True
  guar _ _ _ s _ s' := Advance s s'

/-- What a client knows of the hint after it has read it: with this ETag it names `version`. -/
def HintIs (etag : ETag) (version : Option ℕ) (s : LogStore) : Prop :=
  etag ≤ s.nextEtag ∧ ∀ o, s.get .lastCheckpoint = some o → o.etag = etag → s.named = version

section Clients

variable {I : Type} {i : I} {s s' : LogStore}

/-- A property that calls keep is kept by the other clients. -/
theorem rely_keeps {K : LogStore → Prop} (hK : ∀ {s s'}, Advance s s' → K s → K s')
    (h : (advancing I).rely (logSem I) i s s') (hs : K s) : K s' := by
  induction h with
  | refl => exact hs
  | tail _ hstep ih =>
    obtain ⟨_, -, _, _, _, -, -, -, hadv⟩ := hstep
    exact hK hadv ih

theorem HintIs.advance {etag : ETag} {version : Option ℕ} (h : Advance s s')
    (hs : HintIs etag version s) : HintIs etag version s' := by
  refine ⟨le_trans hs.1 h.nextEtag, fun o ho he ↦ ?_⟩
  rcases h.changed _ _ ho with hold | hnew
  · rw [← hs.2 o hold he, LogStore.named, LogStore.named, ho, hold]
  · exact absurd (he ▸ hnew) hs.1.not_gt

theorem logSem_eq {m : Unit} {c : LogCall} {r : LogResponse c} (h : logSem I i m c s r s') :
    ∃ f, (r, s') = s.answer f c := by
  obtain ⟨⟨f, hf⟩, -⟩ := h
  exact ⟨f, (Option.some.inj hf).symm⟩

/-- After a read. -/
theorem hintIs_read {f : Fault} {o : LogObject}
    (h : o ∈ f.ask none (s.get .lastCheckpoint)) :
    HintIs o.etag (readLastCheckpoint (f.ask none (s.get .lastCheckpoint))).version s := by
  cases f with
  | none => exact ⟨s.etag_le _ _ h, fun _ _ _ ↦ rfl⟩
  | failed => cases h
  | lost => cases h

/-- A conditional write of the hint after a read that named no version from `version` on. -/
theorem wp_writeLastCheckpoint {version : ℕ} {parts size sizeInBytes numOfAddFiles : Option ℕ}
    {content : Option LogObject} (hc : (s.get (.checkpoint version)).isSome)
    (hcontent : ∀ o ∈ content, HintIs o.etag (readLastCheckpoint content).version s)
    (hlt : ¬ (readLastCheckpoint content).version.any (version ≤ ·)) :
    wp (logSem I) (advancing I) i (writeLastCheckpoint
      (.object (some version) parts size sizeInBytes numOfAddFiles) content) ()
      (fun _ _ s ↦ (s.get (.checkpoint version)).isSome) s := by
  have hlater : ∀ {s₁ s₂ s₃}, Advance s₁ s₂ → (s₁.get (.checkpoint version)).isSome →
      (advancing I).rely (logSem I) i s₂ s₃ → (s₃.get (.checkpoint version)).isSome :=
    fun h₁₂ hc₁ h₂₃ ↦ rely_keeps (fun h ↦ h.stays _) h₂₃ (h₁₂.stays _ hc₁)
  cases content with
  | none =>
    refine wp_perform fun s₁ h₁ _ r s₂ hs ↦ ?_
    obtain ⟨f, hf⟩ := logSem_eq hs
    have hc₁ := rely_keeps (fun h ↦ h.stays _) h₁ hc
    have hadv : Advance s₁ s₂ := by
      rcases LogStore.writeUnder_cases hf with ⟨hnone, -, rfl⟩ | ⟨-, rfl⟩
      · refine .put_hint hc₁ fun u hu ↦ ?_
        rw [LogStore.named, Option.isNone_iff_eq_none.mp hnone] at hu
        cases hu
      · exact .refl _
    exact ⟨trivial, hadv, fun s₃ h₃ _ ↦ hlater hadv hc₁ h₃⟩
  | some o =>
    refine wp_perform fun s₁ h₁ _ r s₂ hs ↦ ?_
    obtain ⟨f, hf⟩ := logSem_eq hs
    have hc₁ := rely_keeps (fun h ↦ h.stays _) h₁ hc
    have hknown := rely_keeps HintIs.advance h₁ (hcontent o rfl)
    have hadv : Advance s₁ s₂ := by
      rcases LogStore.writeUnder_cases hf with ⟨hmatch, -, rfl⟩ | ⟨-, rfl⟩
      · obtain ⟨o', ho', he⟩ := (Option.any_eq_true _ _).mp hmatch
        refine .put_hint hc₁ fun u hu ↦ ?_
        rw [hknown.2 o' ho' (of_decide_eq_true he)] at hu
        rw [Option.mem_def.mp hu] at hlt
        simpa using hlt
      · exact .refl _
    exact ⟨trivial, hadv, fun s₃ h₃ _ ↦ hlater hadv hc₁ h₃⟩

/-- The loop, once the checkpoint is there. -/
theorem wp_updateLastCheckpoint {version : ℕ} {parts size sizeInBytes numOfAddFiles : Option ℕ}
    (attempts : ℕ) (hc : (s.get (.checkpoint version)).isSome) :
    wp (logSem I) (advancing I) i (updateLastCheckpoint version
      (.object (some version) parts size sizeInBytes numOfAddFiles) attempts) ()
      (fun _ _ _ ↦ True) s := by
  induction attempts generalizing s with
  | zero => exact wp_pure fun _ _ _ ↦ trivial
  | succ attempts ih =>
    refine wp_bind trivial (wp_perform fun s₁ h₁ _ content s₂ hs ↦ ?_)
    obtain ⟨f, hf⟩ := logSem_eq hs
    obtain ⟨rfl, rfl⟩ := Prod.mk.inj hf
    refine ⟨trivial, .refl _, fun s₃ h₃ _ ↦ ?_⟩
    have hc₃ := rely_keeps (fun h ↦ h.stays _) h₃ (rely_keeps (fun h ↦ h.stays _) h₁ hc)
    refine wp_ite (fun _ ↦ wp_pure fun _ _ _ ↦ trivial) fun hlt ↦ ?_
    refine wp_bind trivial (wp_mono (wp_writeLastCheckpoint hc₃ ?_ hlt) fun status _ s₄ _ hc₄ ↦ ?_)
    · exact fun o ho ↦ rely_keeps HintIs.advance h₃ (hintIs_read ho)
    · exact wp_ite (fun _ ↦ wp_pure fun _ _ _ ↦ trivial) fun _ ↦ ih hc₄

variable {retries : ℕ} {parquetSize : List CheckpointRow → ℕ}

theorem wp_writeCheckpoint (r : Request) :
    wp (logSem I) (advancing I) i (writeCheckpoint retries parquetSize r) ()
      (fun _ _ _ ↦ True) s := by
  unfold writeCheckpoint
  split
  · exact wp_pure fun _ _ _ ↦ trivial
  · split
    · exact wp_pure fun _ _ _ ↦ trivial
    · refine wp_bind trivial (wp_perform fun s₁ _ _ status s₂ hs ↦ ?_)
      obtain ⟨f, hf⟩ := logSem_eq hs
      rcases LogStore.writeUnder_cases hf with ⟨-, -, rfl⟩ | ⟨hstatus, rfl⟩
      · -- the checkpoint is written, whatever the response says
        refine ⟨trivial, .put_checkpoint _ _ _, fun s₃ h₃ _ ↦ ?_⟩
        have hc := rely_keeps (fun h ↦ h.stays (.checkpoint r.version)) h₃
          (by rw [LogStore.put_get_self]; rfl)
        exact wp_ite (fun _ ↦ wp_updateLastCheckpoint _ hc) fun _ ↦ wp_pure fun _ _ _ ↦ trivial
      · refine ⟨trivial, .refl _, fun s₃ h₃ _ ↦ ?_⟩
        refine wp_ite (fun hok ↦ wp_updateLastCheckpoint _ ?_) fun _ ↦ wp_pure fun _ _ _ ↦ trivial
        -- another client has written it
        rcases hstatus with rfl | ⟨hsome, -⟩
        · simp at hok
        · exact rely_keeps (fun h ↦ h.stays _) h₃ (Option.isNone_eq_false_iff.mp hsome)

theorem wp_writeCheckpoints (rs : List Request) :
    wp (logSem I) (advancing I) i (writeCheckpoints retries parquetSize rs) ()
      (fun _ _ _ ↦ True) s := by
  induction rs generalizing s with
  | nil => exact wp_pure fun _ _ _ ↦ trivial
  | cons r rs ih => exact wp_bind trivial (wp_mono (wp_writeCheckpoint r) fun _ _ _ _ _ ↦ ih)

end Clients

/-! ## Runs -/

section Runs

variable {I : Type} [DecidableEq I] {w w' : World I Unit LogResponse LogStore (Unit × Unit)}

/-- What the hint of a later store tells about that of an earlier one. -/
structure NotBack (s s' : LogStore) : Prop where
  named : ∀ u ∈ s.named, ∃ v ∈ s'.named, u ≤ v
  hint : s'.get .lastCheckpoint = s.get .lastCheckpoint ∨
    ∃ v, s'.named = some v ∧ (s'.get (.checkpoint v)).isSome

theorem NotBack.refl (s : LogStore) : NotBack s s where
  named u hu := ⟨u, hu, le_rfl⟩
  hint := .inl rfl

theorem NotBack.advance {s s' s'' : LogStore} (h : NotBack s s') (ha : Advance s' s'') :
    NotBack s s'' := by
  rcases ha.hint with hsame | ⟨v, hv, hc, hlt⟩
  · have hnamed : s''.named = s'.named := by rw [LogStore.named, hsame, LogStore.named]
    refine ⟨hnamed ▸ h.named, ?_⟩
    rcases h.hint with hold | ⟨v, hv, hc⟩
    · exact .inl (hsame.trans hold)
    · exact .inr ⟨v, hnamed.trans hv, ha.stays _ hc⟩
  · refine ⟨fun u hu ↦ ⟨v, hv, ?_⟩, .inr ⟨v, hv, hc⟩⟩
    obtain ⟨u', hu', hle⟩ := h.named u hu
    exact le_trans hle (Nat.le_of_lt (hlt u' hu'))

/-- **The hint never moves backwards.** Let clients write checkpoints of any versions, with their
calls in any order, and let any calls fail or lose their response. When the hint names a version,
it names the same or a later one from then on; and whenever it has changed it names a version of
which the checkpoint exists. -/
theorem hint_never_moves_backwards {retries : ℕ} {parquetSize : List CheckpointRow → ℕ}
    {s : LogStore} {requests : I → List Request}
    (h : Reachable (logSem I) (logWorld retries parquetSize s requests) w)
    (h' : Reachable (logSem I) w w') :
    (∀ u ∈ w.shared.named, ∃ v ∈ w'.shared.named, u ≤ v) ∧
      (w'.shared.get .lastCheckpoint = w.shared.get .lastCheckpoint ∨
        ∃ v, w'.shared.named = some v ∧ (w'.shared.get (.checkpoint v)).isSome) := by
  have hstart : Safe (logSem I) (advancing I) (fun _ _ _ ↦ True)
      (logWorld retries parquetSize s requests) :=
    ⟨trivial, fun i ↦ wp_writeCheckpoints (requests i)⟩
  have hback : NotBack w.shared w'.shared :=
    ((hstart.reachable h).restrict h').invariant (P := fun w' ↦ NotBack w.shared w'.shared)
      (NotBack.refl w.shared) fun hs hstep ↦ by
        obtain ⟨_, -, -, -, -, hadv⟩ := hstep
        exact hs.advance hadv
  exact ⟨hback.named, hback.hint⟩

/-- A hint that names version 1. -/
def sampleStore : LogStore where
  get := Function.update (fun _ ↦ none) .lastCheckpoint (some ⟨.hint (.number 1), 1⟩)
  nextEtag := 1
  etag_le k o h := by
    by_cases hk : k = .lastCheckpoint
    · subst hk
      obtain rfl := Option.some.inj h
      exact Nat.le_refl _
    · rw [Function.update_of_ne hk] at h
      cases h

/-- Client 0 writes version 5, client 1 writes version 3. -/
def sampleRequests (i : ℕ) : List Request :=
  let deltaLog := { protocol := some (0, {}), metadata := some (0, {}) }
  match i with
  | 0 => [⟨5, deltaLog, 0, 0⟩]
  | 1 => [⟨3, deltaLog, 0, 0⟩]
  | _ => []

/-- Both clients read the old hint, and client 0 loses the response of its write. -/
theorem hint_never_moves_backwards_run :
    ∃ w, (logWorld 2 List.length sampleStore sampleRequests).run (logService ℕ)
        (fun _ _ _ _ _ ↦ true) [(0, .none), (1, .none), (0, .none), (1, .none), (0, .lost),
          (1, .none), (1, .none), (0, .none)] = some w ∧ w.shared.named = some 5 ∧
      ((∀ u ∈ sampleStore.named, ∃ v ∈ w.shared.named, u ≤ v) ∧
        (w.shared.get .lastCheckpoint = sampleStore.get .lastCheckpoint ∨
          ∃ v, w.shared.named = some v ∧ (w.shared.get (.checkpoint v)).isSome)) := by
  obtain ⟨w, hw, hnamed⟩ := (Option.any_eq_true _ _).mp
    (show (((logWorld 2 List.length sampleStore sampleRequests).run (logService ℕ)
      (fun _ _ _ _ _ ↦ true) [(0, .none), (1, .none), (0, .none), (1, .none), (0, .lost),
        (1, .none), (1, .none), (0, .none)]).any fun w ↦ w.shared.named = some 5) = true by
      decide)
  exact ⟨w, hw, of_decide_eq_true hnamed, hint_never_moves_backwards .refl (World.run_sound hw)⟩

end Runs

end LakeVilla.Checkpoint

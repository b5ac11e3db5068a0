import LakeVilla.Checkpoint.TableLog
import LakeVilla.Guarantees.NewestCheckpoint
import LakeVilla.Opening.Load

/-!
# Checkpoints made from checkpoints

A checkpoint is written of a snapshot that was itself loaded from an earlier checkpoint, with the
tombstones of that checkpoint left out that are too old. The invariant of all runs is that every
checkpoint stands for the versions up to its own: they are final, and what the checkpoint shows is
what their replay from version 0 shows (`TableLog.Stands`). Versions that are final stay as they
are, so a checkpoint that stands once stands forever.
-/

namespace LakeVilla.Checkpoint

open Concurrency Client Versioned Relation

/-! ## What the versions show -/

namespace TableLog

variable {s s' : TableLog} {v : ℕ} {lines : List LogLine} {rows : List CheckpointRow}

/-- The calls for some versions, one version after the other. -/
def calls (s : TableLog) (vs : List ℕ) : List (ℤ × Registration) :=
  vs.flatMap fun u : ℕ ↦ versionCalls u ((s.final u).getD [])

/-- What the versions up to `v` show when they are replayed from version 0. -/
def view (s : TableLog) (v : ℕ) : View :=
  (DeltaLogManager.performAll {} (s.calls (List.range' 0 (v + 1)))).view

/-- The versions are final. -/
def AllFinal (s : TableLog) (vs : List ℕ) : Prop := ∀ u ∈ vs, (s.final u).isSome

/-- All versions up to `v` are final. -/
def Complete (s : TableLog) (v : ℕ) : Prop := s.AllFinal (List.range' 0 (v + 1))

/-- A checkpoint stands for the versions up to its own. -/
structure Stands (s : TableLog) (v : ℕ) (rows : List CheckpointRow) : Prop where
  complete : s.Complete v
  view : (DeltaLogManager.performAll {} ((readDLCheckpointContent rows).calls v)).view = s.view v
  timed : ∀ e ∈ (readDLCheckpointContent rows).calls v, e.2.Timed

/-- A snapshot shows the versions up to `v`. -/
structure Shows (s : TableLog) (v : ℕ) (m : DeltaLogManager) : Prop where
  complete : s.Complete v
  view : m.view = s.view v
  sound : m.Sound

/-- **The invariant.** Adds have sizes and times, and every checkpoint stands for its versions. -/
structure Recorded (s : TableLog) : Prop where
  timed : ∀ v lines, s.final v = some lines → ∀ line ∈ lines, line.Timed
  stands : ∀ v rows, s.rows v = some rows → s.Stands v rows

/-- What no call undoes: final versions and checkpoints stay, and a changed version has a new
ETag. -/
structure Advance (s s' : TableLog) : Prop where
  final : ∀ v lines, s.final v = some lines → s'.final v = some lines
  rows : ∀ v rows, s.rows v = some rows → s'.rows v = some rows
  changed : ∀ v o, s'.versions.lookup v = some o →
    s.versions.lookup v = some o ∨ s.nextEtag < o.etag
  nextEtag : s.nextEtag ≤ s'.nextEtag

theorem final_eq_some : s.final v = some lines ↔
    ∃ etag, s.versions.lookup v = some ⟨.final lines, etag⟩ := by
  unfold final
  split
  · next h => simp [h]
  · next h => simpa using h lines

theorem rows_eq_some : s.rows v = some rows ↔
    ∃ etag, s.log.get (.checkpoint v) = some ⟨.rows rows, etag⟩ := by
  unfold TableLog.rows
  split
  · next h => simp [h]
  · next h => simpa using h rows

theorem mem_versionCalls {e : ℤ × Registration} (h : e ∈ versionCalls v lines) :
    e.1 = v ∧ ∃ line ∈ lines, e.2 ∈ line.registrations := by
  obtain ⟨r, hr, rfl⟩ := List.mem_map.mp h
  exact ⟨rfl, List.mem_flatMap.mp hr⟩

theorem mem_calls {vs : List ℕ} {e : ℤ × Registration} (h : e ∈ s.calls vs) :
    ∃ u ∈ vs, e ∈ versionCalls u ((s.final u).getD []) := List.mem_flatMap.mp h

theorem calls_cons (vs : List ℕ) :
    s.calls (v :: vs) = versionCalls v ((s.final v).getD []) ++ s.calls vs := List.flatMap_cons

theorem calls_append (vs vs' : List ℕ) : s.calls (vs ++ vs') = s.calls vs ++ s.calls vs' :=
  List.flatMap_append

/-- The versions may be read in any order. -/
theorem calls_perm {vs vs' : List ℕ} (h : vs.Perm vs') (hvs : vs.Nodup) :
    SameVersions (s.calls vs) (s.calls vs') := by
  refine .flatMap_perm h (hvs.imp fun hne e he e' he' heq ↦ hne ?_)
  rw [(mem_versionCalls he).1, (mem_versionCalls he').1] at heq
  exact Int.ofNat_inj.mp heq

theorem Recorded.timed_calls (h : s.Recorded) (vs : List ℕ) : ∀ e ∈ s.calls vs, e.2.Timed := by
  intro e he
  obtain ⟨u, -, he⟩ := mem_calls he
  obtain ⟨-, line, hline, hr⟩ := mem_versionCalls he
  cases hu : s.final u with
  | none => simp [hu] at hline
  | some lines =>
    rw [hu, Option.getD_some] at hline
    exact (h.timed u lines hu line hline).registrations _ hr

namespace Advance

variable (h : Advance s s')
include h

theorem allFinal {vs : List ℕ} (hvs : s.AllFinal vs) : s'.AllFinal vs := by
  intro u hu
  obtain ⟨lines, hlines⟩ := Option.isSome_iff_exists.mp (hvs u hu)
  exact Option.isSome_iff_exists.mpr ⟨lines, h.final u lines hlines⟩

theorem calls_eq {vs : List ℕ} (hvs : s.AllFinal vs) : s'.calls vs = s.calls vs := by
  refine List.flatMap_congr fun u hu ↦ ?_
  obtain ⟨lines, hlines⟩ := Option.isSome_iff_exists.mp (hvs u hu)
  rw [hlines, h.final u lines hlines]

theorem view_eq (hv : s.Complete v) : s'.view v = s.view v := by
  rw [view, view, h.calls_eq hv]

theorem stands (hs : s.Stands v rows) : s'.Stands v rows where
  complete := h.allFinal hs.complete
  view := hs.view.trans (h.view_eq hs.complete).symm
  timed := hs.timed

theorem shows {m : DeltaLogManager} (hs : s.Shows v m) : s'.Shows v m where
  complete := h.allFinal hs.complete
  view := hs.view.trans (h.view_eq hs.complete).symm
  sound := hs.sound

end Advance

theorem Advance.refl (s : TableLog) : Advance s s where
  final _ _ h := h
  rows _ _ h := h
  changed _ _ h := .inl h
  nextEtag := le_rfl

/-! ## Starting from a checkpoint -/

/-- A snapshot that shows the versions below `first`: an empty one, or that of a checkpoint. -/
inductive StartsAt (s : TableLog) : ℕ → DeltaLogManager → Prop
  | empty : StartsAt s 0 {}
  | checkpoint {c : ℕ} {rows : List CheckpointRow} (h : s.Stands c rows) :
    StartsAt s (c + 1) (.performAll {} ((readDLCheckpointContent rows).calls c))

theorem StartsAt.advance {first : ℕ} {m : DeltaLogManager} (h : s.StartsAt first m)
    (hadv : Advance s s') : s'.StartsAt first m := by
  induction h with
  | empty => exact .empty
  | checkpoint h => exact .checkpoint (hadv.stands h)

theorem until_calls (s : TableLog) (c : ℕ) :
    DeltaLogManager.Until c (.performAll {} (s.calls (List.range' 0 (c + 1)))) := by
  refine DeltaLogManager.until_performAll fun e he ↦ ?_
  obtain ⟨u, hu, he⟩ := mem_calls he
  rw [(mem_versionCalls he).1]
  rw [List.mem_range'_1] at hu
  omega

/-- **The versions after the start lead to the view of the whole log**, in whatever order the
threads read them. -/
theorem StartsAt.shows {first : ℕ} {m : DeltaLogManager} {read : List ℕ} (h : s.StartsAt first m)
    (hs : s.Recorded) (hle : first ≤ v + 1)
    (hread : read.Perm (List.range' first (v + 1 - first))) (hfinal : s.AllFinal read) :
    s.Shows v (m.performAll (s.calls read)) := by
  have hnodup : read.Nodup := hread.nodup_iff.mpr List.nodup_range'
  have hrest : s.AllFinal (List.range' first (v + 1 - first)) := fun u hu ↦
    hfinal u (hread.mem_iff.mpr hu)
  induction h with
  | empty =>
    refine ⟨hrest, DeltaLogManager.view_congr (calls_perm hread hnodup), ?_⟩
    exact DeltaLogManager.Sound.empty.performAll (hs.timed_calls read)
  | @checkpoint c rows h =>
    have hsplit : List.range' 0 (v + 1) =
        List.range' 0 (c + 1) ++ List.range' (c + 1) (v + 1 - (c + 1)) := by
      have happend := @List.range'_append 0 (c + 1) (v + 1 - (c + 1)) 1
      rw [Nat.zero_add, Nat.one_mul, Nat.add_sub_cancel' hle] at happend
      exact happend.symm
    rw [← DeltaLogManager.performAll_append]
    refine ⟨?_, ?_, DeltaLogManager.Sound.empty.performAll ?_⟩
    · rw [Complete, hsplit]
      exact List.forall_mem_append.mpr ⟨h.complete, hrest⟩
    · rw [DeltaLogManager.view_congr (.append (fun _ ↦ rfl) (calls_perm hread hnodup)), view,
        hsplit, calls_append, DeltaLogManager.performAll_append, DeltaLogManager.performAll_append]
      refine DeltaLogManager.view_resume h.view ?_ (until_calls s c) fun e he ↦ ?_
      · refine DeltaLogManager.until_performAll fun e he ↦ ?_
        obtain ⟨_, -, rfl⟩ := List.mem_map.mp he
        exact le_rfl
      · obtain ⟨u, hu, he⟩ := mem_calls he
        rw [(mem_versionCalls he).1]
        rw [List.mem_range'_1] at hu
        omega
    · exact List.forall_mem_append.mpr ⟨h.timed, hs.timed_calls read⟩

/-- What a checkpoint tells about a live file has a size and a time. -/
theorem timed_registrations {m : DeltaLogManager} (hm : m.Sound) (retentionStart now : ℤ)
    (protocol : Option Protocol) (metadata : Option Metadata) :
    ∀ r ∈ (CheckpointContent.reread now ⟨m.getEntries, m.getTombstones retentionStart,
      m.getTransactions, m.getDomainMetadata, protocol, metadata⟩).registrations, r.Timed := by
  intro r hr
  simp only [CheckpointContent.registrations, CheckpointContent.reread, List.mem_append,
    List.mem_map] at hr
  rcases hr with ((((⟨_, ⟨e, he, rfl⟩, rfl⟩ | ⟨_, -, rfl⟩) | ⟨_, -, rfl⟩) | ⟨_, -, rfl⟩) |
    ⟨_, -, rfl⟩) | ⟨_, -, rfl⟩
  · -- a live file
    obtain ⟨f, hf, hentry⟩ := List.mem_filterMap.mp he
    by_cases hadd : f.2.operation = .add
    · rw [if_pos hadd] at hentry
      obtain rfl := Option.some.inj hentry
      obtain ⟨hsize, htime⟩ := hm.live f hf hadd
      simp [CheckpointEntry.registration, CheckpointEntry.reread, Registration.Timed, hsize, htime,
        not_lt.mpr hsize, not_lt.mpr htime]
    · rw [if_neg hadd] at hentry
      cases hentry
  all_goals trivial

/-- A checkpoint of a snapshot that shows the versions up to `v` stands for them. -/
theorem Shows.stands {m : DeltaLogManager} {retentionStart now : ℤ} {content : CheckpointContent}
    (h : s.Shows v m) (hcontent : m.checkpointContent retentionStart = some content)
    (hrows : generateCheckpoint now content = some rows) : s.Stands v rows := by
  have hcalls : m.checkpointCalls v retentionStart now =
      some ((readDLCheckpointContent rows).calls v) := by
    rw [DeltaLogManager.checkpointCalls, hcontent]
    simp only [hrows, bind, Option.bind, pure]
  refine ⟨h.complete, (view_checkpoint h.sound hcalls).trans h.view, fun e he ↦ ?_⟩
  obtain ⟨protocol, metadata, -, -, hes⟩ := checkpointCalls_eq hcalls
  rw [hes] at he
  obtain ⟨r, hr, rfl⟩ := List.mem_map.mp he
  exact timed_registrations h.sound retentionStart now _ _ r hr

/-! ## Single calls -/

/-- With this ETag the version is a marker. -/
def Marked (s : TableLog) (v : ℕ) (etag : ETag) : Prop :=
  etag ≤ s.nextEtag ∧ ∀ o, s.versions.lookup v = some o → o.etag = etag → o.content = .marker

theorem Marked.advance {etag : ETag} (h : s.Marked v etag) (hadv : Advance s s') :
    s'.Marked v etag := by
  refine ⟨h.1.trans hadv.nextEtag, fun o ho he ↦ ?_⟩
  rcases hadv.changed v o ho with hold | hnew
  · exact h.2 o hold he
  · exact absurd (he ▸ hnew) h.1.not_gt

theorem lookup_putVersion (s : TableLog) (v u : ℕ) (c : VersionContent) :
    (s.putVersion v c).versions.lookup u =
      if u = v then some ⟨c, s.nextEtag + 1⟩ else s.versions.lookup u :=
  AssocList.lookup_insertOrAssign ..

theorem final_putVersion {u : ℕ} {c : VersionContent}
    (h : (s.putVersion v c).final u = some lines) :
    u = v ∧ c = .final lines ∨ s.final u = some lines := by
  obtain ⟨etag, ho⟩ := final_eq_some.mp h
  rw [lookup_putVersion] at ho
  split at ho
  · next hu =>
    obtain ⟨rfl, -⟩ := VersionObject.mk.inj (Option.some.inj ho)
    exact .inl ⟨hu, rfl⟩
  · exact .inr (final_eq_some.mpr ⟨etag, ho⟩)

/-- A version that is not final may be written. -/
theorem Advance.putVersion (hv : s.final v = none) (c : VersionContent) :
    Advance s (s.putVersion v c) where
  final u lines h := by
    obtain ⟨etag, ho⟩ := final_eq_some.mp h
    have hne : u ≠ v := by
      rintro rfl
      rw [hv] at h
      cases h
    exact final_eq_some.mpr ⟨etag, by rw [lookup_putVersion, if_neg hne, ho]⟩
  rows _ _ h := h
  changed u o ho := by
    rw [lookup_putVersion] at ho
    split at ho
    · obtain rfl := Option.some.inj ho
      exact .inr (Nat.lt_succ_self _)
    · exact .inl ho
  nextEtag := Nat.le_succ _

theorem Recorded.putVersion (h : s.Recorded) (hv : s.final v = none) {c : VersionContent}
    (hc : ∀ lines, c = .final lines → ∀ line ∈ lines, line.Timed) :
    (s.putVersion v c).Recorded where
  timed u lines hu := by
    rcases final_putVersion hu with ⟨-, hlines⟩ | hold
    · exact hc lines hlines
    · exact h.timed u lines hold
  stands u rows hu := (Advance.putVersion hv c).stands (h.stands u rows hu)

/-- A conditional write of a version. -/
theorem writeUnder_cases {f : Fault} {allowed : Bool} {rejected : WriteStatus} (s : TableLog)
    (v : ℕ) (c : VersionContent) :
    (s.writeUnder f allowed rejected v c).2 = s ∨
      allowed = true ∧ (s.writeUnder f allowed rejected v c).2 = s.putVersion v c := by
  unfold writeUnder
  cases f <;> cases allowed <;> simp

/-- A call about checkpoints that leaves those that are there. -/
theorem Advance.log {f : Fault} {c : LogCall}
    (h : ∀ v rows, s.rows v = some rows → (s.answerLog f c).2.rows v = some rows) :
    Advance s (s.answerLog f c).2 where
  final _ _ h := h
  rows := h
  changed _ _ h := .inl h
  nextEtag := le_rfl

theorem rows_answerLog {f : Fault} {c : LogCall} (h : c.created ≠ some v) :
    (s.answerLog f c).2.rows v = s.rows v := by
  have hget : (s.answerLog f c).2.log.get (.checkpoint v) = s.log.get (.checkpoint v) :=
    LogStore.answer_get h
  simp only [TableLog.rows, hget]

/-- The put-if-absent of a checkpoint. -/
theorem rows_writeAtomic {f : Fault} {u : ℕ} {rows rows' : List CheckpointRow} :
    (s.rows u = some rows' →
      (s.answerLog f (.writeAtomic (.checkpoint v) (.rows rows))).2.rows u = some rows') ∧
    ((s.answerLog f (.writeAtomic (.checkpoint v) (.rows rows))).2.rows u = some rows' →
      s.rows u = some rows' ∨ u = v ∧ rows' = rows) := by
  by_cases hu : u = v
  · subst hu
    rcases hw : s.log.writeUnder f (s.log.get (.checkpoint u)).isNone .alreadyExists
      (.checkpoint u) (.rows rows) with ⟨r, log'⟩
    have hlog : (s.answerLog f (.writeAtomic (.checkpoint u) (.rows rows))).2.log = log' :=
      congrArg Prod.snd hw
    rcases LogStore.writeUnder_cases hw.symm with ⟨hnone, -, rfl⟩ | ⟨-, rfl⟩
    · constructor
      · intro h
        obtain ⟨etag, ho⟩ := rows_eq_some.mp h
        rw [ho] at hnone
        cases hnone
      · intro h
        obtain ⟨etag, ho⟩ := rows_eq_some.mp h
        rw [hlog, LogStore.put_get_self] at ho
        exact .inr ⟨rfl, (LogContent.rows.inj (LogObject.mk.inj (Option.some.inj ho)).1).symm⟩
    · have hsame : (s.answerLog f (.writeAtomic (.checkpoint u) (.rows rows))).2.rows u =
          s.rows u := by
        simp only [TableLog.rows, hlog]
      rw [hsame]
      exact ⟨id, .inl⟩
  · have hcreated : (LogCall.writeAtomic (.checkpoint v) (.rows rows)).created ≠ some u := by
      simpa [LogCall.created] using Ne.symm hu
    rw [rows_answerLog hcreated]
    exact ⟨id, .inl⟩

end TableLog

/-! ## Every client keeps the invariant -/

/-- Every call keeps the invariant and undoes nothing. -/
def recording (I : Type) : Concurrency.Protocol I Unit TableResponse TableLog where
  inv s := s.Recorded
  guar _ _ _ s _ s' := TableLog.Advance s s'

section Clients

variable {I : Type} {base : ByteString} {i : I} {s s' : TableLog} {retries v : ℕ}

/-- A property that calls keep is kept by the other clients. -/
theorem recording_rely {K : TableLog → Prop} (hK : ∀ {s s'}, TableLog.Advance s s' → K s → K s')
    (h : (recording I).rely (tableSem I base) i s s') (hs : K s) : K s' := by
  induction h with
  | refl => exact hs
  | tail _ hstep ih =>
    obtain ⟨_, -, _, _, _, -, -, -, hadv⟩ := hstep
    exact hK hadv ih

theorem tableSem_eq {m : Unit} {c : TableCall} {r : TableResponse c}
    (h : tableSem I base i m c s r s') : ∃ d, (r, s') = s.answer base d c := by
  obtain ⟨⟨d, hd⟩, -⟩ := h
  exact ⟨d, (Option.some.inj hd).symm⟩

/-- Calls that write neither a version nor a checkpoint. -/
def TableCall.Writes : TableCall → Prop
  | .writeVersion _ _ => True
  | .replaceVersion _ _ _ => True
  | .log c => c.created ≠ none
  | _ => False

theorem keeps_of_not_writes {m : Unit} {c : TableCall} {r : TableResponse c} (hc : ¬c.Writes)
    (hs : s.Recorded) (h : tableSem I base i m c s r s') : s'.Recorded ∧ TableLog.Advance s s' := by
  obtain ⟨d, hd⟩ := tableSem_eq h
  cases c with
  | writeVersion v c => exact (hc trivial).elim
  | replaceVersion v c etag => exact (hc trivial).elim
  | log c =>
    obtain rfl : s' = (s.answerLog d.fault c).2 := congrArg Prod.snd hd
    have hcreated : ∀ v, c.created ≠ some v := fun v hv ↦ hc fun hn ↦ by
      rw [hn] at hv
      cases hv
    have hadv : TableLog.Advance s (s.answerLog d.fault c).2 := .log fun v rows h ↦ by
      rw [TableLog.rows_answerLog (hcreated v), h]
    refine ⟨⟨hs.timed, fun v rows h ↦ ?_⟩, hadv⟩
    rw [TableLog.rows_answerLog (hcreated v)] at h
    exact hadv.stands (hs.stands v rows h)
  | _ =>
    obtain rfl : s' = s := congrArg Prod.snd hd
    exact ⟨hs, .refl s'⟩

/-- A call that changes nothing: what holds of its answer holds later, if no call undoes it. -/
theorem wp_ask {c : TableCall} {G : TableResponse c → TableLog → Prop} (hc : ¬c.Writes)
    (hG : ∀ {r s s'}, TableLog.Advance s s' → G r s → G r s')
    (h : ∀ s d, s.Recorded → G (s.answer base d c).1 s) :
    wp (tableSem I base) (recording I) i (perform c : TableClient (TableResponse c)) ()
      (fun r _ s ↦ G r s) s := by
  refine wp_perform fun s₁ _ hs₁ r s₂ hs ↦ ?_
  obtain ⟨hrec, hadv⟩ := keeps_of_not_writes hc hs₁ hs
  obtain ⟨d, hd⟩ := tableSem_eq hs
  obtain ⟨rfl, -⟩ := Prod.mk.inj hd
  exact ⟨hrec, hadv, fun s₃ h₃ _ ↦ recording_rely hG h₃ (hG hadv (h s₁ d hs₁))⟩

/-- Some attempts of a call: what holds of the first answer holds of the result. -/
theorem wp_attempts {α : Type} {call : TableClient (Option α)} {G : α → TableLog → Prop}
    (hG : ∀ {a s s'}, TableLog.Advance s s' → G a s → G a s') (hs : s.Recorded)
    (hcall : ∀ s, s.Recorded → wp (tableSem I base) (recording I) i call ()
      (fun r _ s ↦ ∀ a ∈ r, G a s) s) (n : ℕ) :
    wp (tableSem I base) (recording I) i (attempts call n) () (fun r _ s ↦ ∀ a ∈ r, G a s) s := by
  induction n generalizing s with
  | zero => exact wp_pure fun _ _ _ _ ha ↦ by cases ha
  | succ n ih =>
    refine wp_bind hs (wp_mono (hcall s hs) fun r _ s₁ hs₁ hr ↦ ?_)
    cases r with
    | some a => exact wp_pure fun s₂ h₂ _ a' ha' ↦ recording_rely hG h₂ (hr a' ha')
    | none => exact ih hs₁

/-! ### Loading -/

/-- A version that was read as `o`: final lines stay, and a marker has this ETag alone. -/
def WasRead (v : ℕ) (o : VersionObject) (s : TableLog) : Prop :=
  (∀ lines, o.content = .final lines → s.final v = some lines) ∧
    (o.content = .marker → s.Marked v o.etag)

theorem WasRead.advance {o : VersionObject} (hadv : TableLog.Advance s s') (h : WasRead v o s) :
    WasRead v o s' :=
  ⟨fun lines hl ↦ hadv.final v lines (h.1 lines hl), fun hm ↦ (h.2 hm).advance hadv⟩

theorem wasRead_of_lookup {o : VersionObject} (h : s.versions.lookup v = some o) :
    WasRead v o s := by
  refine ⟨fun lines hl ↦ TableLog.final_eq_some.mpr ⟨o.etag, ?_⟩, fun hm ↦ ?_⟩
  · rw [h, ← hl]
  · refine ⟨s.etag_le v o h, fun o' ho' _ ↦ ?_⟩
    obtain rfl := Option.some.inj (h.symm.trans ho')
    exact hm

theorem ask_some {α : Type} {f : Fault} {x : Option α} {a : α} (h : a ∈ f.ask none x) :
    x = some a := by
  cases f with
  | none => exact h
  | failed => cases h
  | lost => cases h

theorem wp_readVersion (s : TableLog) (v : ℕ) :
    wp (tableSem I base) (recording I) i
      (perform (TableCall.readVersion v) : TableClient (Option VersionObject)) ()
      (fun r _ s ↦ ∀ o ∈ r, WasRead v o s) s := by
  refine wp_ask (c := .readVersion v) (G := fun r s ↦ ∀ o ∈ r, WasRead v o s) (fun h ↦ h)
    (fun hadv h o ho ↦ (h o ho).advance hadv) fun s d _ o ho ↦ ?_
  exact wasRead_of_lookup (ask_some ho)

/-- The loop body of a thread. -/
theorem wp_loadVersion (hs : s.Recorded) (v : ℕ) (m : DeltaLogManager) :
    wp (tableSem I base) (recording I) i (loadVersion retries v m) ()
      (fun r _ s ↦ ∀ m' ∈ r, ∃ lines, s.final v = some lines ∧
        m' = m.performAll (versionCalls v lines)) s := by
  refine wp_bind hs (wp_mono (wp_attempts (G := WasRead v) (fun hadv h ↦ h.advance hadv) hs
    (fun s _ ↦ wp_readVersion s v) retries) fun r _ s₁ _ hr ↦ ?_)
  split
  · next lines etag =>
    refine wp_pure fun s₂ h₂ _ m' hm' ↦ ?_
    obtain rfl := Option.some.inj hm'
    refine ⟨lines, ?_, rfl⟩
    exact recording_rely (K := fun s ↦ s.final v = some lines) (fun h ↦ h.final v lines) h₂
      ((hr _ rfl).1 lines rfl)
  · exact wp_pure fun _ _ _ _ hm' ↦ by cases hm'

/-- The threads stop when one has failed. -/
theorem wp_loadRanges_none (hs : s.Recorded) (fuel : ℕ) (ranges : List (List ℕ)) :
    wp (tableSem I base) (recording I) i (loadRanges retries fuel ranges none) ()
      (fun r _ _ ↦ r = none) s := by
  induction fuel generalizing s ranges with
  | zero => exact wp_pure fun _ _ _ ↦ rfl
  | succ fuel ih =>
    refine wp_bind hs (wp_mono (wp_ask (c := .schedule ranges.length) (G := fun _ _ ↦ True)
      (fun h ↦ h) (fun _ h ↦ h) fun _ _ _ ↦ trivial) fun j _ s₁ hs₁ _ ↦ ?_)
    split
    · next h => cases h
    · exact ih hs₁ _
    · exact wp_pure fun _ _ _ ↦ rfl

/-- What the threads have made of `m`: every version of the ranges is final and applied once. -/
def AppliedAll (ranges : List (List ℕ)) (m : DeltaLogManager) (r : Option DeltaLogManager)
    (s : TableLog) : Prop :=
  ∀ m' ∈ r, ∃ read, read.Perm ranges.flatten ∧ s.AllFinal read ∧ m' = m.performAll (s.calls read)

theorem wp_loadRanges_nil {ranges : List (List ℕ)} (h : ranges.flatten = []) (m : DeltaLogManager)
    (s : TableLog) : wp (tableSem I base) (recording I) i
      (pure (some m) : TableClient (Option DeltaLogManager)) ()
      (fun r _ s ↦ AppliedAll ranges m r s) s := by
  refine wp_pure fun s' _ _ m' hm' ↦ ?_
  obtain rfl := Option.some.inj hm'
  exact ⟨[], h ▸ .refl _, List.forall_mem_nil _, rfl⟩

/-- The threads together apply every version of the ranges once. -/
theorem wp_loadRanges {fuel : ℕ} {ranges : List (List ℕ)} {m : DeltaLogManager} (hs : s.Recorded)
    (hne : ∀ r ∈ ranges, r ≠ []) (hfuel : ranges.flatten.length ≤ fuel) :
    wp (tableSem I base) (recording I) i (loadRanges retries fuel ranges (some m)) ()
      (fun r _ s ↦ AppliedAll ranges m r s) s := by
  induction fuel generalizing s ranges m with
  | zero => exact wp_loadRanges_nil (List.eq_nil_of_length_eq_zero (Nat.le_zero.mp hfuel)) m s
  | succ fuel ih =>
    refine wp_bind hs (wp_mono (wp_ask (c := .schedule ranges.length)
      (G := fun j _ ↦ 0 < ranges.length → j < ranges.length) (fun h ↦ h) (fun _ h ↦ h)
      fun _ d _ ↦ Nat.mod_lt d.pick) fun j _ s₁ hs₁ hj ↦ ?_)
    split
    · next v rest m heq hm =>
      obtain rfl := Option.some.inj hm
      obtain ⟨l₁, l₂, rfl, rfl⟩ := List.exists_append_of_getElem? heq
      have hperm := Opening.flatten_advance l₁ l₂ v rest
      have hlen := hperm.length_eq
      rw [List.length_cons] at hlen
      refine wp_bind hs₁ (wp_mono (wp_loadVersion hs₁ v m) fun r _ s₂ hs₂ hr ↦ ?_)
      cases r with
      | none =>
        refine wp_mono (wp_loadRanges_none hs₂ _ _) fun r _ s₃ _ hnone m' hm' ↦ ?_
        rw [hnone] at hm'
        cases hm'
      | some m₁ =>
        obtain ⟨lines, hlines, rfl⟩ := hr m₁ rfl
        -- the version that was read stays as it is
        refine wp_mono (wp_always (K := fun s ↦ s.final v = some lines)
          (fun hact hv ↦ hact.2.2.2.final v lines hv)
          (ih hs₂ (Opening.nonempty_advance hne) (by omega)) hs₂ hlines) fun r _ s₃ _ hr ↦ ?_
        intro m' hm'
        obtain ⟨read, hread, hfinal, rfl⟩ := hr.1 m' hm'
        refine ⟨v :: read, (hread.cons v).trans hperm.symm, ?_, ?_⟩
        · exact List.forall_mem_cons.mpr ⟨Option.isSome_iff_exists.mpr ⟨lines, hr.2⟩, hfinal⟩
        · rw [TableLog.calls_cons, hr.2, Option.getD_some, DeltaLogManager.performAll_append]
    · next h => cases h
    · next h _ =>
      refine wp_loadRanges_nil ?_ m s₁
      rw [Opening.eq_nil_of_no_thread hne hj fun v rest heq ↦ h v rest m heq rfl]
      rfl

theorem newestCheckpoint_le {keys : List ByteString} {maxVersion : ℕ} {info : CheckpointInfo}
    (h : newestCheckpoint keys maxVersion = .ok info) : info.version.all (· ≤ maxVersion) := by
  have hkeys : ∀ key ∈ keys, ¬TooLarge key := by
    intro key hkey hlarge
    obtain ⟨e, he⟩ := newestCheckpoint_tooLarge hkey hlarge maxVersion
    cases he.symm.trans h
  rcases newestCheckpoint_ok hkeys maxVersion with ⟨hresult, -⟩ | ⟨w, m, hresult, hw, -, -⟩
  · obtain rfl := Except.ok.inj (hresult.symm.trans h)
    rfl
  · obtain rfl := Except.ok.inj (hresult.symm.trans h)
    simpa using hw

theorem wp_readVersioned (s : TableLog) (k : LogKey) {G : LogObject → TableLog → Prop}
    (hG : ∀ {o s s'}, TableLog.Advance s s' → G o s → G o s')
    (h : ∀ s o, s.Recorded → s.log.get k = some o → G o s) :
    wp (tableSem I base) (recording I) i (onLog (readVersioned k)) ()
      (fun r _ s ↦ ∀ o ∈ r, G o s) s := by
  have hwrites : ¬(TableCall.log (.readVersioned k)).Writes := by simp [TableCall.Writes,
    LogCall.created]
  exact wp_ask (c := .log (.readVersioned k)) (G := fun r s ↦ ∀ o ∈ r, G o s) hwrites
    (fun hadv h o ho ↦ hG hadv (h o ho)) fun s d hs o ho ↦ h s o hs (ask_some ho)

theorem wp_findCheckpoint (hs : s.Recorded) (maxVersion : ℕ) :
    wp (tableSem I base) (recording I) i (findCheckpoint retries maxVersion) ()
      (fun r _ _ ↦ r.version.all (· ≤ maxVersion)) s := by
  refine wp_bind hs (wp_mono (Q := fun _ _ _ ↦ True) ?_ fun hint _ s₁ hs₁ _ ↦ ?_)
  · refine wp_bind hs (wp_mono (wp_ask (c := .checkLastCheckpoint) (G := fun _ _ ↦ True)
      (fun h ↦ h) (fun _ h ↦ h) fun _ _ _ ↦ trivial) fun r _ s₁ hs₁ _ ↦ ?_)
    refine wp_ite (fun _ ↦ wp_bind hs₁ (wp_mono (wp_attempts (G := fun _ _ ↦ True) (fun _ h ↦ h)
      hs₁ (fun s _ ↦ wp_readVersioned s .lastCheckpoint (fun _ h ↦ h) fun _ _ _ _ ↦ trivial)
      retries) fun _ _ _ _ _ ↦ wp_pure fun _ _ _ ↦ trivial)) fun _ ↦ wp_pure fun _ _ _ ↦ trivial
  · refine wp_ite (fun hle ↦ wp_pure fun _ _ _ ↦ hle) fun _ ↦ ?_
    refine wp_bind hs₁ (wp_mono (wp_attempts (G := fun _ _ ↦ True) (fun _ h ↦ h) hs₁
      (fun s _ ↦ wp_ask (c := .listObjects) (G := fun r _ ↦ ∀ o ∈ r, True) (fun h ↦ h)
        (fun _ h ↦ h) fun _ _ _ _ _ ↦ trivial) retries) fun r _ s₂ hs₂ _ ↦ ?_)
    split
    · exact wp_pure fun _ _ _ ↦ rfl
    · split
      · next h => exact wp_pure fun _ _ _ ↦ newestCheckpoint_le h
      · exact wp_diverge

theorem CheckpointInfo.next_eq {info : CheckpointInfo} (h : info.version.all (· ≤ v))
    (hv : v + 1 < 2 ^ 32) : info.next = info.version.elim 0 (· + 1) ∧ info.next ≤ v + 1 := by
  unfold next
  cases hc : info.version with
  | none => exact ⟨rfl, Nat.zero_le _⟩
  | some c =>
    rw [hc, Option.all_some, decide_eq_true_eq] at h
    have hle : c + 1 ≤ v + 1 := Nat.succ_le_succ h
    have hmod : (c + 1) % 2 ^ 32 = c + 1 := Nat.mod_eq_of_lt (hle.trans_lt hv)
    exact ⟨hmod, hmod.trans_le hle⟩

theorem wp_parseCheckpoint (hs : s.Recorded) (info : CheckpointInfo) :
    wp (tableSem I base) (recording I) i (parseCheckpoint retries info) ()
      (fun r _ s ↦ ∀ m ∈ r, s.StartsAt (info.version.elim 0 (· + 1)) m) s := by
  unfold parseCheckpoint
  split
  · next hnone =>
    refine wp_pure fun _ _ _ m hm ↦ ?_
    obtain rfl := Option.some.inj hm
    rw [hnone]
    exact .empty
  · next c hsome =>
    rw [hsome]
    refine wp_ite (fun _ ↦ wp_pure fun _ _ _ m hm ↦ by cases hm) fun _ ↦ ?_
    let G (o : LogObject) (s : TableLog) : Prop := ∀ rows, o.content = .rows rows → s.Stands c rows
    refine wp_bind hs (wp_mono (wp_attempts (G := G)
      (fun hadv h rows hrows ↦ hadv.stands (h rows hrows)) hs
      (fun s _ ↦ wp_readVersioned s (.checkpoint c)
        (fun hadv h rows hrows ↦ hadv.stands (h rows hrows)) fun s o hs ho rows hrows ↦ ?_)
      retries) fun r _ s₁ _ hr ↦ ?_)
    · exact hs.stands c rows (TableLog.rows_eq_some.mpr ⟨o.etag, by rw [ho, ← hrows]⟩)
    · split
      · next rows etag =>
        refine wp_pure fun s₂ h₂ _ m hm ↦ ?_
        obtain rfl := Option.some.inj hm
        exact .checkpoint (recording_rely (fun hadv h ↦ hadv.stands h) h₂ (hr _ rfl rows rfl))
      · exact wp_pure fun _ _ _ m hm ↦ by cases hm

/-- **A snapshot that was loaded shows its versions.** -/
theorem wp_loadSnapshot (hs : s.Recorded) (hv : v + 1 < 2 ^ 32) :
    wp (tableSem I base) (recording I) i (loadSnapshot retries v) ()
      (fun r _ s ↦ ∀ m ∈ r, s.Shows v m) s := by
  refine wp_bind hs (wp_mono (wp_findCheckpoint hs v) fun info _ s₁ hs₁ hle ↦ ?_)
  refine wp_bind hs₁ (wp_mono (wp_parseCheckpoint hs₁ info) fun r _ s₂ hs₂ hr ↦ ?_)
  cases r with
  | none => exact wp_pure fun _ _ _ m hm ↦ by cases hm
  | some m =>
    obtain ⟨hnext, hfirst⟩ := CheckpointInfo.next_eq hle hv
    have hstart := hr m rfl
    rw [← hnext] at hstart
    dsimp only
    rw [Nat.mod_eq_of_lt hv]
    refine wp_mono (wp_always (K := fun s ↦ s.StartsAt info.next m)
      (fun hact h ↦ h.advance hact.2.2.2)
      (wp_loadRanges hs₂ (splitRange_nonempty _ _ _) le_rfl) hs₂ hstart) fun r _ s₃ hs₃ hr ↦ ?_
    intro m' hm'
    obtain ⟨read, hread, hfinal, rfl⟩ := hr.1 m' hm'
    rw [splitRange_flatten] at hread
    exact hr.2.shows hs₃ hfirst hread hfinal

/-! ### Writing -/

/-- What follows the write of a checkpoint only reads and writes the hint. -/
theorem never_created_updateLastCheckpoint (version : ℕ) (last : LastCheckpoint) (n : ℕ) :
    Never (fun c ↦ c.created ≠ none) (updateLastCheckpoint version last n) := by
  induction n with
  | zero => exact .pure _
  | succ n ih =>
    refine .bind (.perform (by simp [LogCall.created])) fun content ↦ .ite (.pure _) (.bind ?_ ?_)
    · unfold writeLastCheckpoint
      split <;> exact .perform (by simp [LogCall.created])
    · exact fun status ↦ .ite (.pure _) ih

variable {parquetSize : List CheckpointRow → ℕ}

theorem wp_writeCheckpoint_onLog (hs : s.Recorded) {r : Request}
    (hr : s.Shows r.version r.deltaLog) :
    wp (tableSem I base) (recording I) i (onLog (writeCheckpoint retries parquetSize r)) ()
      (fun _ _ _ ↦ True) s := by
  have hpure : ∀ s, wp (tableSem I base) (recording I) i
      (onLog (pure false : LogClient Bool)) () (fun _ _ _ ↦ True) s := fun s ↦
    wp_pure fun _ _ _ ↦ trivial
  unfold writeCheckpoint
  split
  · exact hpure s
  · next content hcontent =>
    split
    · exact hpure s
    · next rows hrows =>
      rw [onLog, lift_bind]
      refine wp_bind hs (wp_perform fun s₁ h₁ hs₁ status s₂ hsem ↦ ?_)
      obtain ⟨d, hd⟩ := tableSem_eq hsem
      obtain rfl : s₂ = (s₁.answerLog d.fault (.writeAtomic (.checkpoint r.version)
        (.rows rows))).2 := congrArg Prod.snd hd
      have hadv : TableLog.Advance s₁ (s₁.answerLog d.fault (.writeAtomic (.checkpoint r.version)
          (.rows rows))).2 := .log fun v rows' h ↦ TableLog.rows_writeAtomic.1 h
      have hnew := hadv.stands ((recording_rely (fun hadv h ↦ hadv.shows h) h₁ hr).stands
        hcontent hrows)
      refine ⟨⟨hs₁.timed, fun v rows' h ↦ ?_⟩, hadv, fun s₃ _ _ ↦ ?_⟩
      · rcases TableLog.rows_writeAtomic.2 h with hold | ⟨rfl, rfl⟩
        · exact hadv.stands (hs₁.stands v rows' hold)
        · exact hnew
      · refine wp_of_never (A := TableCall.Writes) (Never.lift ?_) fun hc hs h ↦
          keeps_of_not_writes hc hs h
        exact .ite (never_created_updateLastCheckpoint _ _ _) (.pure _)

theorem wp_checkpointAfterCommit (hs : s.Recorded) (optionInterval : ℕ)
    (metadata : Option Metadata) (hv : v + 1 < 2 ^ 32) (retentionStart now : ℤ) :
    wp (tableSem I base) (recording I) i (checkpointAfterCommit retries parquetSize optionInterval
      metadata v retentionStart now) () (fun _ _ _ ↦ True) s := by
  refine wp_ite (fun _ ↦ wp_pure fun _ _ _ ↦ trivial) fun _ ↦ ?_
  refine wp_bind hs (wp_mono (wp_loadSnapshot hs hv) fun r _ s₁ hs₁ hr ↦ ?_)
  cases r with
  | none => exact wp_pure fun _ _ _ ↦ trivial
  | some deltaLog =>
    refine wp_bind hs₁ (wp_mono (wp_writeCheckpoint_onLog hs₁ (hr deltaLog rfl)) fun _ _ _ _ _ ↦ ?_)
    exact wp_pure fun _ _ _ ↦ trivial

/-- A conditional write of a version that is not final. -/
theorem wp_putVersion {c : TableCall} {content : VersionContent}
    (hc : ∀ lines, content = .final lines → ∀ line ∈ lines, line.Timed)
    (h : ∀ s₁ d, (recording I).rely (tableSem I base) i s s₁ → s₁.Recorded →
      (s₁.answer base d c).2 = s₁ ∨
        s₁.final v = none ∧ (s₁.answer base d c).2 = s₁.putVersion v content) :
    wp (tableSem I base) (recording I) i (perform c : TableClient (TableResponse c)) ()
      (fun _ _ _ ↦ True) s := by
  refine wp_perform fun s₁ h₁ hs₁ r s₂ hsem ↦ ?_
  obtain ⟨d, hd⟩ := tableSem_eq hsem
  obtain rfl : s₂ = (s₁.answer base d c).2 := congrArg Prod.snd hd
  rcases h s₁ d h₁ hs₁ with hsame | ⟨hfinal, hput⟩
  · rw [hsame]
    exact ⟨hs₁, .refl s₁, fun _ _ _ ↦ trivial⟩
  · rw [hput]
    exact ⟨hs₁.putVersion hfinal hc, .putVersion hfinal content, fun _ _ _ ↦ trivial⟩

theorem final_of_lookup_none (h : (s.versions.lookup v).isNone = true) : s.final v = none := by
  rw [TableLog.final, Option.isNone_iff_eq_none.mp h]

/-- Only an absent version is written at once. -/
theorem wp_writeVersion (s : TableLog) {content : VersionContent}
    (hc : ∀ lines, content = .final lines → ∀ line ∈ lines, line.Timed) :
    wp (tableSem I base) (recording I) i
      (perform (TableCall.writeVersion v content) : TableClient WriteStatus) ()
      (fun _ _ _ ↦ True) s := by
  refine wp_putVersion (v := v) (c := .writeVersion v content) hc fun s₁ d _ _ ↦ ?_
  rcases TableLog.writeUnder_cases s₁ v content with hsame | ⟨hnone, hput⟩
  · exact .inl hsame
  · exact .inr ⟨final_of_lookup_none hnone, hput⟩

/-- Only a marker is replaced. -/
theorem wp_replaceVersion {etag : ETag} {content : VersionContent} (hmarked : s.Marked v etag)
    (hc : ∀ lines, content = .final lines → ∀ line ∈ lines, line.Timed) :
    wp (tableSem I base) (recording I) i
      (perform (TableCall.replaceVersion v content etag) : TableClient WriteStatus) ()
      (fun _ _ _ ↦ True) s := by
  refine wp_putVersion (v := v) (c := .replaceVersion v content etag) hc fun s₁ d h₁ _ ↦ ?_
  rcases TableLog.writeUnder_cases s₁ v content with hsame | ⟨hmatch, hput⟩
  · exact .inl hsame
  · refine .inr ⟨?_, hput⟩
    have hm := recording_rely (K := fun s ↦ s.Marked v etag) (fun hadv h ↦ h.advance hadv) h₁
      hmarked
    obtain ⟨o, ho, he⟩ := (Option.any_eq_true _ _).mp hmatch
    have hmarker := hm.2 o ho (of_decide_eq_true he)
    refine Option.eq_none_iff_forall_not_mem.mpr fun lines hl ↦ ?_
    obtain ⟨etag', ho'⟩ := TableLog.final_eq_some.mp hl
    rw [ho] at ho'
    obtain rfl := Option.some.inj ho'
    cases hmarker

theorem wp_finishVersion (hs : s.Recorded) {lines : List LogLine}
    (hl : ∀ line ∈ lines, line.Timed) :
    wp (tableSem I base) (recording I) i (finishVersion v lines) () (fun _ _ _ ↦ True) s := by
  have hc : ∀ lines', VersionContent.final lines = .final lines' →
      ∀ line ∈ lines', line.Timed := fun lines' h ↦ VersionContent.final.inj h ▸ hl
  have hpure : ∀ s, wp (tableSem I base) (recording I) i (pure () : TableClient Unit) ()
      (fun _ _ _ ↦ True) s := fun _ ↦ wp_pure fun _ _ _ ↦ trivial
  refine wp_bind hs (wp_mono (wp_readVersion s v) fun r _ s₁ hs₁ hr ↦ ?_)
  split
  · next etag =>
    exact wp_bind hs₁ (wp_mono (wp_replaceVersion ((hr _ rfl).2 rfl) hc) fun _ _ s _ _ ↦ hpure s)
  · exact hpure s₁
  · exact wp_bind hs₁ (wp_mono (wp_writeVersion s₁ hc) fun _ _ s _ _ ↦ hpure s)

/-! ### Tasks -/

/-- Versions have 32 bits, and the adds of a version have sizes and times. -/
def Task.Fits : Task → Prop
  | .reserve _ => True
  | .finish _ lines => ∀ line ∈ lines, line.Timed
  | .checkpoint _ _ version _ _ => version + 1 < 2 ^ 32
  | .load version => version + 1 < 2 ^ 32

theorem Task.wp_perform (hs : s.Recorded) {task : Task} (h : task.Fits) :
    wp (tableSem I base) (recording I) i (task.perform retries parquetSize) ()
      (fun r _ s ↦ ∀ e ∈ r, s.Shows e.1 e.2) s := by
  have hnone : ∀ s, wp (tableSem I base) (recording I) i
      (pure none : TableClient (Option (ℕ × DeltaLogManager))) ()
      (fun r _ s ↦ ∀ e ∈ r, s.Shows e.1 e.2) s := fun _ ↦ wp_pure fun _ _ _ e he ↦ by cases he
  cases task with
  | reserve v =>
    exact wp_bind hs (wp_mono (wp_writeVersion s fun _ h ↦ by cases h) fun _ _ s _ _ ↦ hnone s)
  | finish v lines =>
    exact wp_bind hs (wp_mono (wp_finishVersion hs h) fun _ _ s _ _ ↦ hnone s)
  | checkpoint optionInterval metadata version retentionStart now =>
    exact wp_bind hs (wp_mono (wp_checkpointAfterCommit hs optionInterval metadata h retentionStart
      now) fun _ _ s _ _ ↦ hnone s)
  | load version =>
    refine wp_bind hs (wp_mono (wp_loadSnapshot hs h) fun r _ s₁ _ hr ↦ ?_)
    refine wp_pure fun s₂ h₂ _ e he ↦ ?_
    obtain ⟨m, hm, rfl⟩ := Option.map_eq_some_iff.mp he
    exact recording_rely (fun hadv h ↦ hadv.shows h) h₂ (hr m hm)

theorem wp_performTasks (hs : s.Recorded) {tasks : List Task} (h : ∀ task ∈ tasks, task.Fits) :
    wp (tableSem I base) (recording I) i (performTasks retries parquetSize tasks) ()
      (fun r _ s ↦ ∀ e ∈ r, s.Shows e.1 e.2) s := by
  induction tasks generalizing s with
  | nil => exact wp_pure fun _ _ _ e he ↦ by cases he
  | cons task tasks ih =>
    refine wp_bind hs (wp_mono (Task.wp_perform hs (h task List.mem_cons_self))
      fun r _ s₁ hs₁ hr ↦ ?_)
    refine wp_bind hs₁ (wp_mono (wp_always (K := fun s ↦ ∀ e ∈ r, s.Shows e.1 e.2)
      (fun hact h e he ↦ hact.2.2.2.shows (h e he))
      (ih hs₁ fun task ht ↦ h task (List.mem_cons_of_mem _ ht)) hs₁ hr) fun rs _ s₂ _ hrs ↦ ?_)
    refine wp_pure fun s₃ h₃ _ e he ↦ recording_rely (fun hadv h ↦ hadv.shows h) h₃ ?_
    rcases List.mem_append.mp he with he | he
    · exact hrs.2 e (Option.mem_toList.mp he)
    · exact hrs.1 e he

end Clients

/-! ## Runs -/

section Runs

variable {I : Type} [DecidableEq I] {base : ByteString} {retries : ℕ}
  {parquetSize : List CheckpointRow → ℕ} {s : TableLog} {tasks : I → List Task}
  {w : World I Unit TableResponse TableLog (List (ℕ × DeltaLogManager) × Unit)}

omit [DecidableEq I] in
theorem recording_safe (hs : s.Recorded) (htasks : ∀ i, ∀ task ∈ tasks i, task.Fits) :
    Safe (tableSem I base) (recording I) (fun _ r s ↦ ∀ e ∈ r.1, s.Shows e.1 e.2)
      (tableWorld retries parquetSize s tasks) :=
  ⟨hs, fun i ↦ wp_performTasks hs (htasks i)⟩

/-- **Checkpoints made from checkpoints stay right.** Let clients reserve versions, make them final,
load snapshots and write checkpoints of snapshots that they have loaded, with their calls in any
order, and let any calls fail or lose their response. Then every checkpoint stands for the versions
up to its own, and every snapshot that was loaded shows what a replay of its versions from version
0 shows. -/
theorem checkpoints_stand (hs : s.Recorded) (htasks : ∀ i, ∀ task ∈ tasks i, task.Fits)
    (h : Reachable (tableSem I base) (tableWorld retries parquetSize s tasks) w) :
    (∀ v rows, w.shared.rows v = some rows → w.shared.Complete v ∧
      (DeltaLogManager.performAll {} ((readDLCheckpointContent rows).calls v)).view =
        w.shared.view v) ∧
      ∀ i loaded, w.client i = .ret (loaded, ()) → ∀ e ∈ loaded,
        w.shared.Complete e.1 ∧ e.2.view = w.shared.view e.1 := by
  have hsafe := (recording_safe hs htasks).reachable h
  refine ⟨fun v rows hrows ↦ ?_, fun i loaded hi e he ↦ ?_⟩
  · have hstands := hsafe.shared.stands v rows hrows
    exact ⟨hstands.complete, hstands.view⟩
  · have hshows := hsafe.ret hi e he
    exact ⟨hshows.complete, hshows.view⟩

/-- Two final versions and no checkpoint. -/
def sampleTable : TableLog where
  versions := [(0, ⟨.final (sampleLog.getD 0 []), 1⟩), (1, ⟨.final (sampleLog.getD 1 []), 2⟩)]
  nextEtag := 2
  etag_le v o h := by
    have hmem := AssocList.mem_of_lookup h
    simp only [List.mem_cons, List.not_mem_nil, or_false, Prod.mk.injEq] at hmem
    rcases hmem with ⟨-, rfl⟩ | ⟨-, rfl⟩ <;> decide
  log := ⟨fun _ ↦ none, 0, fun _ _ h ↦ by cases h⟩
  checkpoints := []
  mem_checkpoints _ := by simp

theorem sampleTable_recorded : sampleTable.Recorded where
  timed v lines h := by
    obtain ⟨etag, ho⟩ := TableLog.final_eq_some.mp h
    have hmem := AssocList.mem_of_lookup ho
    simp only [sampleTable, List.mem_cons, List.not_mem_nil, or_false, Prod.mk.injEq,
      VersionObject.mk.injEq, VersionContent.final.injEq] at hmem
    rcases hmem with ⟨-, rfl, -⟩ | ⟨-, rfl, -⟩ <;>
      simp [sampleLog, LogLine.Timed, AddAction.Timed]
  stands v rows h := by
    obtain ⟨etag, ho⟩ := TableLog.rows_eq_some.mp h
    cases ho

/-- Client 0 writes checkpoints of the versions 1 and 2; client 1 commits version 2 and loads it. -/
def sampleTasks (i : ℕ) : List Task :=
  match i with
  | 0 => [.checkpoint 1 none 1 0 100, .checkpoint 1 none 2 0 200]
  | 1 => [.reserve 2, .finish 2 (sampleLog.getD 2 []), .load 2]
  | _ => []

theorem sampleTasks_fit (i : ℕ) : ∀ task ∈ sampleTasks i, task.Fits := by
  unfold sampleTasks
  split
  · simp [Task.Fits]
  · simp [Task.Fits, sampleLog, LogLine.Timed, AddAction.Timed]
  · exact List.forall_mem_nil _

/-- The response to the commit of version 2 is lost. -/
def sampleSchedule : List (ℕ × TableChoice) :=
  let client (i : ℕ) : ℕ × TableChoice := (i, { fault := .none })
  [client 1] ++ List.replicate 8 (client 0) ++ [client 1, (1, { fault := .lost })] ++
    List.replicate 8 (client 0) ++ List.replicate 3 (client 1)

/-- The client has ended and has loaded version 2. -/
def sampleEnd : Program Unit TableResponse (List (ℕ × DeltaLogManager) × Unit) → Bool
  | .ret ([(2, _)], _) => true
  | _ => false

theorem sampleEnd_eq_true {c : Program Unit TableResponse (List (ℕ × DeltaLogManager) × Unit)}
    (h : sampleEnd c = true) : ∃ m, c = .ret ([(2, m)], ()) := by
  unfold sampleEnd at h
  split at h
  · next m _ => exact ⟨m, rfl⟩
  · cases h

/-- Client 1 loads version 2 from a checkpoint that was made from a checkpoint. -/
theorem checkpoints_stand_sample :
    ∃ w m, (tableWorld 2 List.length sampleTable sampleTasks).run (tableService ℕ [])
        (fun _ _ _ _ _ ↦ true) sampleSchedule = some w ∧
      ((w.shared.rows 1).isSome ∧ (w.shared.rows 2).isSome ∧ w.client 1 = .ret ([(2, m)], ())) ∧
      (∀ v rows, w.shared.rows v = some rows → w.shared.Complete v ∧
        (DeltaLogManager.performAll {} ((readDLCheckpointContent rows).calls v)).view =
          w.shared.view v) ∧
        ∀ i loaded, w.client i = .ret (loaded, ()) → ∀ e ∈ loaded,
          w.shared.Complete e.1 ∧ e.2.view = w.shared.view e.1 := by
  obtain ⟨w, hw, hdone⟩ := (Option.any_eq_true _ _).mp
    (show (((tableWorld 2 List.length sampleTable sampleTasks).run (tableService ℕ [])
      (fun _ _ _ _ _ ↦ true) sampleSchedule).any fun w ↦
        (w.shared.rows 1).isSome && (w.shared.rows 2).isSome && sampleEnd (w.client 1)) = true by
      decide +kernel)
  simp only [Bool.and_eq_true] at hdone
  obtain ⟨m, hclient⟩ := sampleEnd_eq_true hdone.2
  exact ⟨w, m, hw, ⟨hdone.1.1, hdone.1.2, hclient⟩,
    checkpoints_stand sampleTable_recorded sampleTasks_fit (World.run_sound hw)⟩

end Runs

end LakeVilla.Checkpoint

import LakeVilla.Guarantees.NewTable
import LakeVilla.Tables.DropTable

/-!
# Interrupted drops

A drop may stop after any of its calls, calls may fail or lose their response, and a drop may be
tried again. What is left is no damaged table as long as a data file is only deleted when no reader
can start anymore, and it is recognized as a table as long as the last object of the log is deleted
after all other objects.
-/

namespace LakeVilla.Tables

open ByteString Concurrency
open Checkpoint (CheckpointInfo checkpointFiles newestCheckpoint)
open DeltaLog (logDir)
open Schema (Except.bind_eq_ok)

/-! ## Objects -/

/-- The keys of the objects. -/
def Objects.keys (objects : Objects) : List ByteString := objects.map (·.1)

variable {objects objects' : Objects} {key base : ByteString}

theorem Objects.mem_keys_erase {k : ByteString} :
    k ∈ (objects.erase key).keys ↔ k ∈ objects.keys ∧ k ≠ key := by
  simp only [keys, erase, List.mem_map, List.mem_filter, decide_eq_true_eq]
  constructor
  · rintro ⟨o, ⟨ho, hne⟩, rfl⟩
    exact ⟨⟨o, ho, rfl⟩, hne⟩
  · rintro ⟨⟨o, ho, rfl⟩, hne⟩
    exact ⟨o, ⟨ho, hne⟩, rfl⟩

theorem Objects.mem_list {pre k : ByteString} :
    k ∈ objects.list pre ↔ k ∈ objects.keys ∧ pre <+: k := by
  simp [list, keys, List.isPrefixOf_iff_prefix]

theorem Objects.mem_list_erase {pre k : ByteString} :
    k ∈ (objects.erase key).list pre ↔ k ∈ objects.list pre ∧ k ≠ key := by
  rw [mem_list, mem_list, mem_keys_erase, and_right_comm]

theorem Objects.mem_keys_of_lookup {c : ObjectContent} (h : objects.lookup key = some c) :
    key ∈ objects.keys := List.mem_map.mpr ⟨(key, c), AssocList.mem_of_lookup h, rfl⟩

/-! ## Readers -/

/-- A reader can start: version 0 is there, or all files of some checkpoint. -/
def Startable (base : ByteString) (objects : Objects) : Prop :=
  version0 base ∈ objects.keys ∨
    ∃ version parts, ∀ file ∈ checkpointFiles base version parts, file ∈ objects.keys

theorem Startable.mono (h : ∀ k ∈ objects.keys, k ∈ objects'.keys)
    (hstart : Startable base objects) : Startable base objects' := by
  rcases hstart with hzero | ⟨version, parts, hfiles⟩
  · exact .inl (h _ hzero)
  · exact .inr ⟨version, parts, fun file hfile ↦ h _ (hfiles file hfile)⟩

section Load

variable {reads : Reads} {log log' : Keys.DeltaLogManager} {maxVersion : Option ℕ}

theorem mem_keys_of_readRetry {c : ObjectContent} (h : readRetry reads objects key = some c) :
    key ∈ objects.keys := by
  unfold readRetry at h
  split_ifs at h
  exact Objects.mem_keys_of_lookup h

/-- All files of a checkpoint that was read are there. -/
theorem mem_keys_of_parseCheckpoint {files : List ByteString} {version : ℤ}
    (h : files.foldlM (fun log file ↦
      match readRetry reads objects file with
      | some (.checkpoint actions) => some (log.replay version actions)
      | _ => none) log = some log') : ∀ file ∈ files, file ∈ objects.keys := by
  induction files generalizing log with
  | nil => exact fun _ h ↦ absurd h List.not_mem_nil
  | cons file files ih =>
    rw [List.foldlM_cons] at h
    obtain ⟨log₁, hfile, h⟩ := Option.bind_eq_some_iff.mp h
    intro file' hfile'
    rcases List.mem_cons.mp hfile' with rfl | hfile'
    · split at hfile
      · next hread => exact mem_keys_of_readRetry hread
      · cases hfile
    · exact ih h file' hfile'

/-- The log is read from version 0 on, if there is anything to read. -/
theorem version0_of_parseLogEntries {n : ℕ}
    (h : parseLogEntries reads base objects maxVersion (List.range' 0 n) log = some log') :
    log' = log ∨ version0 base ∈ objects.keys := by
  cases n with
  | zero =>
    cases h
    exact .inl rfl
  | succ n =>
    right
    rw [parseLogEntries, List.range'_succ, List.foldlM_cons] at h
    obtain ⟨log₁, hzero, -⟩ := Option.bind_eq_some_iff.mp h
    have hmax : maxVersion.all (0 ≤ ·) = true := by
      cases maxVersion <;> simp
    rw [if_pos hmax] at hzero
    cases hread : readRetry reads objects (logPath base 0) with
    | none =>
      rw [hread] at hzero
      cases hzero
    | some c => exact mem_keys_of_readRetry hread

/-- **A snapshot that is loaded without a start has no files.** -/
theorem getList_of_not_startable (hstart : ¬Startable base objects)
    (h : loadTable reads base objects maxVersion = .ok (some log)) : log.getList = [] := by
  unfold loadTable at h
  obtain ⟨start, -, h⟩ := Except.bind_eq_ok.mp h
  split at h
  · cases h
  · cases h
  · next highest checkpoint =>
    obtain ⟨log₁, hcheckpoint, hlogs⟩ := Option.bind_eq_some_iff.mp (Except.ok.inj h)
    unfold parseCheckpoint at hcheckpoint
    cases hversion : checkpoint.version with
    | some version =>
      rw [hversion] at hcheckpoint
      exact absurd (.inr ⟨version, checkpoint.parts, mem_keys_of_parseCheckpoint hcheckpoint⟩) hstart
    | none =>
      rw [hversion] at hcheckpoint hlogs
      obtain rfl := Option.some.inj hcheckpoint
      rcases version0_of_parseLogEntries hlogs with rfl | hzero
      · rfl
      · exact absurd (.inl hzero) hstart

end Load

/-! ## Drops -/

inductive DropStep
  /-- a client begins with a drop; an earlier one may have been interrupted -/
  | begin (answers : Answers)
  /-- a call of the loop -/
  | delete (fault : Fault)

/-- Any number of drops of the table, interrupted anywhere. -/
def dropMachine (settings : Settings) (base : ByteString) (objects₀ : Objects) :
    Machine Drop DropStep where
  init s := s = { objects := objects₀ }
  action
    | .begin answers => {
        guard := fun s ↦ answers.objects = none ∨ answers.objects = some (s.objects.list base)
        effect := fun s ↦
          { objects := s.objects
            keys := match beginDrop settings answers base with
              | .ok keys => keys
              | .error _ => [] } }
    | .delete fault => {
        guard := fun s ↦ s.keys ≠ []
        effect := fun s ↦ s.delete settings.storageRetries fault }

/-- Every file that is not part of the log is still there, or no reader can start; and the table is
recognized as one, or nothing of it is left. -/
structure Sound (base : ByteString) (objects₀ objects : Objects) : Prop where
  files : Startable base objects → ∀ k ∈ objects₀.keys, isLog base k = false → k ∈ objects.keys
  recognizable : (∃ k ∈ objects.list base, isLog base k) ∨ objects.list base = []

/-- The order of the deletes, as far as a reader and a later drop need it: a data file goes only
when no reader can start, and an object of the log only if another one or no data file stands. -/
def InOrder (base : ByteString) (objects : Objects) (key : ByteString) : Prop :=
  if isLog base key then
    (∃ k ∈ objects.list base, k ≠ key ∧ isLog base k) ∨ ∀ k ∈ objects.list base, isLog base k
  else ¬Startable base objects

/-- The condition on a step: a delete that takes effect is in order. -/
def Orderly (base : ByteString) : DropStep → Drop → Prop
  | .begin _, _ => True
  | .delete .failed, _ => True
  | .delete _, s => ∀ key ∈ s.keys.head?, InOrder base s.objects key

section Drops

variable {s : Drop} {objects₀ : Objects} {settings : Settings} {fault : Fault}

theorem Sound.erase (h : Sound base objects₀ objects) (hkey : InOrder base objects key) :
    Sound base objects₀ (objects.erase key) := by
  have hsub : ∀ k ∈ (objects.erase key).keys, k ∈ objects.keys := fun k hk ↦
    (Objects.mem_keys_erase.mp hk).1
  unfold InOrder at hkey
  split_ifs at hkey with hlog
  · constructor
    · intro hstart k hk hdata
      refine Objects.mem_keys_erase.mpr ⟨h.files (hstart.mono hsub) k hk hdata, ?_⟩
      rintro rfl
      rw [hlog] at hdata
      exact absurd hdata.symm Bool.false_ne_true
    · rcases hkey with ⟨k, hk, hne, hklog⟩ | hall
      · exact .inl ⟨k, Objects.mem_list_erase.mpr ⟨hk, hne⟩, hklog⟩
      · cases hleft : (objects.erase key).list base with
        | nil => exact .inr rfl
        | cons k _ =>
          have hk : k ∈ (objects.erase key).list base := hleft ▸ List.mem_cons_self
          exact .inl ⟨k, List.mem_cons_self, hall k (Objects.mem_list_erase.mp hk).1⟩
  · refine ⟨fun hstart ↦ absurd (hstart.mono hsub) hkey, ?_⟩
    rcases h.recognizable with ⟨k, hk, hklog⟩ | hempty
    · refine .inl ⟨k, Objects.mem_list_erase.mpr ⟨hk, ?_⟩, hklog⟩
      rintro rfl
      exact hlog hklog
    · right
      refine List.eq_nil_iff_forall_not_mem.mpr fun k hk ↦ ?_
      exact List.not_mem_nil (hempty ▸ (Objects.mem_list_erase.mp hk).1)

/-- What a call does to the objects. -/
theorem Drop.delete_objects (storageRetries : ℕ) (s : Drop) (fault : Fault) :
    (s.delete storageRetries fault).objects = s.objects ∨
      fault ≠ .failed ∧ ∃ key ∈ s.keys.head?,
        (s.delete storageRetries fault).objects = s.objects.erase key := by
  unfold Drop.delete
  cases hkeys : s.keys with
  | nil => exact .inl rfl
  | cons key keys =>
    cases fault with
    | none => exact .inr ⟨nofun, key, rfl, rfl⟩
    | failed =>
      left
      simp only [deleteFile, Bool.false_eq_true, if_false]
      split_ifs <;> rfl
    | lost =>
      refine .inr ⟨nofun, key, rfl, ?_⟩
      simp only [deleteFile, Bool.false_eq_true, if_false]
      split_ifs <;> rfl

theorem Sound.delete (h : Sound base objects₀ s.objects) (hC : Orderly base (.delete fault) s)
    (storageRetries : ℕ) : Sound base objects₀ (s.delete storageRetries fault).objects := by
  rcases s.delete_objects storageRetries fault with hsame | ⟨hfault, key, hkey, herase⟩
  · exact hsame ▸ h
  · refine herase ▸ h.erase ?_
    cases fault with
    | none => exact hC key hkey
    | failed => exact absurd rfl hfault
    | lost => exact hC key hkey

/-- **Every state that orderly steps lead to is sound.** -/
theorem Sound.of_reaches (hlog : ∃ k ∈ objects₀.list base, isLog base k)
    (h : (dropMachine settings base objects₀).Reaches (Orderly base) s) :
    Sound base objects₀ s.objects := by
  refine h.invariant (P := fun s ↦ Sound base objects₀ s.objects) ?_ ?_
  · rintro _ rfl
    exact ⟨fun _ k hk _ ↦ hk, .inl hlog⟩
  · rintro (answers | fault) s hs hC -
    · exact hs
    · exact hs.delete hC _

end Drops

/-! ## The next drop -/

/-- No call on the global log fails. -/
structure Answers.Succeed (answers : Answers) : Prop where
  locked : answers.locked = true
  text : answers.update.text ≠ none
  write : answers.update.write 0 = true

section NextDrop

variable {settings : Settings} {answers : Answers} {s : Drop} {keys : List ByteString}

theorem removeGlobalEntry_of_succeed (h : answers.Succeed) :
    removeGlobalEntry settings answers base = .ok () := by
  unfold removeGlobalEntry
  split_ifs with hlog hlocked hupdate
  · rfl
  · rw [h.locked] at hlocked
    cases hlocked
  · obtain ⟨text, htext⟩ := Option.ne_none_iff_exists'.mp h.text
    obtain ⟨n, hn⟩ := Nat.exists_eq_add_of_le' settings.one_le
    simp only [GlobalLog.updateGlobalEntry, htext, hn, GlobalLog.writeAttempts, h.write,
      if_true] at hupdate
    split_ifs at hupdate <;> cases hupdate
  · rfl

/-- A drop whose deletes succeed. -/
theorem Drop.run_replicate (storageRetries : ℕ) {n : ℕ} (hn : s.keys.length ≤ n) :
    (Drop.run storageRetries s (List.replicate n .none)).failed = s.failed ∧
      (Drop.run storageRetries s (List.replicate n .none)).keys = [] ∧
      ∀ k, k ∈ (Drop.run storageRetries s (List.replicate n .none)).objects.keys ↔
        k ∈ s.objects.keys ∧ k ∉ s.keys := by
  induction n generalizing s with
  | zero =>
    have hkeys : s.keys = [] := List.eq_nil_of_length_eq_zero (Nat.le_zero.mp hn)
    exact ⟨rfl, hkeys, fun k ↦ by simp [Drop.run, hkeys]⟩
  | succ n ih =>
    obtain ⟨objects, keys, attempt, failed⟩ := s
    cases keys with
    | nil => exact ih (s := ⟨objects, [], attempt, failed⟩) (Nat.zero_le n)
    | cons key keys =>
      have hrun := ih (s := ⟨objects.erase key, keys, 0, failed⟩) (Nat.le_of_succ_le_succ hn)
      refine ⟨hrun.1, hrun.2.1, fun k ↦ (hrun.2.2 k).trans ?_⟩
      rw [Objects.mem_keys_erase, List.mem_cons, not_or, and_assoc]

theorem beginDrop_of_succeed (hobjects : answers.objects = some keys)
    (hlog : ∃ k ∈ keys, isLog base k) (h : answers.Succeed) :
    beginDrop settings answers base = .ok (keys.mergeSort (deleteOrder base)) := by
  have hany : keys.any (isLog base) = true := List.any_eq_true.mpr hlog
  rw [beginDrop, hobjects]
  simp only [hany, Bool.not_true, Bool.false_eq_true, if_false, removeGlobalEntry_of_succeed h]
  rfl

/-- **The next drop completes an interrupted one**, if what is left is recognized as a table. -/
theorem dropTable_completes {path : ByteString} {n : ℕ} (hpath : tablePrefix path = some base)
    (hobjects : answers.objects = some (objects.list base)) (hanswers : answers.Succeed)
    (hn : (objects.list base).length ≤ n)
    (h : (∃ k ∈ objects.list base, isLog base k) ∨ objects.list base = []) :
    let (result, s) := dropTable settings answers path objects (List.replicate n .none)
    (result = .ok () ∨ ∃ e, result = .error e ∧ e.result = .notFound) ∧
      s.objects.list base = [] := by
  rcases h with hlog | hempty
  · simp only [dropTable, hpath, beginDrop_of_succeed hobjects hlog hanswers]
    obtain ⟨hfailed, -, hkeys⟩ := Drop.run_replicate settings.storageRetries
      (s := { objects := objects, keys := (objects.list base).mergeSort (deleteOrder base) })
      (by simpa using hn)
    refine ⟨.inl (by rw [Drop.result, hfailed, if_neg (not_not.mpr rfl)]), ?_⟩
    refine List.eq_nil_iff_forall_not_mem.mpr fun k hk ↦ ?_
    obtain ⟨hk, hpre⟩ := Objects.mem_list.mp hk
    obtain ⟨hk, hnot⟩ := (hkeys k).mp hk
    exact hnot (List.mem_mergeSort.mpr (Objects.mem_list.mpr ⟨hk, hpre⟩))
  · simp only [dropTable, hpath, beginDrop, hobjects, hempty]
    exact ⟨.inr ⟨_, rfl, rfl⟩, hempty⟩

end NextDrop

/-! ## Deletes that do not keep failing -/

theorem rank_eq_three : rank base key = 3 ↔ isLog base key = false := by
  unfold rank
  cases isLog base key with
  | false => simp
  | true =>
    simp only [Bool.not_true, Bool.false_eq_true, if_false]
    split_ifs <;> decide

theorem isLog_append (base name : ByteString) : isLog base (base ++ (logDir ++ name)) = true :=
  List.isPrefixOf_iff_prefix.mpr ⟨name, List.append_assoc base logDir name⟩

theorem rank_version0 : rank base (version0 base) ≤ 2 := by
  unfold rank
  rw [version0, isLog_append]
  simp only [Bool.not_true, Bool.false_eq_true, if_false, if_true]
  split_ifs <;> decide

/-- The files of a checkpoint are part of the log, and their names say what they are. -/
theorem mem_checkpointFiles {version parts : ℕ} {file : ByteString}
    (h : file ∈ checkpointFiles base version parts) :
    ∃ name, file = base ++ (logDir ++ name) ∧ ascii ".checkpoint." <:+: name := by
  unfold checkpointFiles at h
  split_ifs at h
  · refine ⟨_, List.mem_singleton.mp h, padded 20 version, ascii "parquet", ?_⟩
    rw [DeltaLog.logFileName, List.append_assoc]
    rfl
  · obtain ⟨i, -, rfl⟩ := List.mem_map.mp h
    refine ⟨_, rfl, padded 20 version, padded 10 (i + 1) ++ ascii "." ++ padded 10 parts ++
      ascii ".parquet", ?_⟩
    simp only [DeltaLog.logFileName, Checkpoint.partSuffix, List.append_assoc]

theorem rank_checkpointFile {version parts : ℕ} {file : ByteString}
    (h : file ∈ checkpointFiles base version parts) : rank base file ≤ 1 := by
  obtain ⟨name, rfl, hname⟩ := mem_checkpointFiles h
  have hinfix : ascii ".checkpoint." <:+: base ++ (logDir ++ name) :=
    hname.trans ((List.suffix_append logDir name).trans (List.suffix_append base _)).isInfix
  unfold rank
  rw [isLog_append]
  simp only [Bool.not_true, Bool.false_eq_true, if_false, hinfix, if_true]
  split_ifs <;> decide

/-- A reader that can start needs an object that is deleted before the data files. -/
theorem Startable.exists_rank (h : Startable base objects) :
    ∃ k ∈ objects.list base, rank base k ≤ 2 := by
  rcases h with hzero | ⟨version, parts, hfiles⟩
  · exact ⟨_, Objects.mem_list.mpr ⟨hzero, List.prefix_append _ _⟩, rank_version0⟩
  · have hne : checkpointFiles base version parts ≠ [] := by
      unfold checkpointFiles
      split_ifs with hparts
      · exact List.cons_ne_nil _ _
      · simpa using by omega
    obtain ⟨file, hfile⟩ := List.exists_mem_of_ne_nil _ hne
    obtain ⟨name, hname, -⟩ := mem_checkpointFiles hfile
    exact ⟨file, Objects.mem_list.mpr ⟨hfiles file hfile, hname ▸ List.prefix_append _ _⟩,
      (rank_checkpointFile hfile).trans one_le_two⟩

theorem deleteOrder_iff {a b : ByteString} :
    deleteOrder base a b = true ↔
      rank base a < rank base b ∨ rank base a = rank base b ∧ a ≤ b := by
  unfold deleteOrder
  split_ifs with hne
  · simp [hne]
  · simp [not_not.mp hne]

theorem pairwise_deleteOrder (base : ByteString) (keys : List ByteString) :
    (keys.mergeSort (deleteOrder base)).Pairwise fun a b ↦ rank base a ≤ rank base b := by
  have hsorted : (keys.mergeSort (deleteOrder base)).Pairwise (deleteOrder base · · = true) := by
    apply List.pairwise_mergeSort
    · intro a b c hab hbc
      rw [deleteOrder_iff] at hab hbc ⊢
      rcases hab with hab | ⟨hab, hle⟩ <;> rcases hbc with hbc | ⟨hbc, hle'⟩
      · exact .inl (hab.trans hbc)
      · exact .inl (hbc ▸ hab)
      · exact .inl (hab ▸ hbc)
      · exact .inr ⟨hab.trans hbc, le_trans hle hle'⟩
    · intro a b
      rw [Bool.or_eq_true, deleteOrder_iff, deleteOrder_iff]
      rcases Nat.lt_trichotomy (rank base a) (rank base b) with hlt | heq | hgt
      · exact .inl (.inl hlt)
      · rcases le_total a b with hle | hle
        · exact .inl (.inr ⟨heq, hle⟩)
        · exact .inr (.inr ⟨heq.symm, hle⟩)
      · exact .inr (.inl hgt)
  refine hsorted.imp fun {a b} hab ↦ ?_
  rcases deleteOrder_iff.mp hab with hlt | ⟨heq, -⟩
  · exact hlt.le
  · exact heq.le

/-- No delete keeps failing: there is another attempt. -/
def Persists (settings : Settings) : DropStep → Drop → Prop
  | .begin _, _ => True
  | .delete .none, _ => True
  | .delete _, s => s.attempt + 1 < settings.storageRetries

/-- In a drop whose deletes do not keep failing, every object that is left is still to be deleted,
and while a data file is left, so is an object of the log that is deleted last. -/
structure Ordered (base : ByteString) (s : Drop) : Prop where
  sorted : s.keys.Pairwise fun a b ↦ rank base a ≤ rank base b
  remaining : s.keys ≠ [] → ∀ k ∈ s.objects.list base, k ∈ s.keys
  last : (∃ k ∈ s.objects.list base, rank base k = 4) ∨ ∀ k ∈ s.objects.list base, isLog base k

section Persists

variable {s : Drop} {keys : List ByteString} {objects₀ : Objects} {settings : Settings}
  {fault : Fault}

theorem Ordered.rank_le (h : Ordered base s) (hkeys : s.keys = key :: keys) :
    ∀ k ∈ s.objects.list base, rank base key ≤ rank base k := by
  intro k hk
  have hmem : k ∈ key :: keys := hkeys ▸ h.remaining (hkeys ▸ List.cons_ne_nil key keys) k hk
  rcases List.mem_cons.mp hmem with rfl | hmem
  · exact le_rfl
  · exact (List.pairwise_cons.mp (hkeys ▸ h.sorted)).1 k hmem

/-- While one of the objects that are deleted last is there, so is it or only such are left. -/
theorem Ordered.last_of_head (h : Ordered base s) (hkeys : s.keys = key :: keys) :
    (∃ k ∈ s.objects.list base, k ≠ key ∧ rank base k = 4) ∨
      ∀ k ∈ s.objects.list base, isLog base k := by
  rcases h.last with ⟨k, hk, hrank⟩ | hall
  · by_cases hne : k = key
    · subst hne
      refine .inr fun k' hk' ↦ ?_
      have hle := h.rank_le hkeys k' hk'
      by_contra hlog
      have hthree := rank_eq_three.mpr (Bool.eq_false_of_not_eq_true hlog)
      omega
    · exact .inl ⟨k, hk, hne, hrank⟩
  · exact .inr hall

theorem Ordered.inOrder (h : Ordered base s) (hkeys : s.keys = key :: keys) :
    InOrder base s.objects key := by
  unfold InOrder
  split_ifs with hlog
  · rcases h.last_of_head hkeys with ⟨k, hk, hne, hrank⟩ | hall
    · refine .inl ⟨k, hk, hne, ?_⟩
      by_contra hnot
      have hthree := rank_eq_three.mpr (Bool.eq_false_of_not_eq_true hnot)
      omega
    · exact .inr hall
  · intro hstart
    obtain ⟨k, hk, hrank⟩ := hstart.exists_rank
    have hthree := rank_eq_three.mpr (Bool.eq_false_of_not_eq_true hlog)
    have hle := h.rank_le hkeys k hk
    omega

theorem Ordered.erase (h : Ordered base s) (hkeys : s.keys = key :: keys) :
    (∃ k ∈ (s.objects.erase key).list base, rank base k = 4) ∨
      ∀ k ∈ (s.objects.erase key).list base, isLog base k := by
  rcases h.last_of_head hkeys with ⟨k, hk, hne, hrank⟩ | hall
  · exact .inl ⟨k, Objects.mem_list_erase.mpr ⟨hk, hne⟩, hrank⟩
  · exact .inr fun k hk ↦ hall k (Objects.mem_list_erase.mp hk).1

theorem Ordered.delete (h : Ordered base s) (hC : Persists settings (.delete fault) s) :
    Ordered base (s.delete settings.storageRetries fault) := by
  unfold Drop.delete
  cases hkeys : s.keys with
  | nil => exact h
  | cons key keys =>
    have hsorted := hkeys ▸ h.sorted
    have hremaining := hkeys ▸ h.remaining (hkeys ▸ List.cons_ne_nil key keys)
    cases fault with
    | none =>
      refine ⟨hsorted.of_cons, fun _ k hk ↦ ?_, h.erase hkeys⟩
      obtain ⟨hk, hne⟩ := Objects.mem_list_erase.mp hk
      exact (List.mem_cons.mp (hremaining k hk)).resolve_left hne
    | failed =>
      simp only [deleteFile, Bool.false_eq_true, if_false, if_pos (show _ < _ from hC)]
      exact ⟨hsorted, fun _ ↦ hremaining, h.last⟩
    | lost =>
      simp only [deleteFile, Bool.false_eq_true, if_false, if_pos (show _ < _ from hC)]
      exact ⟨hsorted, fun _ k hk ↦ hremaining k (Objects.mem_list_erase.mp hk).1, h.erase hkeys⟩

theorem beginDrop_eq_ok {answers : Answers} (h : beginDrop settings answers base = .ok keys) :
    ∃ listed, answers.objects = some listed ∧ keys = listed.mergeSort (deleteOrder base) := by
  unfold beginDrop at h
  cases hobjects : answers.objects with
  | none => simp [hobjects] at h
  | some listed =>
    simp only [hobjects] at h
    split_ifs at h
    · exact absurd h fail_ne_ok
    · exact absurd h fail_ne_ok
    · obtain ⟨_, -, hkeys⟩ := Except.bind_eq_ok.mp h
      exact ⟨listed, rfl, (Except.ok.inj hkeys).symm⟩

/-- **A drop whose deletes do not keep failing takes orderly steps only**, if some object of the log
is deleted last. -/
theorem orderly_of_persists (hlast : ∃ k ∈ objects₀.list base, rank base k = 4)
    (h : (dropMachine settings base objects₀).Reaches (Persists settings) s) :
    (dropMachine settings base objects₀).Reaches (Orderly base) s := by
  refine (h.invariant (P := fun s ↦
    (dropMachine settings base objects₀).Reaches (Orderly base) s ∧ Ordered base s) ?_ ?_).1
  · rintro _ rfl
    exact ⟨.init rfl, .nil, fun hne ↦ absurd rfl hne, .inl hlast⟩
  · rintro (answers | fault) s ⟨hs, hordered⟩ hC hguard
    · refine ⟨hs.step (l := .begin answers) trivial ⟨hguard, rfl⟩, ?_⟩
      change Ordered base { objects := s.objects, keys := match beginDrop settings answers base with
        | .ok keys => keys
        | .error _ => [] }
      cases hbegin : beginDrop settings answers base with
      | error e => exact ⟨.nil, fun hne ↦ absurd rfl hne, hordered.last⟩
      | ok keys =>
        obtain ⟨listed, hobjects, rfl⟩ := beginDrop_eq_ok hbegin
        obtain rfl : listed = s.objects.list base := by
          rcases hguard with hnone | hsome
          · rw [hnone] at hobjects
            cases hobjects
          · exact Option.some.inj (hobjects.symm.trans hsome)
        exact ⟨pairwise_deleteOrder base _, fun _ k hk ↦ List.mem_mergeSort.mpr hk, hordered.last⟩
    · refine ⟨hs.step (l := .delete fault) ?_ ⟨hguard, rfl⟩, hordered.delete hC⟩
      have hhead : ∀ key ∈ s.keys.head?, InOrder base s.objects key := by
        intro key hkey
        obtain ⟨keys, hkeys⟩ := List.head?_eq_some_iff.mp hkey
        exact hordered.inOrder hkeys
      cases fault with
      | none => exact hhead
      | failed => trivial
      | lost => exact hhead

end Persists

/-! ## Interrupted drops of small tables -/

def samplePath : ByteString := ascii "t/"

/-- Version 0 with a file -/
def oneVersion : Objects :=
  [(version0 samplePath, .log [⟨ascii "part", .add, 1⟩]), (ascii "t/part", .other)]

def dropSettings : Settings := ⟨ascii "global.log", 1, le_rfl⟩

/-- A drop that finds the objects; no call on the global log fails. -/
def dropAnswers (objects : Objects) : Answers where
  objects := some (objects.list samplePath)
  globalLog := true
  locked := true
  update := ⟨true, some [], fun _ ↦ true⟩
  writeAtomic _ := .ok
  read2 _ := none

def allReads : Reads := ⟨fun _ ↦ true, true, id⟩

theorem dropAnswers_succeed (objects : Objects) : (dropAnswers objects).Succeed :=
  ⟨rfl, nofun, rfl⟩

/-- A table whose objects are listed in the order of the deletes. -/
theorem beginDrop_dropAnswers {objects : Objects}
    (hlog : ∃ k ∈ objects.list samplePath, isLog samplePath k)
    (hsorted : (objects.list samplePath).Pairwise (deleteOrder samplePath · · = true)) :
    beginDrop dropSettings (dropAnswers objects) samplePath = .ok (objects.list samplePath) := by
  rw [beginDrop_of_succeed rfl hlog (dropAnswers_succeed objects),
    List.mergeSort_of_pairwise hsorted]

theorem dropTable_oneVersion (faults : List Fault) :
    (dropTable dropSettings (dropAnswers oneVersion) samplePath oneVersion faults).2 =
      Drop.run 1 { objects := oneVersion, keys := oneVersion.keys } faults := by
  have hbegin : beginDrop dropSettings (dropAnswers oneVersion) samplePath =
      .ok (oneVersion.list samplePath) := beginDrop_dropAnswers (by decide) (by decide)
  have hlist : oneVersion.list samplePath = oneVersion.keys := by decide
  rw [dropTable, show tablePrefix samplePath = some samplePath by decide]
  simp only [hbegin, hlist]
  rfl

/-- Version 0 stays, and the file goes; or version 0 goes, and the drop stops there. -/
theorem damaged_drop :
    let drop (objects : Objects) (faults : List Fault) : Except Failure Unit × Drop :=
      dropTable dropSettings (dropAnswers objects) samplePath objects faults
    let kept := (drop oneVersion [.failed, .none]).2.objects
    let stopped := (drop oneVersion [.none]).2.objects
    ((∃ log, loadTable allReads samplePath kept none = .ok (some log) ∧
        ascii "part" ∈ log.getList) ∧ ascii "t/part" ∈ oneVersion.keys ∧
        ascii "t/part" ∉ kept.keys) ∧
      (∃ e, (drop stopped [.none, .none]).1 = .error e ∧ e.result = .notEmpty) ∧
      (drop stopped [.none, .none]).2.objects.list samplePath ≠ [] := by
  simp only [dropTable_oneVersion]
  have hkept : (Drop.run 1 { objects := oneVersion, keys := oneVersion.keys }
      [.failed, .none]).objects = oneVersion.take 1 := by decide
  have hstopped : (Drop.run 1 { objects := oneVersion, keys := oneVersion.keys }
      [.none]).objects = oneVersion.drop 1 := by decide
  have hload : ∃ log, loadTable allReads samplePath (oneVersion.take 1) none = .ok (some log) ∧
      ascii "part" ∈ log.getList := by
    have hfiles : (loadTable allReads samplePath (oneVersion.take 1) none).map
        (Option.map Keys.DeltaLogManager.getList) = .ok (some [ascii "part"]) := by
      decide +kernel
    cases hload : loadTable allReads samplePath (oneVersion.take 1) none with
    | error e =>
      rw [hload] at hfiles
      cases hfiles
    | ok loaded =>
      rw [hload] at hfiles
      obtain ⟨log, rfl, hlog⟩ := Option.map_eq_some_iff.mp (Except.ok.inj hfiles)
      exact ⟨log, rfl, hlog ▸ List.mem_singleton_self _⟩
  rw [hkept, hstopped]
  exact ⟨⟨hload, by decide, by decide⟩, ⟨_, rfl, rfl⟩, by decide⟩

/-- **An interrupted drop leaves no damaged table**, and the next drop completes it, in every state
that orderly steps lead to. A data file is an object of the table that is not part of its log. -/
theorem interrupted_drop_sound {settings : Settings} {objects₀ : Objects} {s : Drop}
    (hlog : ∃ k ∈ objects₀.list base, isLog base k)
    (h : (dropMachine settings base objects₀).Reaches (Orderly base) s) :
    (∀ reads maxVersion log, loadTable reads base s.objects maxVersion = .ok (some log) →
      ∀ path ∈ log.getList, base ++ path ∈ objects₀.keys → isLog base (base ++ path) = false →
        base ++ path ∈ s.objects.keys) ∧
    ∀ settings answers path n, tablePrefix path = some base →
      answers.objects = some (s.objects.list base) → answers.Succeed →
      (s.objects.list base).length ≤ n →
        let (result, s') := dropTable settings answers path s.objects (List.replicate n .none)
        (result = .ok () ∨ ∃ e, result = .error e ∧ e.result = .notFound) ∧
          s'.objects.list base = [] := by
  obtain ⟨hfiles, hrecognizable⟩ := Sound.of_reaches hlog h
  constructor
  · intro reads maxVersion log hload path hpath hkey hdata
    refine hfiles ?_ _ hkey hdata
    by_contra hstart
    exact List.not_mem_nil (getList_of_not_startable hstart hload ▸ hpath)
  · intro settings answers path n hpath hobjects hanswers hn
    exact dropTable_completes hpath hobjects hanswers hn hrecognizable

/-- Another version, which adds nothing -/
def twoVersions : Objects := oneVersion ++ [(logPath samplePath 1, .log [])]

/-- The drop stops after the delete of version 0, and the next one completes it. -/
theorem interrupted_drop_sound_twoVersions :
    (∀ reads maxVersion log,
      loadTable reads samplePath (twoVersions.drop 1) maxVersion = .ok (some log) →
        ∀ path ∈ log.getList, samplePath ++ path ∈ twoVersions.keys →
          isLog samplePath (samplePath ++ path) = false →
            samplePath ++ path ∈ Objects.keys (twoVersions.drop 1)) ∧
    let (result, s) := dropTable dropSettings (dropAnswers (twoVersions.drop 1)) samplePath
      (twoVersions.drop 1) (List.replicate 2 .none)
    (result = .ok () ∨ ∃ e, result = .error e ∧ e.result = .notFound) ∧
      s.objects.list samplePath = [] := by
  have hbegin : beginDrop dropSettings (dropAnswers twoVersions) samplePath =
      .ok (twoVersions.list samplePath) := beginDrop_dropAnswers (by decide) (by decide)
  let M := dropMachine dropSettings samplePath twoVersions
  have hinit : M.Reaches (Persists dropSettings) { objects := twoVersions } := .init rfl
  have hlisted : M.Reaches (Persists dropSettings)
      { objects := twoVersions, keys := twoVersions.list samplePath } :=
    hinit.step (l := .begin (dropAnswers twoVersions)) trivial
      ⟨.inr rfl, by simp only [M, dropMachine, hbegin]⟩
  have hdeleted : M.Reaches (Persists dropSettings)
      { objects := twoVersions.drop 1, keys := (twoVersions.list samplePath).drop 1 } :=
    hlisted.step (l := .delete .none) trivial ⟨by decide, by rfl⟩
  obtain ⟨hfiles, hnext⟩ := interrupted_drop_sound (by decide)
    (orderly_of_persists (by decide) hdeleted)
  exact ⟨hfiles, hnext dropSettings (dropAnswers (twoVersions.drop 1)) samplePath 2 (by decide) rfl
    (dropAnswers_succeed _) (by decide)⟩

end LakeVilla.Tables

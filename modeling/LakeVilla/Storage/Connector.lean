import LakeVilla.Concurrency.Program
import LakeVilla.Data.AssocList
import LakeVilla.DeltaLog.Content

/-!
# The object store

`Connector.hpp` is the interface between LakeVilla and an object store: reads, put-if-absent
(`write_atomic`), put-if-match (`write_if_match`), plain writes, deletes, listings and the store's
clock. `perform` follows `MemoryConnector.cpp`, the connector of the repository's own tests: every
call is one atomic step, every write gives the object a new ETag, and a call may fail.

The store keeps a journal of all changes; only the newest entry of a key is its object. The older
entries serve statements about the order of events.

What a call answers may depend on the environment: how much time passes before it, whether the
request fails or its response is lost, how far the estimated store clock is off. These choices are
collected in `Choice`; a run fixes one for every call. The two calls `schedule` and `nextOp` touch
nothing: they let the environment order the threads of a client and choose its next operation.
-/

namespace LakeVilla

/-! ## Objects -/

/-- The objects of a bucket that LakeVilla's clients share. -/
inductive Key
  /-- `<table>_delta_log/<20 digits>.json` -/
  | version (table : Table) (v : ℕ)
  /-- `global_log_path` -/
  | globalLog
  /-- `global_tmp_log_path`, the lock file -/
  | globalTmpLog
  deriving DecidableEq, Repr

structure Object where
  content : Content
  etag : ETag
  /-- Store time of the last modification. -/
  lastModifiedMs : Int
  deriving DecidableEq, Repr

/-- The shared objects, as the journal of all changes (newest first; `none` is a deletion), the last
ETag handed out and the store's clock. -/
structure Store where
  journal : List (Key × Option Object)
  nextEtag : ETag
  clock : Int
  deriving DecidableEq, Repr

namespace Store

/-- The object of a key: its newest entry in the journal. -/
def get (s : Store) (k : Key) : Option Object := (s.journal.lookup k).join

/-- `MemoryConnector::store` -/
def put (s : Store) (k : Key) (c : Content) : Store :=
  { s with
    journal := (k, some ⟨c, s.nextEtag + 1, s.clock⟩) :: s.journal
    nextEtag := s.nextEtag + 1 }

def erase (s : Store) (k : Key) : Store := { s with journal := (k, none) :: s.journal }

/-- The versions in the listing of a table's `_delta_log/`. -/
def versions (s : Store) (table : Table) : List ℕ :=
  s.journal.filterMap fun e ↦
    match e.1 with
    | .version table' v => if table' = table ∧ (s.get e.1).isSome then some v else none
    | _ => none

def wait (s : Store) (ms : Nat) : Store := { s with clock := s.clock + ms }

@[simp] theorem put_clock (s : Store) (k : Key) (c : Content) : (s.put k c).clock = s.clock := rfl

@[simp] theorem wait_journal (s : Store) (ms : Nat) : (s.wait ms).journal = s.journal := rfl

@[simp] theorem get_wait (s : Store) (ms : Nat) (k : Key) : (s.wait ms).get k = s.get k := rfl

theorem mem_of_get {s : Store} {k : Key} {o : Object} (h : s.get k = some o) :
    (k, some o) ∈ s.journal := by
  exact AssocList.mem_of_lookup (Option.join_eq_some_iff.mp h)

theorem get_put (s : Store) (k k' : Key) (c : Content) :
    (s.put k c).get k' = if k' = k then some ⟨c, s.nextEtag + 1, s.clock⟩ else s.get k' := by
  simp only [get, put, AssocList.lookup_cons_eq]
  split <;> rfl

@[simp] theorem get_put_self (s : Store) (k : Key) (c : Content) :
    (s.put k c).get k = some ⟨c, s.nextEtag + 1, s.clock⟩ := by
  rw [get_put, if_pos rfl]

theorem get_put_of_ne (s : Store) {k k' : Key} (c : Content) (h : k' ≠ k) :
    (s.put k c).get k' = s.get k' := by
  rw [get_put, if_neg h]

theorem get_erase (s : Store) (k k' : Key) :
    (s.erase k).get k' = if k' = k then none else s.get k' := by
  simp only [get, erase, AssocList.lookup_cons_eq]
  split <;> rfl

theorem mem_versions {s : Store} {table : Table} {v : ℕ} :
    v ∈ s.versions table ↔ (s.get (.version table v)).isSome := by
  simp only [versions, List.mem_filterMap]
  constructor
  · rintro ⟨⟨k, o⟩, -, h⟩
    cases k with
    | version table' v' =>
      obtain ⟨⟨rfl, hs⟩, rfl⟩ :
          (table' = table ∧ (s.get (.version table' v')).isSome) ∧ v' = v := by
        simpa using h
      exact hs
    | globalLog => cases h
    | globalTmpLog => cases h
  · intro h
    have hl : (s.journal.lookup (.version table v)).isSome := by
      by_contra hn
      simp [get, Option.not_isSome_iff_eq_none.mp hn] at h
    obtain ⟨o, ho⟩ := Option.isSome_iff_exists.mp hl
    refine ⟨(.version table v, o), AssocList.mem_of_lookup ho, ?_⟩
    simp [h]

end Store

/-! ## Calls -/

/-- `WriteStatus` -/
inductive WriteStatus
  | ok
  | alreadyExists
  | preconditionFailed
  | error
  deriving DecidableEq, Repr

/-- `StoreTime` -/
structure StoreTime where
  nowMs : Int
  uncertaintyMs : Int
  deriving DecidableEq, Repr

def StoreTime.earliest (t : StoreTime) : Int := t.nowMs - t.uncertaintyMs

def StoreTime.latest (t : StoreTime) : Int := t.nowMs + t.uncertaintyMs

inductive Call
  | check (k : Key)
  /-- `read2` and `read_versioned` -/
  | read (k : Key)
  | write (k : Key) (c : Content)
  | writeAtomic (k : Key) (c : Content)
  | writeIfMatch (k : Key) (c : Content) (etag : ETag)
  | deleteFile (k : Key)
  /-- `list_objects` of a table's log directory, as the versions in it -/
  | listObjects (table : Table)
  | storeTime
  | localTimeMs
  /-- which of `n` threads of the client goes on -/
  | schedule (n : Nat)
  /-- the next operation the client's user asks for -/
  | nextOp
  deriving DecidableEq, Repr

/-- The response to a call. -/
abbrev Response : Call → Type
  | .check _ => Bool
  | .read _ => Option Object
  | .write _ _ => Bool
  | .writeAtomic _ _ => WriteStatus × ETag
  | .writeIfMatch _ _ _ => WriteStatus
  | .deleteFile _ => Bool
  | .listObjects _ => Option (List ℕ)
  | .storeTime => StoreTime
  | .localTimeMs => Int
  | .schedule _ => Nat
  | .nextOp => Op

/-! ## The service -/

/-- What the environment does to one request. -/
inductive Fault
  | none
  /-- the request fails without an effect -/
  | failed
  /-- the request takes effect, but its response is lost -/
  | lost
  deriving DecidableEq, Repr

/-- The environment's choices for one call. -/
structure Choice where
  /-- time that passes before the call, in ms -/
  delay : Nat := 0
  fault : Fault := .none
  /-- error of the estimated store time and its claimed uncertainty -/
  skew : Int := 0
  uncertainty : Int := 0
  /-- the thread that goes on -/
  pick : Nat := 0
  /-- the user's next operation -/
  op : Op := .abort
  deriving Repr

/-- A write under a fault: `failed` leaves the store as it was, `lost` only hides the response. -/
def Fault.write {α : Type} (f : Fault) (error : α) (s : Store) (r : α × Store) : α × Store :=
  match f with
  | .none => r
  | .failed => (error, s)
  | .lost => (error, r.2)

/-- A request without an effect fails in either case. -/
def Fault.ask {α : Type} (f : Fault) (error : α) (r : α) : α :=
  match f with
  | .none => r
  | .failed => error
  | .lost => error

/-- One call, answered in store `s`. -/
def answer (d : Choice) : (c : Call) → Store → Response c × Store
  | .check k, s => (d.fault.ask false (s.get k).isSome, s)
  | .read k, s => (d.fault.ask none (s.get k), s)
  | .write k c, s => d.fault.write false s (true, s.put k c)
  | .writeAtomic k c, s =>
    d.fault.write (.error, 0) s <|
      match s.get k with
      | some _ => ((.alreadyExists, 0), s)
      | none => ((.ok, s.nextEtag + 1), s.put k c)
  | .writeIfMatch k c etag, s =>
    d.fault.write .error s <|
      match s.get k with
      | some o => if o.etag = etag then (.ok, s.put k c) else (.preconditionFailed, s)
      | none => (.preconditionFailed, s)
  | .deleteFile k, s => d.fault.write false s (true, s.erase k)
  | .listObjects table, s => (d.fault.ask none (some (s.versions table)), s)
  | .storeTime, s => (⟨s.clock + d.skew, d.uncertainty⟩, s)
  | .localTimeMs, s => (s.clock, s)
  | .schedule n, s => (d.pick % n, s)
  | .nextOp, s => (d.op, s)

/-! ### The three outcomes of a write -/

section Writes

variable {d : Choice} {k : Key} {c : Content} {s s' : Store}

theorem answer_write {r : Bool} (h : answer d (.write k c) s = (r, s')) :
    (r = true ∧ s' = s.put k c) ∨
      (r = false ∧ d.fault ≠ .none ∧ (s' = s ∨ s' = s.put k c)) := by
  simp only [answer, Fault.write] at h
  split at h <;> obtain ⟨rfl, rfl⟩ := Prod.mk.inj h <;> simp_all

theorem answer_writeAtomic {r : WriteStatus} {e : ETag}
    (h : answer d (.writeAtomic k c) s = ((r, e), s')) :
    (r = .ok ∧ e = s.nextEtag + 1 ∧ s.get k = none ∧ s' = s.put k c) ∨
      (r = .alreadyExists ∧ (s.get k).isSome ∧ s' = s) ∨
      (r = .error ∧ d.fault ≠ .none ∧ (s' = s ∨ s.get k = none ∧ s' = s.put k c)) := by
  cases hg : s.get k with
  | none =>
    simp only [answer, Fault.write, hg] at h
    split at h <;> obtain ⟨h₁, rfl⟩ := Prod.mk.inj h <;> obtain ⟨rfl, rfl⟩ := Prod.mk.inj h₁ <;>
      simp_all
  | some o =>
    simp only [answer, Fault.write, hg] at h
    split at h <;> obtain ⟨h₁, rfl⟩ := Prod.mk.inj h <;> obtain ⟨rfl, rfl⟩ := Prod.mk.inj h₁ <;>
      simp_all

theorem answer_writeIfMatch {r : WriteStatus} {etag : ETag}
    (h : answer d (.writeIfMatch k c etag) s = (r, s')) :
    (r = .ok ∧ (∃ o, s.get k = some o ∧ o.etag = etag) ∧ s' = s.put k c) ∨
      (r = .preconditionFailed ∧ (∀ o, s.get k = some o → o.etag ≠ etag) ∧ s' = s) ∨
      (r = .error ∧ d.fault ≠ .none ∧
        (s' = s ∨ (∃ o, s.get k = some o ∧ o.etag = etag) ∧ s' = s.put k c)) := by
  cases hg : s.get k with
  | none =>
    simp only [answer, Fault.write, hg] at h
    split at h <;> obtain ⟨rfl, rfl⟩ := Prod.mk.inj h <;> simp_all
  | some o =>
    by_cases he : o.etag = etag
    · simp only [answer, Fault.write, hg, if_pos he] at h
      split at h <;> obtain ⟨rfl, rfl⟩ := Prod.mk.inj h <;> simp_all
    · simp only [answer, Fault.write, hg, if_neg he] at h
      split at h <;> obtain ⟨rfl, rfl⟩ := Prod.mk.inj h <;> simp_all

theorem answer_deleteFile {r : Bool} (h : answer d (.deleteFile k) s = (r, s')) :
    s' = s ∨ s' = s.erase k := by
  simp only [answer, Fault.write] at h
  split at h <;> obtain ⟨-, rfl⟩ := Prod.mk.inj h
  · exact .inr rfl
  · exact .inl rfl
  · exact .inr rfl

/-- An object that was read is in the store. -/
theorem answer_read {o : Object} (h : answer d (.read k) s = (some o, s')) : s.get k = some o := by
  have ho : d.fault.ask none (s.get k) = some o := (Prod.mk.inj h).1
  cases hf : d.fault with
  | none => rwa [hf] at ho
  | failed => rw [hf] at ho; cases ho
  | lost => rw [hf] at ho; cases ho

/-- One call makes at most one change. -/
theorem answer_journal {call : Call} {r : Response call} (h : answer d call s = (r, s')) :
    s'.journal = s.journal ∨ ∃ e, s'.journal = e :: s.journal := by
  cases call with
  | write k c =>
    rcases answer_write h with ⟨-, rfl⟩ | ⟨-, -, rfl | rfl⟩
    · exact .inr ⟨_, rfl⟩
    · exact .inl rfl
    · exact .inr ⟨_, rfl⟩
  | writeAtomic k c =>
    obtain ⟨r, e⟩ := r
    rcases answer_writeAtomic h with ⟨-, -, -, rfl⟩ | ⟨-, -, rfl⟩ | ⟨-, -, rfl | ⟨-, rfl⟩⟩
    · exact .inr ⟨_, rfl⟩
    · exact .inl rfl
    · exact .inl rfl
    · exact .inr ⟨_, rfl⟩
  | writeIfMatch k c etag =>
    rcases answer_writeIfMatch h with ⟨-, -, rfl⟩ | ⟨-, -, rfl⟩ | ⟨-, -, rfl | ⟨-, rfl⟩⟩
    · exact .inr ⟨_, rfl⟩
    · exact .inl rfl
    · exact .inl rfl
    · exact .inr ⟨_, rfl⟩
  | deleteFile k =>
    rcases answer_deleteFile h with rfl | rfl
    · exact .inl rfl
    · exact .inr ⟨_, rfl⟩
  | check | read | listObjects | storeTime | localTimeMs | schedule | nextOp =>
    obtain ⟨-, rfl⟩ := Prod.mk.inj h
    exact .inl rfl

end Writes

/-- `answer` after the delay. `faults` says whether requests may fail at all. -/
def serve (faults : Bool) : Concurrency.Service TxnId Response Store Choice := fun _ d c s ↦
  if d.fault = .none ∨ faults then some (answer d c (s.wait d.delay)) else none

end LakeVilla

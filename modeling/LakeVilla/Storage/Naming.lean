import LakeVilla.Guarantees.LogFileNames
import LakeVilla.Storage.MemoryConnector

/-!
# Shared objects under their paths

How the objects of `Connector.lean` appear in an object store: every shared object has a path, every
content has bytes, and an ETag is a text. A version lies in the log directory of its table, under
the name that `log_file_name` gives it, and is found there by listing the directory and reading the
names back with `parse_log_version`.

The store numbers the writes of all objects, also of those that `Connector.lean` does not know (data
files, checkpoints). The ETags that shared objects got are therefore kept in a list: the `e`-th of
them is the text of the ETag `e`.
-/

namespace LakeVilla

open ByteString (ascii padded)
open DeltaLog (logDir logFileName parseLogVersion)

/-- Versions are `uint64_t`. -/
def Key.Fits : Key → Prop
  | .version _ v => v < 2 ^ 64
  | .globalLog => True
  | .globalTmpLog => True

structure Naming where
  basePath : Table → ByteString
  globalLogPath : ByteString
  globalTmpLogPath : ByteString
  /-- The bytes of a content -/
  encode : Content → ByteString
  /-- No table lies in the log of another one. -/
  apart : ∀ {table table'}, basePath table ++ logDir <+: basePath table' ++ logDir → table = table'
  globalLog_outside : ∀ table, ¬basePath table ++ logDir <+: globalLogPath
  globalTmpLog_outside : ∀ table, ¬basePath table ++ logDir <+: globalTmpLogPath
  globalLog_ne : globalLogPath ≠ globalTmpLogPath

namespace Naming

variable (n : Naming)

def logPath (table : Table) : ByteString := n.basePath table ++ logDir

def path : Key → ByteString
  | .version table v => n.logPath table ++ logFileName v (ascii ".json")
  | .globalLog => n.globalLogPath
  | .globalTmpLog => n.globalTmpLogPath

/-- The path of an object that is not shared, and that no log directory shows as a version -/
def Foreign (path : ByteString) : Prop :=
  (∀ k, path ≠ n.path k) ∧ ∀ table, n.logPath table <+: path → parseLogVersion path = .ok none

/-! ## ETags -/

/-- The text of an ETag; there is no ETag 0. -/
def etagText (etags : List ByteString) : ETag → Option ByteString
  | 0 => none
  | e + 1 => etags[e]?

/-- The ETag with a text; 0 for a text that no shared object got. -/
def etagNumber (etags : List ByteString) (text : ByteString) : ETag :=
  match etags.idxOf? text with
  | some e => e + 1
  | none => 0

def object (etags : List ByteString) (o : Object) : MemoryObject :=
  ⟨n.encode o.content, (etagText etags o.etag).getD [], o.lastModifiedMs⟩

/-! ## Calls -/

/-- A call on shared objects -/
def Shared : MemoryConnector.Call → Prop
  | .write path data => ∃ k c, k.Fits ∧ path = n.path k ∧ data = n.encode c
  | .writeAtomic path data => ∃ k c, k.Fits ∧ path = n.path k ∧ data = n.encode c
  | .read2 path => ∃ k, path = n.path k
  | .readVersioned path => ∃ k, path = n.path k
  | .writeIfMatch path data _ => ∃ k c, path = n.path k ∧ data = n.encode c
  | .deleteFile path => ∃ k, path = n.path k
  | .check path => ∃ k, path = n.path k
  | .listObjects pre => ∃ table, pre = n.logPath table
  | .storeTime => True

/-- A call on other objects -/
def Other : MemoryConnector.Call → Prop
  | .write path _ => n.Foreign path
  | .writeAtomic path _ => n.Foreign path
  | .read2 path => n.Foreign path
  | .readVersioned path => n.Foreign path
  | .writeIfMatch path _ _ => n.Foreign path
  | .deleteFile path => n.Foreign path
  | .check path => n.Foreign path
  | .listObjects pre => ∀ table, pre ≠ n.logPath table
  | .storeTime => False

/-- A listing shows some versions: no name throws, and each version comes once, in order. -/
def Shows (objects : List MemoryConnector.ObjectInfo) (versions : List ℕ) : Prop :=
  ∃ parsed : List (Option ℕ),
    (objects.map fun o ↦ parseLogVersion o.key) = parsed.map .ok ∧
    parsed.reduceOption.Pairwise (· < ·) ∧ ∀ v, v ∈ parsed.reduceOption ↔ v ∈ versions

/-- A call to the in-memory store and its response are a call of `Connector.lean` and its response;
`etags` and `etags'` are the ETags before and after it. -/
inductive Matches (etags etags' : List ByteString) :
    (call : MemoryConnector.Call) → MemoryConnector.Response call →
      (call' : Call) → Response call' → Prop
  | write (k : Key) (c : Content) (ok : Bool) :
    Matches etags etags' (.write (n.path k) (n.encode c)) ok (.write k c) ok
  | writeAtomic (k : Key) (c : Content) (status : WriteStatus) (e : ETag) :
    Matches etags etags' (.writeAtomic (n.path k) (n.encode c)) (status, etagText etags' e)
      (.writeAtomic k c) (status, e)
  | read2 (k : Key) (o : Option Object) :
    Matches etags etags' (.read2 (n.path k)) (o.map fun o ↦ n.encode o.content) (.read k) o
  | readVersioned_none (k : Key) :
    Matches etags etags' (.readVersioned (n.path k)) (none, {}) (.read k) none
  | readVersioned (k : Key) (o : Object) (text : ByteString) (h : etagText etags' o.etag = text) :
    Matches etags etags' (.readVersioned (n.path k))
      (some (n.encode o.content), ⟨text, o.lastModifiedMs⟩) (.read k) (some o)
  | writeIfMatch (k : Key) (c : Content) (text : ByteString) (status : WriteStatus) :
    Matches etags etags' (.writeIfMatch (n.path k) (n.encode c) text) status
      (.writeIfMatch k c (etagNumber etags text)) status
  | deleteFile (k : Key) (ok : Bool) :
    Matches etags etags' (.deleteFile (n.path k)) ok (.deleteFile k) ok
  | check (k : Key) (ok : Bool) : Matches etags etags' (.check (n.path k)) ok (.check k) ok
  | listObjects_none (table : Table) :
    Matches etags etags' (.listObjects (n.logPath table)) none (.listObjects table) none
  | listObjects (table : Table) (objects : List MemoryConnector.ObjectInfo) (versions : List ℕ)
    (h : Shows objects versions) :
    Matches etags etags' (.listObjects (n.logPath table)) (some objects) (.listObjects table)
      (some versions)
  | storeTime (t : StoreTime) : Matches etags etags' .storeTime t .storeTime t

/-! ## Runs -/

/-- The in-memory store beside the store that it stands for, and the ETags of shared objects -/
structure Joint where
  memory : MemoryConnector
  store : Store
  etags : List ByteString

/-- One request: `Connector.lean` explains the response, if the call is on shared objects, and the
others do not exist for it. -/
inductive Step (faults : Bool) (j : Joint) (r : MemoryConnector.Request) : Joint → Prop
  | shared (client : TxnId) (d : Choice) (call : Call) (response : Response call) (store : Store)
    (etags : List ByteString) (hetags : j.etags <+: etags)
    (hserve : serve faults client d call j.store = some (response, store))
    (hmatches : n.Matches j.etags etags r.call (MemoryConnector.perform r j.memory).1 call response)
    : Step faults j r ⟨(MemoryConnector.perform r j.memory).2, store, etags⟩
  | other (h : n.Other r.call) :
    Step faults j r ⟨(MemoryConnector.perform r j.memory).2, j.store, j.etags⟩

inductive Run (faults : Bool) : Joint → List MemoryConnector.Request → Joint → Prop
  | nil (j : Joint) : Run faults j [] j
  | cons {j j₁ j' : Joint} {r : MemoryConnector.Request} {rs : List MemoryConnector.Request}
    (hstep : n.Step faults j r j₁) (hrun : Run faults j₁ rs j') : Run faults j (r :: rs) j'

end Naming

end LakeVilla

import Mathlib.Order.Fin.Basic
import LakeVilla.Data.OrderedMap
import LakeVilla.Storage.Connector

/-!
# The in-memory store

`MemoryConnector.cpp`, the object store of the repository's tests: objects in a `std::map` under
their paths, a counter that numbers the ETags, and the connector's counts of read and written bytes.
Every call takes the mutex once, so a call is one step. What is set from outside is in the request:
whether `fail_hook` lets the call fail, and the time on the store's clock.

Paths, contents and ETags are texts here. How the objects of `Connector.lean` appear in this store
is a matter of `Storage/Naming.lean`.
-/

namespace LakeVilla

/-- `MemoryConnector::Object` -/
structure MemoryObject where
  content : ByteString
  etag : ByteString
  modifiedMs : ℤ
  deriving DecidableEq, Repr

structure MemoryConnector where
  objects : OrderedMap ByteString MemoryObject := OrderedMap.empty
  nextEtag : ℕ := 0
  bytesRead : ℕ := 0
  bytesWrite : ℕ := 0
  clockUncertaintyMs : ℤ := 0

namespace MemoryConnector

open ByteString (ascii decimal)

/-- `ObjectVersion` -/
structure ObjectVersion where
  etag : ByteString := []
  lastModifiedMs : ℤ := -1
  deriving DecidableEq, Repr

/-- `ObjectInfo` -/
structure ObjectInfo where
  key : ByteString
  size : ℕ
  deriving DecidableEq, Repr

inductive Call
  | write (path data : ByteString)
  | writeAtomic (path data : ByteString)
  | read2 (path : ByteString)
  | readVersioned (path : ByteString)
  | writeIfMatch (path data etag : ByteString)
  | deleteFile (path : ByteString)
  | check (path : ByteString)
  | listObjects (pre : ByteString)
  | storeTime
  deriving DecidableEq, Repr

/-- What a call returns. A container without data is `none`; so is the ETag that `write_atomic` does
not set. -/
abbrev Response : Call → Type
  | .write _ _ => Bool
  | .writeAtomic _ _ => WriteStatus × Option ByteString
  | .read2 _ => Option ByteString
  | .readVersioned _ => Option ByteString × ObjectVersion
  | .writeIfMatch _ _ _ => WriteStatus
  | .deleteFile _ => Bool
  | .check _ => Bool
  | .listObjects _ => Option (List ObjectInfo)
  | .storeTime => StoreTime

structure Request where
  call : Call
  /-- what `fail_hook` says -/
  fails : Bool
  /-- what `clock` says, or the local clock if there is none -/
  clock : ℤ
  deriving DecidableEq, Repr

/-- `uint64_t` -/
def wrap (n : ℕ) : ℕ := n % 2 ^ 64

/-- The ETag with a number -/
def etagText (n : ℕ) : ByteString := ascii "\"etag-" ++ (decimal n ++ ascii "\"")

section Calls

variable (m : MemoryConnector)

def read (n : ℕ) : MemoryConnector := { m with bytesRead := wrap (m.bytesRead + n) }

def written (n : ℕ) : MemoryConnector := { m with bytesWrite := wrap (m.bytesWrite + n) }

/-- `store`: the content under the path, with a new ETag -/
def store (clock : ℤ) (path content : ByteString) : MemoryConnector :=
  let nextEtag := wrap (m.nextEtag + 1)
  { m with
    objects := m.objects.insert path ⟨content, etagText nextEtag, clock⟩
    nextEtag := nextEtag }

def write (clock : ℤ) (path data : ByteString) : Bool × MemoryConnector :=
  (true, (m.store clock path data).written data.length)

def writeAtomic (clock : ℤ) (path data : ByteString) :
    (WriteStatus × Option ByteString) × MemoryConnector :=
  if (m.objects.get path).isSome then ((.alreadyExists, none), m)
  else
    let m := m.store clock path data
    ((.ok, (m.objects.get path).map (·.etag)), m.written data.length)

def read2 (path : ByteString) : Option ByteString × MemoryConnector :=
  match m.objects.get path with
  | none => (none, m)
  | some o => (some o.content, m.read o.content.length)

def readVersioned (path : ByteString) : (Option ByteString × ObjectVersion) × MemoryConnector :=
  match m.objects.get path with
  | none => ((none, {}), m)
  | some o => ((some o.content, ⟨o.etag, o.modifiedMs⟩), m.read o.content.length)

def writeIfMatch (clock : ℤ) (path data etag : ByteString) : WriteStatus × MemoryConnector :=
  match m.objects.get path with
  | none => (.preconditionFailed, m)
  | some o =>
    if o.etag ≠ etag then (.preconditionFailed, m)
    else (.ok, (m.store clock path data).written data.length)

/-- An object that does not exist is deleted, too. -/
def deleteFile (path : ByteString) : Bool × MemoryConnector :=
  (true, { m with objects := m.objects.erase path }.written path.length)

def check (path : ByteString) : Bool × MemoryConnector :=
  match m.objects.get path with
  | none => (false, m)
  | some o => (true, m.read o.content.length)

def listObjects (pre : ByteString) : List ObjectInfo × MemoryConnector :=
  let found := m.objects.withPrefix pre
  (found.map fun e ↦ ⟨e.1, e.2.content.length⟩, found.foldl (fun m e ↦ m.read e.1.length) m)

end Calls

/-- One call. The store's time is no request that could fail. -/
def perform (r : Request) (m : MemoryConnector) : Response r.call × MemoryConnector :=
  match r.call with
  | .write path data => if r.fails then (false, m) else m.write r.clock path data
  | .writeAtomic path data =>
    if r.fails then ((.error, none), m) else m.writeAtomic r.clock path data
  | .read2 path => if r.fails then (none, m) else m.read2 path
  | .readVersioned path => if r.fails then ((none, {}), m) else m.readVersioned path
  | .writeIfMatch path data etag =>
    if r.fails then (.error, m) else m.writeIfMatch r.clock path data etag
  | .deleteFile path => if r.fails then (false, m) else m.deleteFile path
  | .check path => if r.fails then (false, m) else m.check path
  | .listObjects pre => if r.fails then (none, m) else (m.listObjects pre).map some id
  | .storeTime => (⟨r.clock, m.clockUncertaintyMs⟩, m)

end MemoryConnector

end LakeVilla

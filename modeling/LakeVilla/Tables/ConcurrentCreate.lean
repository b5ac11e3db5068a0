import LakeVilla.Tables.CreateTable
import LakeVilla.Transaction.System

/-!
# Table creations side by side

`create_table` as a client of the object store: the emptiness check, the removal of a global-log
entry and the put-if-absent of version 0 are calls of their own, between which other clients take
theirs. Of the listing only the versions are shared objects; whether it shows other objects beside
them is fixed for each call. A call with invalid arguments makes no requests and is left out.
-/

namespace LakeVilla

open Concurrency
open Tables (TableResult)

/-- What a listing of the location shows beside versions. -/
inductive OtherObjects
  | none
  /-- in `_delta_log/` -/
  | log
  | data
  deriving DecidableEq, Repr

/-- Version 0 as client `i` writes it; its `commitInfo` has the UUID of the call. -/
def creation (i : TxnId) : Commit := { txnId := some i, lakeVilla := true, actions := [] }

namespace Tx

/-- A global-log entry of an earlier table is removed. -/
def removeGlobalEntry (fuel : ℕ) (path : Table) : Tx Bool := do
  if ← check .globalLog then
    if ← acquireGlobalLock fuel then do
      let updated ← updateGlobalEntry path fun _ ↦ none
      releaseGlobalLock
      pure updated
    else pure false
  else pure true

/-- The attempts to write version 0. -/
def writeVersion0 (path : Table) (commit : Content) : ℕ → Bool → Tx TableResult
  | 0, _ => pure .error
  | n + 1, uncertain => do
    match ← writeAtomic (.version path 0) commit with
    | (.ok, _) => pure .ok
    | (.alreadyExists, _) => do
      -- an earlier attempt may have succeeded although its response was lost
      match ← read (.version path 0) with
      | some o => pure (if uncertain ∧ o.content = commit then .ok else .alreadyExists)
      | none => pure .alreadyExists
    | _ => writeVersion0 path commit n true

/-- `create_table` at an empty location, as far as the listing has shown. -/
def createAt (fuel : ℕ) (path : Table) : Tx TableResult := do
  let t ← get
  if ← removeGlobalEntry fuel path then
    writeVersion0 path (.commit (creation t.transactionId)) t.cfg.storageRetries false
  else pure .error

/-- `create_table` after the listing. -/
def createListed (fuel : ℕ) (path : Table) (others : OtherObjects) (versions : List ℕ) :
    Tx TableResult :=
  if versions ≠ [] ∨ others = .log then pure .alreadyExists
  else if others = .data then pure .notEmpty
  else createAt fuel path

/-- `create_table` -/
def createTable (fuel : ℕ) (path : Table) (others : OtherObjects) : Tx TableResult := do
  match ← listObjects path with
  | none => pure .error
  | some versions => createListed fuel path others versions

end Tx

/-! ## Worlds -/

/-- A client that creates a table, or a transaction that begins with one. -/
inductive TableParty
  | create (cfg : Config) (path : Table) (others : OtherObjects)
  | transaction (cfg : Config) (path : Table)

/-- The client creates a table at the path. -/
def TableParty.Creates (path : Table) : TableParty → Prop
  | .create _ path' _ => path' = path
  | .transaction _ _ => False

/-- What a client returned, with the state of its manager. -/
abbrev TableOutcome := (TableResult ⊕ Outcome) × Txn

/-- The program of client `i`. -/
def TableParty.program (fuel : ℕ) (i : TxnId) : TableParty → Program Txn Response TableOutcome
  | .create cfg path others => do
    let (result, t) ← Tx.createTable fuel path others { cfg := cfg, transactionId := i }
    pure (.inl result, t)
  | .transaction cfg path => do
    let (result, t) ← Tx.transaction fuel path { cfg := cfg, transactionId := i }
    pure (.inr result, t)

abbrev TableSystem := World TxnId Txn Response Store TableOutcome

/-- Every client is about to begin. -/
def TableSystem.initial (fuel : ℕ) (party : TxnId → TableParty) (s : Store) : TableSystem :=
  ⟨s, fun i ↦ (party i).program fuel i⟩

end LakeVilla

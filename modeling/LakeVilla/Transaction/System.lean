import LakeVilla.Transaction.Commit

/-!
# Transactions and their interleavings

A client of the store is a LakeVilla transaction on a manager of its own, or a writer of another
engine. `World` interleaves any number of them; the store answers one call after the other.
-/

namespace LakeVilla

open Concurrency

/-- How a client ended. -/
inductive Outcome
  | beginFailed
  | committed (readOnly result : Bool)
  | aborted
  deriving DecidableEq, Repr

/-- A local operation of the user; opening a table and ending the transaction are not local. -/
def Txn.operate (t : Txn) : Op → Txn
  | .readTable i => t.getTableForRead i
  | .readFile i key => (t.readFileAsTable i key).2
  | .addRows i rows prev => (t.addFileRows i rows prev).2
  | .addPath i file overwrite prev listed => (t.addFilePath i file overwrite prev listed).2
  | .removePath i file prev => (t.removeFilePath i file prev).2
  | .removeKey i key prev => (t.removeFileKey i key prev).2
  | .registerValues values => (t.registerUpdateValues values).2
  | .registerUpdate values op impl => (t.registerUpdatePairs values op impl).2
  | .openTable _ | .commit _ | .abort => t

namespace Tx

/-- The user's operations up to the end of the transaction. -/
def operations : ℕ → Tx Outcome
  | 0 => diverge
  | fuel + 1 => do
    match ← nextOp with
    | .openTable path => if ← openNewTable fuel path then operations fuel else pure .aborted
    | .commit readOnly => do
      let result ← commit fuel readOnly
      pure (.committed readOnly result)
    | .abort => do
      abort true
      pure .aborted
    | op => do
      modify fun t ↦ t.operate op
      operations fuel

/-- A transaction on a new manager. -/
def transaction (fuel : ℕ) (basePath : Table) : Tx Outcome := do
  if ← beginTransaction fuel basePath then operations fuel else pure .beginFailed

/-! ## Writers of other engines -/

/-- The changes of another engine's writer, made on its snapshot. -/
def foreignOperations : ℕ → Tx Bool
  | 0 => diverge
  | fuel + 1 => do
    match ← nextOp with
    | .commit _ => pure true
    | .abort | .openTable _ => pure false
    | op => do
      modify fun t ↦ t.operate op
      foreignOperations fuel

/-- A Delta writer without LakeVilla: it reads every existing version, for which a marker is an
empty commit, and claims the version after the highest one with a put-if-absent. -/
def foreignWriter (fuel : ℕ) (basePath : Table) : Tx Outcome := do
  match ← listObjects basePath with
  | none => pure .beginFailed
  | some versions =>
    match versions.max? with
    | none => pure .beginFailed
    | some highest =>
      match ← parseAll basePath (highest + 1) 0 {} with
      | none => pure .beginFailed
      | some deltaLog =>
        modify fun t ↦
          { t with
            tables := [{ basePath := basePath, deltaLog := deltaLog, readVersion := highest,
                         markerVersion := highest + 1 }] }
        if ← foreignOperations fuel then
          match (← get).tables with
          | tbl :: _ => do
            let (status, _) ← writeAtomic (.version basePath (highest + 1))
              (.commit { txnId := none, lakeVilla := false, actions := tbl.actions })
            pure (.committed false (status = .ok))
          | [] => pure .aborted
        else pure .aborted

end Tx

/-! ## Worlds -/

/-- What a client is. -/
inductive Party
  | lakeVilla (cfg : Config) (basePath : Table)
  | foreign (basePath : Table)

/-- A finished client: how it ended, and the state of its manager. -/
abbrev Result := Outcome × Txn

/-- The program of client `i`. Its loops take at most `fuel` rounds. -/
def Party.program (fuel : ℕ) (i : TxnId) : Party → Program Txn Response Result
  | .lakeVilla cfg basePath => Tx.transaction fuel basePath { cfg := cfg, transactionId := i }
  | .foreign basePath =>
    Tx.foreignWriter fuel basePath { cfg := { levels := {} }, transactionId := i }

abbrev System := World TxnId Txn Response Store Result

/-- Every client is about to begin. -/
def System.initial (fuel : ℕ) (party : TxnId → Party) (s : Store) : System :=
  ⟨s, fun i ↦ (party i).program fuel i⟩

end LakeVilla

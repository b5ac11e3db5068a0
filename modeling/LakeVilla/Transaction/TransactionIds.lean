import Mathlib.Algebra.Ring.Nat
import LakeVilla.Concurrency.RelyGuarantee

/-!
# Transaction ids

`unique_transaction_id` takes the ids of a process from an atomic counter that starts at a random
number and wraps around. `UINT32_MAX`, which stands for no transaction, is skipped with a second
`fetch_add`, and other threads may come between the two. The history of the counter is kept for
statements about it.
-/

namespace LakeVilla

open Concurrency

/-- `UINT32_MAX` -/
def noTransaction : ℕ := 2 ^ 32 - 1

/-- The counter, and which thread fetched which value, newest first. -/
structure IdCounter (I : Type) where
  next : ℕ
  fetched : List (I × ℕ)
  deriving DecidableEq, Repr

/-- `fetch_add(1)`, for a thread -/
def IdCounter.fetchAdd {I : Type} (s : IdCounter I) (i : I) : ℕ × IdCounter I :=
  (s.next, ⟨(s.next + 1) % 2 ^ 32, (i, s.next) :: s.fetched⟩)

inductive IdCall
  | fetchAdd
  deriving DecidableEq, Repr

abbrev IdResponse : IdCall → Type
  | .fetchAdd => ℕ

def idService (I : Type) : Service I IdResponse (IdCounter I) Unit
  | i, _, .fetchAdd, s => some (s.fetchAdd i)

def idSem (I : Type) : Semantics I Unit IdResponse (IdCounter I) :=
  semOf (idService I) fun _ _ _ _ _ ↦ true

/-- `unique_transaction_id` -/
def uniqueTransactionId : Client Unit IdResponse ℕ := do
  let id ← Client.perform IdCall.fetchAdd
  if id = noTransaction then Client.perform IdCall.fetchAdd else return id

/-- A thread that takes some ids, one after the other. -/
def takeIds : ℕ → Client Unit IdResponse (List ℕ)
  | 0 => return []
  | n + 1 => do
    let id ← uniqueTransactionId
    return id :: (← takeIds n)

/-- Threads before their first step. -/
def idWorld {I : Type} (start : ℕ) (n : I → ℕ) :
    World I Unit IdResponse (IdCounter I) (List ℕ × Unit) where
  shared := ⟨start, []⟩
  client i := takeIds (n i) ()

end LakeVilla

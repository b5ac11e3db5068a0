import LakeVilla.Guarantees.Fencing
import LakeVilla.Guarantees.Once

/-!
# Atomicity over several tables

A commit writes its tables one after another. When a write fails after another table was written,
the transaction may end with the result false, and what it wrote stays.
-/

namespace LakeVilla

open Concurrency

end LakeVilla

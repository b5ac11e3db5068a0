import LakeVilla.Data.TextLines
import LakeVilla.Sublog.Lines

/-!
# The text of the global log

The global log has a line for each table, its path and a version with a space between them.
`update_global_entry` reads all lines, changes the entry of one table and writes the log anew; lines
that cannot be read are passed over. Versions are `uint32_t`.
-/

namespace LakeVilla.GlobalLog

open ByteString TextLines
open Sublog (newline space stoul)

/-- A line of the global log. -/
abbrev Entry := ByteString × UInt32

/-- `parse_global_line`: the last space is the separator, and `std::stoul` reads a number of 64
bits, which is narrowed. -/
def parseGlobalLine (line : ByteString) : Option Entry :=
  match splitAtLast space line with
  | none => none
  | some ([], _) => none
  | some (c :: path, number) => (stoul number).map fun n ↦ (c :: path, UInt32.ofNat n)

/-- The entries that are read from the text of the log. -/
def decode (text : ByteString) : List Entry := (getLines newline text).filterMap parseGlobalLine

/-- A line as it is written, without its end. -/
def globalLine (path : ByteString) (version : UInt32) : ByteString :=
  path ++ space :: decimal version.toNat

/-- Of several entries of a table the last one counts. -/
def currentVersion (entries : List Entry) (path : ByteString) : Option UInt32 :=
  entries.foldl (fun current e ↦ if e.1 = path then some e.2 else current) none

/-- The loop that writes the content; `found` is `found_entry`. -/
def writeContent (path : ByteString) (next : Option UInt32) : Bool → List Entry → ByteString
  | found, [] =>
    match next, found with
    | some version, false => globalLine path version ++ [newline]
    | _, _ => []
  | found, e :: entries =>
    if e.1 ≠ path then
      globalLine e.1 e.2 ++ newline :: writeContent path next found entries
    else
      match next, found with
      | some version, false =>
        globalLine e.1 version ++ newline :: writeContent path next true entries
      | _, _ => writeContent path next found entries

/-- What the store answers: whether there is a log, what reading it gives, and whether the write of
an attempt succeeds. -/
structure Answers where
  check : Bool
  read : Option ByteString
  write : ℕ → Bool

/-- The loop of attempts, with what is written. -/
def writeAttempts (answers : Answers) (content : ByteString) : ℕ → ℕ → Bool × List ByteString
  | _, 0 => (false, [])
  | attempt, n + 1 =>
    if answers.write attempt then (true, [content])
    else
      let (ok, contents) := writeAttempts answers content (attempt + 1) n
      (ok, content :: contents)

/-- The text of the log; none if it cannot be read. -/
def Answers.text (answers : Answers) : Option ByteString :=
  if answers.check then answers.read else some []

/-- `update_global_entry`: what it returns, and the contents that it writes. -/
def updateGlobalEntry (answers : Answers) (storageRetries : ℕ) (path : ByteString)
    (update : Option UInt32 → Option UInt32) : Bool × List ByteString :=
  match answers.text with
  | none => (false, [])
  | some text =>
    let entries := decode text
    let current := currentVersion entries path
    let next := update current
    if next = current then (true, [])
    else writeAttempts answers (writeContent path next false entries) 0 storageRetries

end LakeVilla.GlobalLog

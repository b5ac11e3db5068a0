import LakeVilla.Data.Digits
import LakeVilla.Keys.Statistics

/-!
# Names of log files

The files of `_delta_log/` carry their version in twenty digits. `parse_log_version` and
`newest_checkpoint` read the versions back; both convert the digits with `std::stoull`, which throws
for numbers that do not fit 64 bits.
-/

namespace LakeVilla.DeltaLog

open ByteString
open Keys (StdError)

/-- The directory of a table's log -/
def logDir : ByteString := ascii "_delta_log/"

/-- `log_file_name` -/
def logFileName (version : ℕ) (suffix : ByteString) : ByteString := padded 20 version ++ suffix

/-- `std::stoull` of digits -/
def stoull (digits : ByteString) : Except StdError ℕ :=
  if ofDecimal digits < 2 ^ 64 then .ok (ofDecimal digits) else .error .outOfRange

/-- `parse_log_version` -/
def parseLogVersion (key : ByteString) : Except StdError (Option ℕ) :=
  match afterLast logDir key with
  | none => .ok none
  | some name =>
    if name.length ≠ 25 ∨ name.drop 20 ≠ ascii ".json" then .ok none
    else if ¬AllDigits (name.take 20) then .ok none
    else some <$> stoull (name.take 20)

/-! ## Names and versions -/

/-- The last directory is found if its slash is the last one. -/
theorem afterLast_logDir {pre name : ByteString} (h : (47 : Byte) ∉ name) :
    afterLast logDir (pre ++ (logDir ++ name)) = some name := by
  apply afterLast_append (by decide)
  intro pre' name' heq
  by_contra hne
  have hpos : 0 < pre'.length := List.length_pos_iff.mpr hne
  have hslash : (pre' ++ (logDir ++ name'))[pre'.length + 10]? = some 47 := by
    rw [List.getElem?_append_right (by omega), Nat.add_sub_cancel_left,
      List.getElem?_append_left (by decide)]
    rfl
  have hlength : logDir.length = 11 := by decide
  rw [heq, List.getElem?_append_right (by omega)] at hslash
  exact h (List.mem_of_getElem? hslash)

theorem allDigits_append_json {digits : ByteString} (hdigits : digits.AllDigits) :
    (47 : Byte) ∉ digits ++ ascii ".json" := by
  intro h
  rcases List.mem_append.mp h with h | h
  · cases hdigits 47 h
  · revert h
    decide

theorem stoull_eq_ok {digits : ByteString} {n : ℕ} :
    stoull digits = .ok n ↔ ofDecimal digits = n ∧ n < 2 ^ 64 := by
  unfold stoull
  split_ifs with h
  · constructor
    · intro heq
      obtain rfl := Except.ok.inj heq
      exact ⟨rfl, h⟩
    · rintro ⟨rfl, -⟩
      rfl
  · refine iff_of_false (fun h ↦ nomatch h) ?_
    rintro ⟨rfl, hlt⟩
    exact h hlt

/-- What `parse_log_version` makes of twenty digits and `.json`. -/
theorem parseLogVersion_digits {key digits : ByteString} (hdigits : digits.AllDigits)
    (hlen : digits.length = 20) (hname : afterLast logDir key = some (digits ++ ascii ".json")) :
    parseLogVersion key = some <$> stoull digits := by
  have htake : (digits ++ ascii ".json").take 20 = digits := List.take_left' hlen
  have hdrop : (digits ++ ascii ".json").drop 20 = ascii ".json" := List.drop_left' hlen
  have hlength : (digits ++ ascii ".json").length = 25 := by
    rw [List.length_append, hlen]
    rfl
  simp only [parseLogVersion, hname, htake, hdrop, hlength, hdigits, ne_eq, not_true, or_self,
    if_false]

/-- Of every other name it makes nothing. -/
theorem parseLogVersion_cases (key : ByteString) :
    parseLogVersion key = .ok none ∨ ∃ digits, AllDigits digits ∧ digits.length = 20 ∧
      afterLast logDir key = some (digits ++ ascii ".json") := by
  unfold parseLogVersion
  cases hname : afterLast logDir key with
  | none => exact .inl rfl
  | some name =>
    dsimp only
    split_ifs with hshape hdigits
    · exact .inl rfl
    · rw [not_or, not_not, not_not] at hshape
      obtain ⟨hlen, hdrop⟩ := hshape
      refine .inr ⟨name.take 20, hdigits, ?_, ?_⟩
      · rw [List.length_take, hlen]
        rfl
      · rw [← hdrop, List.take_append_drop]
    · exact .inl rfl

/-- Twenty digits and `.json` are the name of the log file of their number. -/
theorem logFileName_ofDecimal {digits : ByteString} (hdigits : digits.AllDigits)
    (hlen : digits.length = 20) (suffix : ByteString) :
    logFileName (ofDecimal digits) suffix = digits ++ suffix := by
  have hpadded := padded_ofDecimal hdigits (by omega)
  rw [hlen] at hpadded
  rw [logFileName, hpadded]

theorem length_padded_version {version : ℕ} (h : version < 2 ^ 64) :
    (padded 20 version).length = 20 := length_padded (by decide) (h.trans (by decide))

end LakeVilla.DeltaLog

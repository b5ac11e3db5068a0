import LakeVilla.DeltaLog.FileNames

/-!
# Names of log files and versions

Every version has one name, names are ordered as versions, and only the name of a version is read as
this version. A name with a number that does not fit 64 bits is not passed over: it throws.
-/

namespace LakeVilla.DeltaLog

open ByteString

/-- The name after the last log directory is that of a log file, but its number does not fit. -/
def TooLarge (key : ByteString) : Prop :=
  ∃ digits, AllDigits digits ∧ digits.length = 20 ∧ 2 ^ 64 ≤ ofDecimal digits ∧
    afterLast logDir key = some (digits ++ ascii ".json")

/-- A key is read without an exception, and as a version only if its name is the version's. -/
def ReadAsVersion (key : ByteString) : Prop :=
  ∃ result, parseLogVersion key = .ok result ∧
    ∀ version ∈ result, afterLast logDir key = some (logFileName version (ascii ".json"))

theorem parseLogVersion_logFileName {version : ℕ} (h : version < 2 ^ 64) (pre : ByteString) :
    parseLogVersion (pre ++ (logDir ++ logFileName version (ascii ".json"))) =
      .ok (some version) := by
  have hdigits := allDigits_padded 20 version
  have hname : afterLast logDir (pre ++ (logDir ++ logFileName version (ascii ".json"))) =
      some (padded 20 version ++ ascii ".json") := afterLast_logDir (allDigits_append_json hdigits)
  rw [parseLogVersion_digits hdigits (length_padded_version h) hname]
  have hread : stoull (padded 20 version) = .ok version :=
    stoull_eq_ok.mpr ⟨ofDecimal_padded 20 version, h⟩
  rw [hread]
  rfl

theorem logFileName_lt_iff {v w : ℕ} (hv : v < 2 ^ 64) (hw : w < 2 ^ 64) (suffix : ByteString) :
    logFileName v suffix < logFileName w suffix ↔ v < w := by
  have hlen : (padded 20 v).length = (padded 20 w).length := by
    rw [length_padded_version hv, length_padded_version hw]
  rw [logFileName, logFileName, append_lt_append_iff hlen,
    lt_iff_ofDecimal_lt (allDigits_padded 20 v) (allDigits_padded 20 w) hlen, ofDecimal_padded,
    ofDecimal_padded]

theorem readAsVersion_iff (key : ByteString) : ReadAsVersion key ↔ ¬TooLarge key := by
  constructor
  · rintro ⟨result, hresult, -⟩ ⟨digits, hdigits, hlen, hlarge, hname⟩
    rw [parseLogVersion_digits hdigits hlen hname] at hresult
    unfold stoull at hresult
    rw [if_neg (not_lt.mpr hlarge)] at hresult
    cases hresult
  · intro h
    rcases parseLogVersion_cases key with hnone | ⟨digits, hdigits, hlen, hname⟩
    · exact ⟨none, hnone, fun _ hv ↦ nomatch hv⟩
    · have hlt : ofDecimal digits < 2 ^ 64 := by
        by_contra hlarge
        exact h ⟨digits, hdigits, hlen, not_lt.mp hlarge, hname⟩
      have hread : stoull digits = .ok (ofDecimal digits) := stoull_eq_ok.mpr ⟨rfl, hlt⟩
      refine ⟨some (ofDecimal digits), ?_, fun version hv ↦ ?_⟩
      · rw [parseLogVersion_digits hdigits hlen hname, hread]
        rfl
      · obtain rfl := Option.some.inj hv
        rw [logFileName_ofDecimal hdigits hlen]
        exact hname

/-- **Log file names.** Names and versions correspond, and of the names of an object only one with a
number above 64 bits throws. -/
theorem log_file_names_iff (key : ByteString) :
    (∀ version < 2 ^ 64, ∀ pre : ByteString,
      parseLogVersion (pre ++ (logDir ++ logFileName version (ascii ".json"))) =
        .ok (some version)) ∧
    (∀ v < 2 ^ 64, ∀ w < 2 ^ 64,
      logFileName v (ascii ".json") < logFileName w (ascii ".json") ↔ v < w) ∧
    (ReadAsVersion key ↔ ¬TooLarge key) :=
  ⟨fun _ h ↦ parseLogVersion_logFileName h, fun _ hv _ hw ↦ logFileName_lt_iff hv hw _,
    readAsVersion_iff key⟩

/-- Twenty nines throw. -/
theorem twenty_nines_throw :
    ¬ReadAsVersion (ascii "t/_delta_log/99999999999999999999.json") := by
  rintro ⟨result, hresult, -⟩
  have hthrow : parseLogVersion (ascii "t/_delta_log/99999999999999999999.json") =
      .error .outOfRange := by
    decide +kernel
  cases hthrow.symm.trans hresult

end LakeVilla.DeltaLog

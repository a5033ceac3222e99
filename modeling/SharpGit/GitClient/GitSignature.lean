import SharpGit.Implementation.GitPool

namespace SharpGit.GitClient

open Native Implementation

/-- A UTC time in ticks of 100 ns since the year 1. -/
structure DateTime where
  ticks : Nat
  bounded : ticks ≤ 3155378975999999999
  deriving DecidableEq, Repr

namespace DateTime

/-- The ticks of 1601-01-01. -/
def fileTimeOffset : Nat := 504911232000000000

/-- The ticks of 1970-01-01. -/
def unixEpoch : Nat := 621355968000000000

def maxFileTime : Nat := 2650467743999999999

/-- `FromFileTimeUtc`; none where it raises. -/
def fromFileTimeUtc (fileTime : Int64) : Option DateTime :=
  if h : 0 ≤ fileTime.toInt ∧ fileTime.toInt ≤ maxFileTime then
    some ⟨fileTime.toInt.toNat + fileTimeOffset, by unfold fileTimeOffset maxFileTime at *; omega⟩
  else none

/-- `ToFileTimeUtc`; none where it raises. -/
def toFileTimeUtc (time : DateTime) : Option Int64 :=
  if fileTimeOffset ≤ time.ticks then some (Int64.ofNat (time.ticks - fileTimeOffset)) else none

/-- Exactly so many seconds after 1970-01-01. -/
def SecondsAfterEpoch (time : DateTime) (seconds : Int64) : Prop :=
  (time.ticks : Int) = unixEpoch + seconds.toInt * 10000000

end DateTime

/-- `git_signature`. -/
structure NativeSignature where
  name : Option CStr
  email : Option CStr
  time : Int64
  offset : Int32
  deriving DecidableEq, Repr

structure GitSignature where
  when : DateTime
  name : Option NetString
  email : Option NetString
  readOnly : Bool
  offset : Int32
  deriving DecidableEq, Repr

/-- The values of `user.name` and `user.email`. -/
structure UserConfiguration where
  userName : Option NetString
  userEmail : Option NetString

namespace GitSignature

/-- `DELTA_EPOCH_AS_FILETIME`. -/
def deltaEpochAsFileTime : Int64 := 116444736000000000

/-- The file time that the constructor computes, in 64 bits. -/
def fileTime (time : Int64) : Int64 := time * 10000000 + deltaEpochAsFileTime

/-- The constructor from a native signature; none where it raises. -/
def ofNative (signature : NativeSignature) : Option GitSignature := do
  let when ← DateTime.fromFileTimeUtc (fileTime signature.time)
  return {
    when := when
    name := signature.name.map utf8PtrToString
    email := signature.email.map utf8PtrToString
    readOnly := true
    offset := signature.offset }

/-- `Alloc`; none where it raises. -/
def alloc (repository : Option UserConfiguration) (signature : GitSignature) :
    Option NativeSignature := do
  let fileTime ← signature.when.toFileTimeUtc
  let name := signature.name <|> repository.bind (·.userName)
  let email := signature.email <|> repository.bind (·.userEmail)
  return {
    name := some (allocString (name.getD []))
    email := some (allocString (email.getD []))
    time := (fileTime - deltaEpochAsFileTime) / 10000000
    offset := signature.offset }

/-- The constructor raises, or what it reads is right and goes back as it came. -/
def KeepsTime (signature : NativeSignature) : Prop :=
  ∀ read, ofNative signature = some read →
    read.when.SecondsAfterEpoch signature.time ∧
      ∀ repository, ∃ back, read.alloc repository = some back ∧
        back.time = signature.time ∧ back.offset = signature.offset

/-- The file time without a limit of bits. -/
def exactFileTime (time : Int64) : Int := time.toInt * 10000000 + 116444736000000000

/-- Accepted by `FromFileTimeUtc`. -/
def Accepted (fileTime : Int) : Prop := 0 ≤ fileTime ∧ fileTime ≤ DateTime.maxFileTime

/-- 2 to the 64. -/
def twoPow64 : Nat := 18446744073709551616

theorem fileTime_toInt (time : Int64) :
    (fileTime time).toInt = (exactFileTime time).bmod twoPow64 := by
  have hfactor : (10000000 : Int64).toInt = 10000000 := by decide
  have hdelta : deltaEpochAsFileTime.toInt = 116444736000000000 := by decide
  rw [fileTime, Int64.toInt_add, Int64.toInt_mul, hfactor, hdelta, Int.bmod_add_bmod]
  rfl

/-- A number that is accepted fits. -/
theorem bmod_accepted {fileTime : Int} (h : Accepted fileTime) :
    fileTime.bmod twoPow64 = fileTime := by
  rw [Accepted, DateTime.maxFileTime] at h
  rw [twoPow64]
  apply Int.bmod_eq_of_le
  · omega
  · omega

theorem accepted_iff (time : Int64) :
    Accepted (exactFileTime time) ↔ -11644473600 ≤ time.toInt ∧ time.toInt ≤ 253402300799 := by
  rw [Accepted, exactFileTime, DateTime.maxFileTime]
  omega

/-- What `FromFileTimeUtc` accepts, it keeps. -/
theorem fromFileTimeUtc_eq_some {fileTime : Int64} {time : DateTime}
    (h : DateTime.fromFileTimeUtc fileTime = some time) :
    Accepted fileTime.toInt ∧ (time.ticks : Int) = fileTime.toInt + DateTime.fileTimeOffset := by
  rw [DateTime.fromFileTimeUtc] at h
  split at h
  · rename_i haccepted
    obtain rfl := Option.some.inj h
    refine ⟨haccepted, ?_⟩
    have hlow := haccepted.1
    push_cast
    omega
  · cases h

theorem ofNative_eq_some {signature : NativeSignature} {read : GitSignature}
    (h : ofNative signature = some read) :
    DateTime.fromFileTimeUtc (fileTime signature.time) = some read.when ∧
      read.offset = signature.offset := by
  rw [ofNative, Option.bind_eq_bind, Option.bind_eq_some_iff] at h
  obtain ⟨when, hwhen, hread⟩ := h
  obtain rfl := Option.some.inj hread
  exact ⟨hwhen, rfl⟩

/-- A time of so many seconds goes back as that number. -/
theorem alloc_time {read : GitSignature} {seconds : Int64}
    (haccepted : Accepted (exactFileTime seconds))
    (hticks : (read.when.ticks : Int) = exactFileTime seconds + DateTime.fileTimeOffset)
    (repository : Option UserConfiguration) :
    ∃ back, read.alloc repository = some back ∧ back.time = seconds ∧
      back.offset = read.offset := by
  have hback : read.when.toFileTimeUtc =
      some (Int64.ofNat (read.when.ticks - DateTime.fileTimeOffset)) := by
    apply if_pos
    have hlow := haccepted.1
    omega
  have hseconds : (read.when.ticks - DateTime.fileTimeOffset : Nat) =
      seconds.toInt * 10000000 + 116444736000000000 := by
    rw [exactFileTime] at haccepted hticks
    have hlow := haccepted.1
    omega
  have hrange := (accepted_iff seconds).mp haccepted
  have hfactor : (10000000 : Int64).toInt = 10000000 := by decide
  have hdelta : deltaEpochAsFileTime.toInt = 116444736000000000 := by decide
  have hfileTime : (Int64.ofNat (read.when.ticks - DateTime.fileTimeOffset)).toInt =
      seconds.toInt * 10000000 + 116444736000000000 := by
    rw [Int64.toInt_ofNat_of_lt (by omega), hseconds]
  have hbelow : (Int64.ofNat (read.when.ticks - DateTime.fileTimeOffset) -
      deltaEpochAsFileTime).toInt = seconds.toInt * 10000000 := by
    rw [Int64.toInt_sub, hfileTime, hdelta, Int.add_sub_cancel]
    apply Int.bmod_eq_of_le
    · omega
    · omega
  rw [alloc, hback]
  refine ⟨_, rfl, ?_, rfl⟩
  rw [← Int64.toInt_inj, Int64.toInt_div, hbelow, hfactor, Int.mul_tdiv_cancel _ (by decide)]
  apply Int.bmod_eq_of_le
  · omega
  · omega

/-- The constructor keeps the time just when its file time has not wrapped into what
`FromFileTimeUtc` accepts. -/
theorem keepsTime_iff (signature : NativeSignature) :
    KeepsTime signature ↔
      Accepted (exactFileTime signature.time) ∨
        ¬Accepted ((exactFileTime signature.time).bmod twoPow64) := by
  rw [← fileTime_toInt]
  constructor
  · intro h
    by_cases haccepted : Accepted (fileTime signature.time).toInt
    · left
      obtain ⟨read, hread⟩ : ∃ read, ofNative signature = some read := by
        obtain ⟨hlow, hhigh⟩ := haccepted
        rw [ofNative, DateTime.fromFileTimeUtc, dif_pos ⟨hlow, hhigh⟩]
        exact ⟨_, rfl⟩
      obtain ⟨hwhen, -⟩ := ofNative_eq_some hread
      obtain ⟨-, hticks⟩ := fromFileTimeUtc_eq_some hwhen
      have hexact := (h read hread).1
      rw [DateTime.SecondsAfterEpoch, DateTime.unixEpoch] at hexact
      rw [DateTime.fileTimeOffset] at hticks
      have hsame : exactFileTime signature.time = (fileTime signature.time).toInt := by
        rw [exactFileTime]
        omega
      rwa [hsame]
    · exact .inr haccepted
  · intro h read hread
    obtain ⟨hwhen, hoffset⟩ := ofNative_eq_some hread
    obtain ⟨haccepted, hticks⟩ := fromFileTimeUtc_eq_some hwhen
    have hexact := h.resolve_right (not_not_intro haccepted)
    rw [fileTime_toInt, bmod_accepted hexact] at hticks
    constructor
    · rw [DateTime.SecondsAfterEpoch, hticks, exactFileTime, DateTime.unixEpoch,
        DateTime.fileTimeOffset]
      omega
    · intro repository
      rw [← hoffset]
      exact alloc_time hexact hticks repository

/-- The product of 2 ^ 57 seconds wraps to zero, and they are read as 1970-01-01. -/
theorem keepsTime_wraps :
    (ofNative ⟨some [], some [], 144115188075855872, 0⟩).map (·.when.ticks) =
        some DateTime.unixEpoch ∧
      ¬KeepsTime ⟨some [], some [], 144115188075855872, 0⟩ := by
  have hread : (ofNative ⟨some [], some [], 144115188075855872, 0⟩).map (·.when.ticks) =
      some DateTime.unixEpoch := by decide
  refine ⟨hread, ?_⟩
  intro h
  obtain ⟨read, hsome, hticks⟩ := Option.map_eq_some_iff.mp hread
  have hexact := (h read hsome).1
  rw [DateTime.SecondsAfterEpoch, hticks] at hexact
  revert hexact
  decide

end GitSignature

end SharpGit.GitClient

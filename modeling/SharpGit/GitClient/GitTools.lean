import SharpGit.Library.Scan
import SharpGit.Native.Utf8
import Mathlib.Data.List.DropRight

namespace SharpGit.GitClient

open Library Native

inductive GitToolsException
  | argumentNull (param : String)
  | argument (param : String)
  | argumentOutOfRange
  | indexOutOfRange
  | notSupported
  | pathTooLong
  | other
  deriving DecidableEq, Repr

namespace GitTools

abbrev backslash : UInt16 := 0x5c
abbrev slash : UInt16 := 0x2f
abbrev colon : UInt16 := 0x3a
abbrev dot : UInt16 := 0x2e

/-- "._-" -/
def hostChars : NetString := [0x2e, 0x5f, 0x2d]

/-- "._-$ " -/
def shareChars : NetString := [0x2e, 0x5f, 0x2d, 0x24, 0x20]

def isUpper (c : UInt16) : Bool := 0x41 ≤ c && c ≤ 0x5a
def isLower (c : UInt16) : Bool := 0x61 ≤ c && c ≤ 0x7a
def isDigit (c : UInt16) : Bool := 0x30 ≤ c && c ≤ 0x39

/-- What `Char::IsLetterOrDigit` and `ToLowerInvariant` know of characters. -/
structure UnicodeData where
  letterOrDigit : Char → Bool
  letterOrDigit_ascii : ∀ c : Char, c.toNat < 0x80 → letterOrDigit c = c.isAlphanum
  letterOrDigit_replacement : letterOrDigit replacement = false
  toLower : UInt16 → UInt16
  toLower_ascii : ∀ c : UInt16, c < 0x80 → toLower c = if isUpper c then c + 0x20 else c

def hostChar (c : UInt16) : Bool := isLower c || isDigit c || hostChars.contains c

/-- `path[i]`. -/
def charAt (path : NetString) (i : Nat) : Except GitToolsException UInt16 :=
  match path[i]? with
  | some c => .ok c
  | none => .error .indexOutOfRange

def isSeparator (path : NetString) (i : Nat) : Except GitToolsException Bool := do
  let c ← charAt path i
  return c = backslash || c = slash

def isDirSeparator (path : NetString) (i : Nat) : Except GitToolsException Bool := do
  let c ← charAt path i
  return c = backslash

/-- `Char::IsLetterOrDigit` of the character that begins at `i`. -/
def isLetterOrDigit (unicode : UnicodeData) (path : NetString) (i : Nat) : Bool :=
  match path.drop i with
  | [] => false
  | [c] => unicode.letterOrDigit (unitChar c)
  | c :: next :: _ =>
    if isHighSurrogate c && isLowSurrogate next then unicode.letterOrDigit (pairChar c next)
    else unicode.letterOrDigit (unitChar c)

/-- One round of `GenerateInvalidCharMap`. -/
def markInvalid (invalid : List Bool) (c : UInt16) : List Bool :=
  (invalid ++ List.replicate (c.toNat + 1 - invalid.length) false).set c.toNat true

/-- `InvalidCharMap`, from the characters of `Path::GetInvalidPathChars`. -/
def invalidCharMap (invalidPathChars : List UInt16) : List Bool :=
  invalidPathChars.foldl markInvalid []

def isInvalid (invalidMap : List Bool) (c : UInt16) : Bool :=
  match invalidMap[c.toNat]? with
  | some invalid => invalid
  | none => false

/-- The loop over one name; none where it meets an invalid character. -/
def scanName (invalidMap : List Bool) (path : NetString) : Nat → Nat → Option Nat
  | 0, i => some i
  | steps + 1, i =>
    match path[i]? with
    | none => some i
    | some cc =>
      if isInvalid invalidMap cc then none
      else if cc = backslash || cc = slash || cc = colon then some i
      else scanName invalidMap path steps (i + 1)

/-- Whether the name at `i` is a run of dots. -/
def isRelative (path : NetString) (i : Nat) : Except GitToolsException Bool :=
  if path[i]? = some dot then
    let j := scan (fun j => path[j]? = some dot) (path.length - i) i
    if j < path.length then isSeparator path j else return true
  else return false

/-- A turn of the loop over the names: what it returns, or where the next name begins. -/
def nameTurn (invalidMap : List Bool) (path : NetString) (i : Nat) :
    Except GitToolsException (Bool ⊕ Nat) := do
  if ← isRelative path i then return .inl false
  else match scanName invalidMap path (path.length - i) i with
    | none => return .inl false
    | some j =>
      if j = i then return .inl false
      else if j = path.length then return .inl true
      else if !(← isDirSeparator path j) then return .inl false
      else if j + 1 = path.length then return .inl false
      else return .inr (j + 1)

/-- The loop; each turn moves `i`. -/
def nameLoop (invalidMap : List Bool) (path : NetString) :
    Nat → Nat → Except GitToolsException Bool
  | 0, _ => return true
  | turns + 1, i =>
    if i < path.length then do
      match ← nameTurn invalidMap path i with
      | .inl result => return result
      | .inr next => nameLoop invalidMap path turns next
    else return true

/-- What follows the share name of a UNC path, which ends at `i`. -/
def afterShare (invalidMap : List Bool) (path : NetString) (i : Nat) :
    Except GitToolsException Bool := do
  let c := path.length
  if i = c then return true
  else if !(← isDirSeparator path i) then return false
  else if c = i + 1 then return false
  else nameLoop invalidMap path (c - (i + 1)) (i + 1)

/-- What follows the host name of a UNC path, which ends at `i`. -/
def shareNormalized (unicode : UnicodeData) (invalidMap : List Bool) (path : NetString)
    (i : Nat) : Except GitToolsException Bool := do
  let c := path.length
  if i = 2 then return false
  else if !(← isDirSeparator path i) then return false
  else
    let n := i + 1
    let i := scan (fun i => isLetterOrDigit unicode path i || path[i]?.any shareChars.contains)
      (c - n) n
    if i = n then return false
    else afterShare invalidMap path i

def isNormalizedFullPath (unicode : UnicodeData) (invalidPathChars : List UInt16)
    (path : NetString) : Except GitToolsException Bool := do
  let c := path.length
  let invalidMap := invalidCharMap invalidPathChars
  if path = [] then .error (.argumentNull "path")
  else if c < 3 then return false
  else if ← isDirSeparator path 0 then
    if !(← isDirSeparator path 1) then return false
    else
      let i := scan (fun i => path[i]?.any hostChar) (c - 2) 2
      shareNormalized unicode invalidMap path i
  else if (← charAt path 1) ≠ colon then return false
  else if !(← isDirSeparator path 2) then return false
  else if !isUpper (← charAt path 0) then return false
  else nameLoop invalidMap path (c - 3) 3

/-- The platform's part of paths. Its invalid characters contain no separator. -/
structure PathApi where
  unicode : UnicodeData
  invalidPathChars : List UInt16
  separator : backslash ∉ invalidPathChars
  getFullPath : NetString → Except GitToolsException NetString
  /-- What a call of `GetFullPathNameW` leaves in a buffer of this size, as many characters as it
  returns; the last argument tells the two buffers apart. -/
  getFullPathNameW : NetString → Nat → Bool → NetString

/-- `Substring(start)`. -/
def substring (path : NetString) (start : Nat) : Except GitToolsException NetString :=
  if start ≤ path.length then .ok (path.drop start) else .error .argumentOutOfRange

/-- `Substring(0, length)`. -/
def substringTo (path : NetString) (length : Nat) : Except GitToolsException NetString :=
  if length ≤ path.length then .ok (path.take length) else .error .argumentOutOfRange

def indexOf (path : NetString) (c : UInt16) (start : Nat) : Option Nat :=
  let n := start + ((path.drop start).takeWhile (· != c)).length
  if n < path.length then some n else none

def trimEnd (path : NetString) : NetString := path.rdropWhile (· == backslash)

/-- `ToUpperInvariant` of an ASCII letter. -/
def toUpper (c : UInt16) : UInt16 := if isLower c then c - 0x20 else c

/-- "\\\\?\\" -/
def longPathMark : NetString := [backslash, backslash, 0x3f, backslash]

/-- "\\\\?\\UNC\\" -/
def longUncMark : NetString := longPathMark ++ [0x55, 0x4e, 0x43, backslash]

def stripLongPrefix (path : NetString) : NetString :=
  if longPathMark.isPrefixOf path then
    if longUncMark.isPrefixOf path then backslash :: path.drop 7
    else path.drop 4
  else path

def getPathRootPart (unicode : UnicodeData) (path : NetString) :
    Except GitToolsException (Option NetString) :=
  if path = [] then .error (.argumentNull "path")
  else if 3 ≤ path.length ∧ path[1]? = some colon ∧ path[2]? = some backslash then
    if path.head?.any isLower then .ok (some ((path.take 1).map toUpper ++ [colon, backslash]))
    else .ok (some (path.take 3))
  else if !([backslash, backslash].isPrefixOf path) then .ok none
  else match indexOf path backslash 2 with
    | none => .ok none
    | some nSlash =>
      if nSlash ≤ 2 then .ok none
      else
        let nEnd := (indexOf path backslash (nSlash + 1)).getD path.length
        .ok (some (backslash :: backslash :: ((path.take nSlash).drop 2).map unicode.toLower ++
          (path.take nEnd).drop nSlash))

/-- The result is the same whether or not a character is invalid. -/
def pathContainsInvalidChars (invalidMap : List Bool) : NetString → Bool
  | [] => false
  | c :: path => if isInvalid invalidMap c then false else pathContainsInvalidChars invalidMap path

/-- `sz` of `LongGetFullPath`. -/
def longBufferSize : Nat := 1023

def longGetFullPath (api : PathApi) (path : NetString) : Except GitToolsException NetString :=
  if path = [] then .error (.argumentNull "path")
  else
    let path := stripLongPrefix path
    let full := api.getFullPathNameW path longBufferSize false
    if full = [] then .error .pathTooLong
    else if full.length > longBufferSize then
      .ok (stripLongPrefix (api.getFullPathNameW path longBufferSize true))
    else .ok (stripLongPrefix full)

def maxPath : Nat := 260

/-- The second try of `GetNormalizedFullPath`. -/
def retryFullPath (api : PathApi) (path : NetString) : Except GitToolsException NetString := do
  let full ← longGetFullPath api path
  if (← getPathRootPart api.unicode full).isNone then .error .pathTooLong
  else return full

def resolveFullPath (api : PathApi) (path : NetString) : Except GitToolsException NetString :=
  if path.length < maxPath then
    match api.getFullPath path with
    | .ok full => .ok full
    | .error .pathTooLong => retryFullPath api path
    | .error .notSupported => retryFullPath api path
    | .error e => .error e
  else retryFullPath api path

/-- The end of `GetNormalizedFullPath`: the case of drive and host, and trailing separators. -/
def normalizeEnds (unicode : UnicodeData) (path : NetString) :
    Except GitToolsException NetString :=
  if path[1]? = some colon then
    let path := (path.take 1).map toUpper ++ path.drop 1
    let r := trimEnd path
    if r.length > 3 then .ok r
    else substringTo path 3
  else if [backslash, backslash].isPrefixOf path then do
    match ← getPathRootPart unicode path with
    | some root =>
      if root.isPrefixOf path then return trimEnd path
      else return root ++ trimEnd (← substring path root.length)
    | none => return trimEnd path
  else .ok (trimEnd path)

def getNormalizedFullPath (api : PathApi) (path : NetString) :
    Except GitToolsException NetString := do
  if path = [] then .error (.argumentNull "path")
  else
    let path := if path.head? = some backslash then stripLongPrefix path else path
    if ← isNormalizedFullPath api.unicode api.invalidPathChars path then return path
    else if pathContainsInvalidChars (invalidCharMap api.invalidPathChars) path ||
        (path.drop 2).contains colon then .error (.argument "path")
    else
      let full ← resolveFullPath api path
      normalizeEnds api.unicode full

end GitTools

end SharpGit.GitClient

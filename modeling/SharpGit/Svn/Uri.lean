import SharpGit.Native.Percent
import SharpGit.Svn.Canonicalize

namespace SharpGit.Svn

open Library Native

abbrev atSign : UInt8 := 0x40
abbrev leftBracket : UInt8 := 0x5b
abbrev rightBracket : UInt8 := 0x5d

/-- `svn_uri__char_validity`, the entries below 128; the others are 0. -/
def uriCharTable : List UInt8 :=
  [0, 0, 0, 0, 0, 0, 0, 0,   0, 0, 0, 0, 0, 0, 0, 0,
   0, 0, 0, 0, 0, 0, 0, 0,   0, 0, 0, 0, 0, 0, 0, 0,
   0, 1, 0, 0, 1, 0, 1, 1,   1, 1, 1, 1, 1, 1, 1, 1,
   1, 1, 1, 1, 1, 1, 1, 1,   1, 1, 1, 0, 0, 1, 0, 0,
   1, 1, 1, 1, 1, 1, 1, 1,   1, 1, 1, 1, 1, 1, 1, 1,
   1, 1, 1, 1, 1, 1, 1, 1,   1, 1, 1, 0, 0, 0, 0, 1,
   0, 1, 1, 1, 1, 1, 1, 1,   1, 1, 1, 1, 1, 1, 1, 1,
   1, 1, 1, 1, 1, 1, 1, 1,   1, 1, 1, 0, 0, 0, 1, 0]

def uriCharValidity (c : UInt8) : Bool := uriCharTable.getD c.toNat 0 ≠ 0

/-- The scheme in front of "://", and what is behind that. -/
def uriScheme (path : CStr) : Option (CStr × CStr) :=
  let scheme := path.takeWhile fun c => c ≠ slash && c ≠ colon
  match path.drop scheme.length with
  | c :: d :: e :: src =>
    if c = colon ∧ d = slash ∧ e = slash then some (scheme, src) else none
  | _ => none

/-- The username and password with their '@', if there is one before the next '/'. -/
def uriUser (src : CStr) : CStr × CStr :=
  let user := src.takeWhile fun c => c ≠ slash && c ≠ atSign
  match src.drop user.length with
  | c :: rest => if c = atSign then (user ++ [atSign], rest) else ([], src)
  | [] => ([], src)

def isDigit (c : UInt8) : Bool := 0x30 ≤ c && c ≤ 0x39

def isAddressChar (c : UInt8) : Bool := c = colon || isHexDigit c

/-- The hostname in lower case. -/
def uriHost (src : CStr) : CStr × CStr :=
  if src[0]? = some leftBracket then
    let address := src.tail.takeWhile isAddressChar
    let rest := src.tail.drop address.length
    if rest[0]? = some rightBracket then
      (leftBracket :: address.map canonicalizeToLower ++ [rightBracket], rest.tail)
    else (leftBracket :: address.map canonicalizeToLower, rest)
  else
    let host := src.takeWhile fun c => c ≠ slash && c ≠ colon
    (host.map canonicalizeToLower, src.drop host.length)

def httpScheme : CStr := [0x68, 0x74, 0x74, 0x70, colon]
def httpsScheme : CStr := [0x68, 0x74, 0x74, 0x70, 0x73, colon]
def svnScheme : CStr := [0x73, 0x76, 0x6e, colon]
def fileScheme : CStr := [0x66, 0x69, 0x6c, 0x65, colon]

/-- The port number that does not belong into a canonical URI: `canon` starts with `scheme`, `src`
with `port`, and the path follows. -/
def isDefaultPort (scheme port canon src : CStr) : Bool :=
  port.isPrefixOf src && (src.drop port.length).headD slash = slash && scheme.isPrefixOf canon

/-- The port, unless it is empty or the default one. -/
def uriPort (canon src : CStr) : CStr × CStr :=
  if src[0]? = some colon then
    let src :=
      if isDefaultPort httpScheme [colon, 0x38, 0x30] canon src then src.drop 3
      else if isDefaultPort httpsScheme [colon, 0x34, 0x34, 0x33] canon src then src.drop 4
      else if isDefaultPort svnScheme [colon, 0x33, 0x36, 0x39, 0x30] canon src then src.drop 5
      else if (src.drop 1).headD slash = slash then src.drop 1
      else src
    ((src.takeWhile (· ≠ slash)).map canonicalizeToLower, src.dropWhile (· ≠ slash))
  else ([], src)

/-- The pieces between separators, which "%2F" spells too; and whether a separator closed them. -/
def uriSegments : CStr → List (CStr × Bool)
  | c :: d :: e :: src =>
    if c = slash then ([], true) :: uriSegments (d :: e :: src)
    else if c = percent && d = 0x32 && canonicalizeToUpper e = 0x46 then
      ([], true) :: uriSegments src
    else
      match uriSegments (d :: e :: src) with
      | [] => [([c], false)]
      | (seg, closed) :: rest => (c :: seg, closed) :: rest
  | src => segments slash src

/-- Empty, or "." in one of its spellings. -/
def isNoopSegment (seg : CStr) : Bool :=
  seg = [] || seg = [dot] ||
    (seg.length = 3 && seg[0]? = some percent && seg[1]? = some 0x32 &&
      seg[2]?.map canonicalizeToUpper = some 0x45)

/-- A drive letter in upper case. -/
def upperDrive (seg : CStr) : CStr :=
  match seg with
  | c :: d :: rest => if isLower c && d = colon then canonicalizeToUpper c :: d :: rest else seg
  | _ => seg

/-- One turn of the `while (*src)` loop: `dst` and `canon_segments` after a segment. -/
def appendUriSegment (url : Bool) (acc : CStr × Nat) (seg : CStr × Bool) : CStr × Nat :=
  if isNoopSegment seg.1 then acc
  else
    let text :=
      if url && acc.2 = 1 && fileScheme.isPrefixOf acc.1 then upperDrive seg.1 else seg.1
    (acc.1 ++ text ++ (if seg.2 then [slash] else []), acc.2 + 1)

/-- The last loop: every character is escaped iff the table says so. -/
def normalizeUriChars : CStr → CStr
  | c :: high :: low :: src =>
    if c = percent then
      if isHexDigit high && isHexDigit low then
        let val := UInt8.ofNat (hexValue high * 16 + hexValue low)
        (if uriCharValidity val then [val]
          else [percent, canonicalizeToUpper high, canonicalizeToUpper low]) ++
            normalizeUriChars src
      else percentEscape percent ++ normalizeUriChars (high :: low :: src)
    else
      (if c = slash || uriCharValidity c then [c] else percentEscape c) ++
        normalizeUriChars (high :: low :: src)
  | src => src.flatMap fun c => if c = slash || uriCharValidity c then [c] else percentEscape c

/-- `canonicalize` with `type_uri`. Nothing stands for an error. -/
def canonicalizeUri (path : CStr) : Option CStr :=
  if path = [] ∨ path[0]? = some slash then none
  else
    match uriScheme path with
    | none =>
      let (dst, canonSegments) := (uriSegments path).foldl (appendUriSegment false) ([], 0)
      some (if 0 < canonSegments then chop slash dst else dst)
    | some (scheme, src) =>
      let scheme := scheme.map canonicalizeToLower ++ [colon, slash, slash]
      let (user, src) := uriUser src
      let (host, src) := uriHost src
      let (port, src) := uriPort (scheme ++ user ++ host) src
      -- the slash in front of the path, or whatever is there
      let front := scheme ++ user ++ host ++ port ++ src.take 1
      let (dst, _) := (uriSegments src.tail).foldl (appendUriSegment true) (front, 1)
      let canon := if path.length = scheme.length then dst else chop slash dst
      some (canon.take front.length ++ normalizeUriChars (canon.drop front.length))

def svnUriCanonicalize (uri : CStr) : Option CStr := canonicalizeUri uri

def pathIsUrl (path : CStr) : Bool :=
  match uriScheme path with
  | some (scheme, _) => scheme ≠ []
  | none => false

/-- What follows a host in lower case. -/
def canonicalHost (ptr : CStr) : Option CStr :=
  if ptr[0]? = some leftBracket then
    let rest := ptr.tail.dropWhile fun c => isAddressChar c && !isUpper c
    if rest[0]? = some rightBracket then some rest.tail else none
  else
    let host := ptr.takeWhile fun c => c ≠ slash && c ≠ colon
    if host.any isUpper then none else some (ptr.drop host.length)

/-- The `apr_int64_t` that the digits give. -/
def portNumber (digits : CStr) : BitVec 64 :=
  digits.foldl (fun port c => 10 * port + BitVec.ofNat 64 (c.toNat - 0x30)) 0

/-- What follows a port that is neither empty nor the default one; "http://host:stuff" passes. -/
def canonicalPort (uri ptr : CStr) : Option CStr :=
  if ptr[0]? = some colon then
    let digits := ptr.tail.takeWhile isDigit
    let rest := ptr.tail.drop digits.length
    let port := portNumber digits
    if digits = [] && rest.headD slash = slash then none
    else if port = 80 && httpScheme.isPrefixOf uri then none
    else if port = 443 && httpsScheme.isPrefixOf uri then none
    else if port = 3690 && svnScheme.isPrefixOf uri then none
    else some (rest.dropWhile (· ≠ slash))
  else some ptr

/-- The third '/' of "file:///c:" is followed by a drive that is not in upper case. -/
def lowerDriveFollows (uri ptr : CStr) : Bool :=
  ptr[0]? = some slash && fileScheme.isPrefixOf uri && !(ptr[1]?.any isUpper) &&
    ptr[2]? = some colon

/-- The loop over the segments; `seg` is read so far, `before` is the byte in front of `ptr`. -/
def uriSegmentsCanonical (seg : CStr) (before : Option UInt8) : CStr → Bool
  | [] => seg ≠ [dot] && before ≠ some slash
  | c :: ptr =>
    if c = slash then
      seg ≠ [dot] && ptr[0]? ≠ some slash && uriSegmentsCanonical [] (some slash) ptr
    else uriSegmentsCanonical (seg ++ [c]) (some c) ptr

def isUpperHexDigit (c : UInt8) : Bool := isHexDigit c && !isLower c

/-- The loop over the characters behind the host. -/
def uriCharsCanonical : CStr → Bool
  | c :: high :: low :: ptr =>
    if c = percent then
      isUpperHexDigit high && isUpperHexDigit low &&
        !uriCharValidity (UInt8.ofNat (hexValue high * 16 + hexValue low)) && uriCharsCanonical ptr
    else (c = slash || uriCharValidity c) && uriCharsCanonical (high :: low :: ptr)
  | ptr => ptr.all fun c => c = slash || uriCharValidity c

def svnUriIsCanonical (uri : CStr) : Bool :=
  if pathIsUrl uri then
    match uriScheme uri with
    | none => false
    | some (scheme, ptr) =>
      if scheme.any isUpper then false
      else if ptr = [] then true
      else
        match canonicalHost (uriUser ptr).2 with
        | none => false
        | some ptr =>
          match canonicalPort uri ptr with
          | none => false
          | some ptr =>
            !lowerDriveFollows uri ptr &&
              uriSegmentsCanonical [] (uri.take (uri.length - ptr.length)).getLast? ptr &&
              uriCharsCanonical ptr
  else false

end SharpGit.Svn

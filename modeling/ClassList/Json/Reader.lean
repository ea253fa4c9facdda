-- Reading JSON without any leniency, and with a limit on nesting. A failure
-- says its cause and the place where reading stopped.
import ClassList.Json.Basic

namespace ClassList.Json

/-! ## Failures -/

/-- Why a text is not a JSON document. -/
inductive Cause where
  | eofList
  | eofObject
  | eofString
  | eofValue
  | expectedColon
  | expectedListCommaOrEnd
  | expectedObjectCommaOrEnd
  | expectedIdent
  | expectedValue
  | invalidEscape
  | invalidNumber
  | numberOutOfRange
  | controlCharacter
  | keyNotString
  | loneSurrogate
  | trailingComma
  | trailingCharacters
  | endOfHexEscape
  | nestedTooDeep
deriving DecidableEq

namespace Cause

/-- The text ended inside a document that was right so far. -/
def isEof : Cause → Bool
  | eofList | eofObject | eofString | eofValue => true
  | _ => false

def message : Cause → String
  | eofList => "EOF while parsing a list"
  | eofObject => "EOF while parsing an object"
  | eofString => "EOF while parsing a string"
  | eofValue => "EOF while parsing a value"
  | expectedColon => "expected `:`"
  | expectedListCommaOrEnd => "expected `,` or `]`"
  | expectedObjectCommaOrEnd => "expected `,` or `\x7d`"
  | expectedIdent => "expected ident"
  | expectedValue => "expected value"
  | invalidEscape => "invalid escape"
  | invalidNumber => "invalid number"
  | numberOutOfRange => "number out of range"
  | controlCharacter => "control character (\\u0000-\\u001F) found while parsing a string"
  | keyNotString => "key must be a string"
  | loneSurrogate => "lone leading surrogate in hex escape"
  | trailingComma => "trailing comma"
  | trailingCharacters => "trailing characters"
  | endOfHexEscape => "unexpected end of hex escape"
  | nestedTooDeep => "recursion limit exceeded"

end Cause

/-- A cause and how many bytes of the document lie behind its place. -/
structure Failure where
  cause : Cause
  left : Nat
deriving DecidableEq

namespace Failure

/-- The line of the place, from one, and its column in bytes. -/
def lineCol (f : Failure) (document : Text) : Nat × Nat :=
  let offset := document.size - f.left
  let before := document.upTo offset
  (1 + before.count '\n', offset - (before.size - before.lastLine.size))

/-- The cause and its place in a document. -/
def message (f : Failure) (document : Text) : Text :=
  let (line, column) := f.lineCol document
  f.cause.message.toList ++ " at line ".toList ++ .ofNat line ++ " column ".toList ++ .ofNat column

end Failure

/-- Reads the start of a text, and gives a value and the text behind it. -/
abbrev Reader (α : Type) := Text → Except Failure (α × Text)

/-- Fails behind everything read so far. -/
def failHere {α : Type} (cause : Cause) (rest : Text) : Except Failure α :=
  .error ⟨cause, rest.size⟩

/-- Fails behind the next byte, if there is one. -/
def failNext {α : Type} (cause : Cause) (rest : Text) : Except Failure α :=
  .error ⟨cause, rest.size - 1⟩

/-! ## Words and blanks -/

def isBlank (c : Char) : Bool := c == ' ' || c == '\n' || c == '\t' || c == '\r'

def skipBlanks (t : Text) : Text := t.dropWhile isBlank

/-- The rest of `null`, `true` or `false`, and then the value that it names. -/
def readWord (v : Json) : Text → Reader Json
  | [], t => .ok (v, t)
  | _ :: _, [] => failHere .eofValue []
  | w :: word, c :: t => if c = w then readWord v word t else failNext .expectedIdent (c :: t)

/-! ## Strings -/

/-- The value of a hexadecimal digit. -/
def hexDigit? (c : Char) : Option Nat :=
  if '0' ≤ c ∧ c ≤ '9' then some (c.toNat - '0'.toNat)
  else if 'a' ≤ c ∧ c ≤ 'f' then some (c.toNat - 'a'.toNat + 10)
  else if 'A' ≤ c ∧ c ≤ 'F' then some (c.toNat - 'A'.toNat + 10)
  else none

/-- Four hexadecimal digits. They are looked for in the next four bytes. -/
def readHex (t : Text) : Except Failure (Nat × Text) :=
  if t.size < 4 then failHere .eofString []
  else
    match (t.take 4).mapM hexDigit? with
    | some digits => .ok (digits.foldl (fun n d => 16 * n + d) 0, t.drop 4)
    | none => .error ⟨.invalidEscape, t.size - 4⟩

/-- The second half of a character that takes two escapes. -/
def readLowSurrogate (high : Nat) : Reader Char
  | [] => failHere .eofString []
  | '\\' :: 'u' :: t => do
    let (low, rest) ← readHex t
    if 0xDC00 ≤ low ∧ low ≤ 0xDFFF then
      .ok (Char.ofNat ((high - 0xD800) * 0x400 + (low - 0xDC00) + 0x10000), rest)
    else failHere .loneSurrogate rest
  | ['\\'] => failHere .eofString []
  | '\\' :: t => failNext .endOfHexEscape t
  | t => failNext .endOfHexEscape t

/-- A character behind `\u`. -/
def readUnicode (t : Text) : Except Failure (Char × Text) := do
  let (n, rest) ← readHex t
  if 0xDC00 ≤ n ∧ n ≤ 0xDFFF then failHere .loneSurrogate rest
  else if 0xD800 ≤ n ∧ n ≤ 0xDBFF then readLowSurrogate n rest
  else .ok (Char.ofNat n, rest)

/-- A character behind a backslash. -/
def readEscape : Reader Char
  | [] => failHere .eofString []
  | '"' :: t => .ok ('"', t)
  | '\\' :: t => .ok ('\\', t)
  | '/' :: t => .ok ('/', t)
  | 'b' :: t => .ok ('\x08', t)
  | 'f' :: t => .ok ('\x0c', t)
  | 'n' :: t => .ok ('\n', t)
  | 'r' :: t => .ok ('\r', t)
  | 't' :: t => .ok ('\t', t)
  | 'u' :: t => readUnicode t
  | t => failNext .invalidEscape t

/-- A string behind its first quote. Each character takes one unit of fuel, so
the length of the text is enough. -/
def readString (fuel : Nat) (done : Text) (t : Text) : Except Failure (Text × Text) :=
  match fuel, t with
  | _, [] | 0, _ => failHere .eofString []
  | fuel + 1, c :: t =>
    if c = '"' then .ok (done.reverse, t)
    else if c = '\\' then
      match readEscape t with
      | .ok (e, rest) => readString fuel (e :: done) rest
      | .error f => .error f
    else if c.toNat < 0x20 then failHere .controlCharacter t
    else readString fuel (c :: done) t

/-! ## Numbers -/

/-- The largest significand. Digits that do not fit are left out. -/
def maxSignificand : Nat := 18446744073709551615

/-- Takes digits into a significand as long as they fit, and says how many did. -/
def absorb : Nat → Text → Nat × Nat
  | v, [] => (v, 0)
  | v, c :: t =>
    if 10 * v + Text.digit c ≤ maxSignificand then
      let (w, k) := absorb (10 * v + Text.digit c) t
      (w, k + 1)
    else (v, 0)

/-- The largest exponent. -/
def maxExponent : Nat := 2147483647

/-- The largest magnitude of a negative integer. -/
def maxNegative : Nat := 9223372036854775808

/-- The digits of an exponent behind its first one. There is no value if it
is too large. -/
def readExponentDigits : Nat → Text → Option Nat × Text
  | v, [] => (some v, [])
  | v, c :: t =>
    if c.isDigit then
      if maxExponent < 10 * v + Text.digit c then (none, t)
      else readExponentDigits (10 * v + Text.digit c) t
    else (some v, c :: t)

/-- The float of a sign, a significand and an exponent. -/
def floatOf (negative : Bool) (significand : Nat) (exponent : Int) (rest : Text) :
    Except Failure (Json × Text) :=
  match Binary64.scaled? significand exponent with
  | some units => .ok (.float ⟨negative, units⟩, rest)
  | none => failHere .numberOutOfRange rest

/-- The exponent of a number, behind its sign. -/
def readSignedExponent (negative below : Bool) (significand : Nat) (exponent : Int) :
    Reader Json
  | [] => failHere .eofValue []
  | c :: t =>
    if c.isDigit then
      match readExponentDigits (Text.digit c) t with
      | (some e, rest) =>
        floatOf negative significand (if below then exponent - e else exponent + e) rest
      | (none, rest) =>
        if significand ≠ 0 ∧ !below then failHere .numberOutOfRange rest
        else .ok (.float ⟨negative, 0⟩, rest.dropWhile Char.isDigit)
    else failNext .invalidNumber (c :: t)

/-- The exponent of a number, behind its letter. -/
def readExponent (negative : Bool) (significand : Nat) (exponent : Int) : Reader Json
  | '+' :: t => readSignedExponent negative false significand exponent t
  | '-' :: t => readSignedExponent negative true significand exponent t
  | t => readSignedExponent negative false significand exponent t

/-- A fraction behind its point. -/
def readFraction (negative : Bool) (significand : Nat) (exponent : Int) (t : Text) :
    Except Failure (Json × Text) :=
  let digits := t.takeWhile Char.isDigit
  let rest := t.dropWhile Char.isDigit
  let (significand, taken) := absorb significand digits
  let exponent := exponent - taken
  match digits, rest with
  | [], [] => failNext .eofValue []
  | [], rest => failNext .invalidNumber rest
  | _, 'e' :: t | _, 'E' :: t => readExponent negative significand exponent t
  | _, rest => floatOf negative significand exponent rest

/-- An integer, or a float if it does not fit into 64 bits. There is no
negative zero among the integers. -/
def integerOf (negative : Bool) (significand : Nat) : Json :=
  if negative then
    if significand = 0 ∨ maxNegative < significand then
      .float ⟨true, Binary64.nearest significand 1⟩
    else .integer (-(significand : Int))
  else .integer significand

/-- A number behind its sign. -/
def readNumber (negative : Bool) (t : Text) : Except Failure (Json × Text) :=
  let digits := t.takeWhile Char.isDigit
  let rest := t.dropWhile Char.isDigit
  let (significand, taken) := absorb 0 digits
  let exponent : Int := (digits.length - taken : Nat)
  match digits, rest with
  | [], [] => failHere .eofValue []
  | [], rest => failNext .invalidNumber rest
  | '0' :: d :: ds, rest => failNext .invalidNumber (d :: ds ++ rest)
  | _, '.' :: t => readFraction negative significand exponent t
  | _, 'e' :: t | _, 'E' :: t => readExponent negative significand exponent t
  | _, rest =>
    if exponent = 0 then .ok (integerOf negative significand, rest)
    else floatOf negative significand exponent rest

/-! ## Arrays and objects -/

/-- Further items of an array, behind an item. Each takes one unit of fuel. -/
def readItems (item : Reader Json) (fuel : Nat) (done : List Json) (t : Text) :
    Except Failure (Json × Text) :=
  match fuel, skipBlanks t with
  | _, [] | 0, _ => failNext .eofList []
  | _, ']' :: t => .ok (.array done.reverse, t)
  | fuel + 1, ',' :: t =>
    match skipBlanks t with
    | [] => failNext .eofValue []
    | ']' :: t => failNext .trailingComma (']' :: t)
    | t =>
      match item t with
      | .ok (v, rest) => readItems item fuel (v :: done) rest
      | .error f => .error f
  | _, t => failNext .expectedListCommaOrEnd t

/-- An array behind its opening bracket. -/
def readArray (item : Reader Json) (t : Text) : Except Failure (Json × Text) :=
  match skipBlanks t with
  | [] => failNext .eofList []
  | ']' :: t => .ok (.array [], t)
  | t => do
    let (v, rest) ← item t
    readItems item rest.length [v] rest

/-- A member of an object, behind the first quote of its key. -/
def readMember (item : Reader Json) (t : Text) : Except Failure ((Text × Json) × Text) := do
  let (key, rest) ← readString t.length [] t
  match skipBlanks rest with
  | [] => failNext .eofObject []
  | ':' :: t => do
    let (v, rest) ← item t
    .ok ((key, v), rest)
  | t => failNext .expectedColon t

/-- Further members of an object, behind a member. Each takes one unit of fuel. -/
def readMembers (item : Reader Json) (fuel : Nat) (done : List (Text × Json)) (t : Text) :
    Except Failure (Json × Text) :=
  match fuel, skipBlanks t with
  | _, [] | 0, _ => failNext .eofObject []
  | _, '\x7d' :: t => .ok (.object done, t)
  | fuel + 1, ',' :: t =>
    match skipBlanks t with
    | [] => failNext .eofValue []
    | '"' :: t =>
      match readMember item t with
      | .ok ((key, v), rest) => readMembers item fuel (insert key v done) rest
      | .error f => .error f
    | '\x7d' :: t => failNext .trailingComma ('\x7d' :: t)
    | t => failNext .keyNotString t
  | _, t => failNext .expectedObjectCommaOrEnd t

/-- An object behind its opening brace. -/
def readObject (item : Reader Json) (t : Text) : Except Failure (Json × Text) :=
  match skipBlanks t with
  | [] => failNext .eofObject []
  | '\x7d' :: t => .ok (.object [], t)
  | '"' :: t => do
    let ((key, v), rest) ← readMember item t
    readMembers item rest.length [(key, v)] rest
  | t => failNext .keyNotString t

/-! ## Documents -/

/-- A value in which arrays and objects nest at most so deep. -/
def readValue (depth : Nat) (t : Text) : Except Failure (Json × Text) :=
  match skipBlanks t with
  | [] => failNext .eofValue []
  | 'n' :: t => readWord .null "ull".toList t
  | 't' :: t => readWord (.bool true) "rue".toList t
  | 'f' :: t => readWord (.bool false) "alse".toList t
  | '-' :: t => readNumber true t
  | '"' :: t => do
    let (s, rest) ← readString t.length [] t
    .ok (.string s, rest)
  | '[' :: t =>
    match depth with
    | 0 => failNext .nestedTooDeep ('[' :: t)
    | depth + 1 => readArray (readValue depth) t
  | '\x7b' :: t =>
    match depth with
    | 0 => failNext .nestedTooDeep ('\x7b' :: t)
    | depth + 1 => readObject (readValue depth) t
  | c :: t => if c.isDigit then readNumber false (c :: t) else failNext .expectedValue (c :: t)

/-- How deep arrays and objects may nest. -/
def maxDepth : Nat := 127

/-- The value of a document: one value, with blanks around it. -/
def parse (document : Text) : Except Failure Json := do
  let (v, rest) ← readValue maxDepth document
  match skipBlanks rest with
  | [] => .ok v
  | rest => failNext .trailingCharacters rest

end ClassList.Json

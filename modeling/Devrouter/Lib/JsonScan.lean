import Devrouter.Lib.Json

/-!
# Scanning JSON

A scanner for JSON texts as bytes, with what `encoding/json` needs of it to fill a struct: the extent of a
value, the members of an object with their values as they stand in the text, and the runes of a string. Nesting
is bounded as Go bounds it, and what is no UTF-8 in a string is read as the replacement character.

A scanner takes the text it starts at and returns what follows; none where the text is no JSON.
-/

namespace Json

abbrev Bytes := List UInt8

/-- The byte of an ASCII character. -/
def byte (c : Char) : UInt8 := UInt8.ofNat c.toNat

/-- The bytes of an ASCII text. -/
def bytes (s : String) : Bytes := s.toList.map byte

def isSpaceByte (b : UInt8) : Bool := b = byte ' ' || b = byte '\t' || b = byte '\n' || b = byte '\r'

def skipSpace (bs : Bytes) : Bytes := bs.dropWhile isSpaceByte

/-- The part of a text that was read. -/
def span (bs rest : Bytes) : Bytes := bs.take (bs.length - rest.length)

/-! ### Scalars -/

def isDigitByte (b : UInt8) : Bool := byte '0' ≤ b && b ≤ byte '9'

def isHexByte (b : UInt8) : Bool :=
  isDigitByte b || (byte 'a' ≤ b && b ≤ byte 'f') || (byte 'A' ≤ b && b ≤ byte 'F')

/-- A string, after its opening quote. -/
def scanString : Bytes → Option Bytes
  | [] => none
  | b :: bs =>
    if b = byte '"' then some bs
    -- control bytes must be escaped
    else if b < 0x20 then none
    else if b = byte '\\' then
      match bs with
      | [] => none
      | e :: bs =>
        if e = byte 'u' then
          match bs with
          -- the four digits of a number are checked and not read
          | h₁ :: h₂ :: h₃ :: h₄ :: bs => if [h₁, h₂, h₃, h₄].all isHexByte then scanString bs else none
          | _ => none
        else if e ∈ bytes "bfnrt\\/\"" then scanString bs
        else none
    else scanString bs

/-- Digits, at least one. -/
def scanDigits (bs : Bytes) : Option Bytes :=
  if bs.takeWhile isDigitByte = [] then none else some (bs.dropWhile isDigitByte)

def scanFraction : Bytes → Option Bytes
  | [] => some []
  | b :: bs => if b = byte '.' then scanDigits bs else some (b :: bs)

def skipSign : Bytes → Bytes
  | [] => []
  | b :: bs => if b = byte '+' ∨ b = byte '-' then bs else b :: bs

def scanExponent : Bytes → Option Bytes
  | [] => some []
  | b :: bs => if b = byte 'e' ∨ b = byte 'E' then scanDigits (skipSign bs) else some (b :: bs)

/-- The digits before the point: a zero stands alone. -/
def scanInteger : Bytes → Option Bytes
  | [] => none
  | b :: bs =>
    if b = byte '0' then some bs
    else if isDigitByte b then some (bs.dropWhile isDigitByte)
    else none

def scanNumber (bs : Bytes) : Option Bytes := do
  let unsigned := match bs with
    | [] => []
    | b :: rest => if b = byte '-' then rest else b :: rest
  let bs ← scanInteger unsigned
  let bs ← scanFraction bs
  scanExponent bs

def scanLiteral (lit bs : Bytes) : Option Bytes := if lit.isPrefixOf bs then some (bs.drop lit.length) else none

def scanScalar (bs : Bytes) : Option Bytes :=
  match bs with
  | [] => none
  | b :: rest =>
    if b = byte '"' then scanString rest
    else if b = byte 't' then scanLiteral (bytes "true") bs
    else if b = byte 'f' then scanLiteral (bytes "false") bs
    else if b = byte 'n' then scanLiteral (bytes "null") bs
    else scanNumber bs

/-! ### Arrays and objects -/

section Nested

-- how a nested value is scanned
variable (value : Bytes → Option Bytes)

/-- The elements of an array, from one of them on; each step scans one. -/
def scanElements : ℕ → Bytes → Option Bytes
  | 0, _ => none
  | n + 1, bs => do
    let rest ← value (skipSpace bs)
    match skipSpace rest with
    | [] => none
    | b :: rest =>
      if b = byte ',' then scanElements n rest
      else if b = byte ']' then some rest
      else none

/-- An array, after its opening bracket. -/
def scanArray (bs : Bytes) : Option Bytes :=
  match skipSpace bs with
  | [] => none
  | b :: rest => if b = byte ']' then some rest else scanElements value bs.length bs

/-- A member: its key after the opening quote, and its value. -/
structure Member where
  key : Bytes
  value : Bytes
  deriving DecidableEq

def scanMember (bs : Bytes) : Option (Member × Bytes) :=
  match skipSpace bs with
  | [] => none
  | q :: bs =>
    if q ≠ byte '"' then none
    else do
      let afterKey ← scanString bs
      match skipSpace afterKey with
      | [] => none
      | c :: afterColon =>
        if c ≠ byte ':' then none
        else do
          let rest ← value (skipSpace afterColon)
          return (⟨span bs afterKey, span (skipSpace afterColon) rest⟩, rest)

/-- The members of an object, from one of them on; each step scans one. -/
def scanMembers : ℕ → Bytes → Option (List Member × Bytes)
  | 0, _ => none
  | n + 1, bs => do
    let (m, rest) ← scanMember value bs
    match skipSpace rest with
    | [] => none
    | b :: rest =>
      if b = byte ',' then do
        let (ms, rest) ← scanMembers n rest
        return (m :: ms, rest)
      else if b = byte '\x7d' then some ([m], rest)
      else none

/-- An object, after its opening brace. -/
def scanObject (bs : Bytes) : Option (List Member × Bytes) :=
  match skipSpace bs with
  | [] => none
  | b :: rest => if b = byte '\x7d' then some ([], rest) else scanMembers value bs.length bs

end Nested

/-- A value with at most so many arrays and objects in one another. -/
def scanValue : ℕ → Bytes → Option Bytes
  | 0, bs => scanScalar bs
  | depth + 1, bs =>
    match bs with
    | [] => none
    | b :: rest =>
      if b = byte '[' then scanArray (scanValue depth) rest
      else if b = byte '\x7b' then (scanObject (scanValue depth) rest).map Prod.snd
      else scanScalar bs

/-- `maxNestingDepth`. -/
def maxNestingDepth : ℕ := 10000

/-- The value that is all of a text, but for white space. -/
def wholeValue (text : Bytes) : Option Bytes := do
  let rest ← scanValue maxNestingDepth (skipSpace text)
  if skipSpace rest = [] then some (span (skipSpace text) rest) else none

/-- The members of an object; none for any other value. -/
def membersOf (value : Bytes) : Option (List Member) :=
  match value with
  | [] => none
  | b :: rest =>
    if b = byte '\x7b' then (scanObject (scanValue (maxNestingDepth - 1)) rest).map Prod.fst else none

def isNull (value : Bytes) : Bool := value = bytes "null"

/-! ### Strings -/

def isContinuation (lo hi : UInt8) (b : UInt8) : Bool := lo ≤ b && b ≤ hi

/-- The payload of a byte after the first of a rune. -/
def low (b : UInt8) : ℕ := b.toNat % 64

/-- The rune that begins with a byte, and how many bytes after it belong to it. -/
def firstRune (b : UInt8) (bs : Bytes) : Char × ℕ :=
  let invalid := ('\uFFFD', 0)
  if b < 0x80 then (Char.ofNat b.toNat, 0)
  else if 0xc2 ≤ b ∧ b ≤ 0xdf then
    match bs with
    | c₁ :: _ =>
      if isContinuation 0x80 0xbf c₁ then (Char.ofNat (b.toNat % 32 * 64 + low c₁), 1) else invalid
    | _ => invalid
  else if 0xe0 ≤ b ∧ b ≤ 0xef then
    match bs with
    | c₁ :: c₂ :: _ =>
      -- neither what two bytes can hold nor half a surrogate pair
      let lo := if b = 0xe0 then 0xa0 else 0x80
      let hi := if b = 0xed then 0x9f else 0xbf
      if isContinuation lo hi c₁ && isContinuation 0x80 0xbf c₂ then
        (Char.ofNat (b.toNat % 16 * 4096 + low c₁ * 64 + low c₂), 2)
      else invalid
    | _ => invalid
  else if 0xf0 ≤ b ∧ b ≤ 0xf4 then
    match bs with
    | c₁ :: c₂ :: c₃ :: _ =>
      let lo := if b = 0xf0 then 0x90 else 0x80
      let hi := if b = 0xf4 then 0x8f else 0xbf
      if isContinuation lo hi c₁ && isContinuation 0x80 0xbf c₂ && isContinuation 0x80 0xbf c₃ then
        (Char.ofNat (b.toNat % 8 * 262144 + low c₁ * 4096 + low c₂ * 64 + low c₃), 3)
      else invalid
    | _ => invalid
  else invalid

/-- The runes of a text; each step decodes one. -/
def runesFrom : ℕ → Bytes → List Char
  | _, [] => []
  | 0, _ => []
  | n + 1, b :: bs =>
    let (c, k) := firstRune b bs
    c :: runesFrom n (bs.drop k)

def runes (bs : Bytes) : List Char := runesFrom bs.length bs

/-- The string a literal stands for, after its opening quote. -/
def unquote (literal : Bytes) : String :=
  String.ofList (((readBody (literal.length + 1) (runes literal)).map Prod.fst).getD [])

/-- A rune in the case that keys are compared in: two runes that are not ASCII have an ASCII letter as their
other case. -/
def foldRune (c : Char) : Char :=
  if c = 'ſ' then 'S' else if c = '\u212a' then 'K' else c.toUpper

/-- Whether a key is the name of a field, whatever its case. -/
def isField (field : String) (key : Bytes) : Bool := (unquote key).toList.map foldRune = field.toList.map foldRune

/-- What a value makes of a string field: a string replaces it, a `null` leaves it, anything else does not fit. -/
def intoString (old : String) (value : Bytes) : Option String :=
  match value with
  | [] => none
  | b :: rest => if b = byte '"' then some (unquote rest) else if isNull value then some old else none

example : runes [0xc3, 0xa9, 0xff, 0xe2, 0x82, 0xac] = ['é', '\uFFFD', '€'] := by decide +kernel

example : (wholeValue (bytes " [1, -2.5e3, \"\\u00e9\", {}] \n")).isSome = true := by decide +kernel

end Json

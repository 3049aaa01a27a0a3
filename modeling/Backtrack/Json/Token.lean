import Backtrack.Json.Basic

/-!
# Tokens of a JSON text

The lexical rules are those of RFC 8259: four blank characters, no leading zeros, no raw control
characters in strings. A string whose escapes leave half of a surrogate pair and a number beyond
double precision are tokens without a value; anything else that is out of order ends the tokens.
-/

namespace Backtrack.Json

set_option autoImplicit false

inductive Token where
  | openArray
  | closeArray
  | openObject
  | closeObject
  | comma
  | colon
  | null
  | bool (value : Bool)
  | number (value : Number)
  | string (value : String)
  /-- A number beyond double precision. -/
  | hugeNumber
  /-- A string with half of a surrogate pair. -/
  | brokenString
  /-- Text that is no token; nothing after it is looked at. -/
  | unreadable
  deriving DecidableEq, Repr

namespace Token

def isBlank (c : Char) : Bool := c = ' ' || c = '\t' || c = '\n' || c = '\r'

/-- A quoted string is made of characters and of the 16-bit units of `\u` escapes. -/
inductive Piece where
  | char (c : Char)
  | unit (code : Nat)
  deriving DecidableEq, Repr

def hexDigit? (c : Char) : Option Nat :=
  if c.isDigit then some (c.toNat - '0'.toNat)
  else if 'a' ≤ c ∧ c ≤ 'f' then some (c.toNat - 'a'.toNat + 10)
  else if 'A' ≤ c ∧ c ≤ 'F' then some (c.toNat - 'A'.toNat + 10)
  else none

def unit? (a b c d : Char) : Option Nat := do
  return (((← hexDigit? a) * 16 + (← hexDigit? b)) * 16 + (← hexDigit? c)) * 16 + (← hexDigit? d)

/-- The character named by a letter after a backslash. -/
def simpleEscape? (c : Char) : Option Char :=
  if c = '"' then some '"'
  else if c = '\\' then some '\\'
  else if c = '/' then some '/'
  else if c = 'b' then some '\x08'
  else if c = 'f' then some '\x0c'
  else if c = 'n' then some '\n'
  else if c = 'r' then some '\r'
  else if c = 't' then some '\t'
  else none

/-- The pieces up to the closing quote, and how many characters they take with it. -/
def pieces? : List Char → Option (List Piece × Nat)
  | [] => none
  | '"' :: _ => some ([], 1)
  | '\\' :: 'u' :: a :: b :: c :: d :: rest => do
    let code ← unit? a b c d
    let (tail, count) ← pieces? rest
    return (.unit code :: tail, count + 6)
  | '\\' :: c :: rest => do
    let escaped ← simpleEscape? c
    let (tail, count) ← pieces? rest
    return (.char escaped :: tail, count + 2)
  | c :: rest =>
    if c.toNat < 0x20 then none
    else do
      let (tail, count) ← pieces? rest
      return (.char c :: tail, count + 1)

def isHighSurrogate (code : Nat) : Bool := decide (0xD800 ≤ code ∧ code < 0xDC00)

def isLowSurrogate (code : Nat) : Bool := decide (0xDC00 ≤ code ∧ code < 0xE000)

def surrogatePair (high low : Nat) : Char :=
  Char.ofNat (0x10000 + (high - 0xD800) * 0x400 + (low - 0xDC00))

/-- The characters of the pieces, when every surrogate stands in a pair. -/
def join? : List Piece → Option (List Char)
  | [] => some []
  | .char c :: rest => (join? rest).map (c :: ·)
  | [.unit code] =>
    if isHighSurrogate code || isLowSurrogate code then none else some [Char.ofNat code]
  | .unit high :: .unit low :: rest =>
    if isHighSurrogate high then
      if isLowSurrogate low then (join? rest).map (surrogatePair high low :: ·) else none
    else if isLowSurrogate high then none
    else (join? (.unit low :: rest)).map (Char.ofNat high :: ·)
  | .unit code :: .char c :: rest =>
    if isHighSurrogate code || isLowSurrogate code then none
    else (join? (.char c :: rest)).map (Char.ofNat code :: ·)

/-- A string after its opening quote. -/
def string? (text : List Char) : Option (Token × Nat) := do
  let (pieces, count) ← pieces? text
  match join? pieces with
  | some chars => return (.string (String.ofList chars), count)
  | none => return (.brokenString, count)

def ofDigits (digits : List Char) : Nat :=
  digits.foldl (fun n c => n * 10 + (c.toNat - '0'.toNat)) 0

/-- The run of digits in front. -/
def digits (text : List Char) : List Char := text.takeWhile Char.isDigit

/-- The digits of the whole part: a zero stands alone. -/
def wholeDigits? (text : List Char) : Option (List Char) :=
  match digits text with
  | [] => none
  | ['0'] => some ['0']
  | '0' :: _ => none
  | run => some run

/-- The digits after a point, none when there is no point. -/
def fractionDigits? : List Char → Option (List Char)
  | '.' :: rest => if digits rest = [] then none else some (digits rest)
  | _ => some []

/-- The sign of an exponent: whether it is a minus, and how many characters it takes. -/
def exponentSign : List Char → Bool × Nat
  | '-' :: _ => (true, 1)
  | '+' :: _ => (false, 1)
  | _ => (false, 0)

/-- An exponent and how many characters it takes, zero when there is none. -/
def exponent? : List Char → Option (Int × Nat)
  | [] => some (0, 0)
  | mark :: rest =>
    if mark = 'e' ∨ mark = 'E' then
      let (negative, signLength) := exponentSign rest
      let run := digits (rest.drop signLength)
      if run = [] then none
      else some (if negative then -(ofDigits run : Int) else ofDigits run,
        1 + signLength + run.length)
    else some (0, 0)

/-- A number without its sign, and how many characters it takes. -/
def unsigned? (negative : Bool) (text : List Char) : Option (Number × Nat) := do
  let whole ← wholeDigits? text
  let afterWhole := text.drop whole.length
  let fraction ← fractionDigits? afterWhole
  let fractionLength := if fraction = [] then 0 else fraction.length + 1
  let (exponent, exponentLength) ← exponent? (afterWhole.drop fractionLength)
  let number :=
    if fractionLength = 0 ∧ exponentLength = 0 then Number.whole negative (ofDigits whole)
    else Number.scaled negative (ofDigits (whole ++ fraction)) (exponent - fraction.length)
  return (number, whole.length + fractionLength + exponentLength)

def ofNumber (number : Number) : Token := if number.fits then .number number else .hugeNumber

/-- A word known after its first letter. -/
def word? (token : Token) (expected text : List Char) : Option (Token × Nat) :=
  if expected.isPrefixOf text then some (token, expected.length) else none

/-- The token that starts with `c`, and how many characters of `rest` belong to it. -/
def first? (c : Char) (rest : List Char) : Option (Token × Nat) :=
  match c with
  | '[' => some (.openArray, 0)
  | ']' => some (.closeArray, 0)
  | '\x7b' => some (.openObject, 0)
  | '\x7d' => some (.closeObject, 0)
  | ',' => some (.comma, 0)
  | ':' => some (.colon, 0)
  | 'n' => word? .null ['u', 'l', 'l'] rest
  | 't' => word? (.bool true) ['r', 'u', 'e'] rest
  | 'f' => word? (.bool false) ['a', 'l', 's', 'e'] rest
  | '"' => string? rest
  | '-' => (unsigned? true rest).map fun (n, count) => (ofNumber n, count)
  | _ => (unsigned? false (c :: rest)).map fun (n, count) => (ofNumber n, count - 1)

/-- The tokens after `skip` further characters, which belong to the token before. -/
def listAfter : Nat → List Char → List Token
  | _, [] => []
  | skip + 1, _ :: rest => listAfter skip rest
  | 0, c :: rest =>
    if isBlank c then listAfter 0 rest
    else match first? c rest with
      | some (token, count) => token :: listAfter count rest
      | none => [.unreadable]

def list (text : String) : List Token := listAfter 0 text.toList

end Token

end Backtrack.Json

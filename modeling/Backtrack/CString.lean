import Backtrack.Bytes

/-!
# The inside of a C string literal

Bytes outside printable ASCII are written as simple escapes or as three octal digits, which
never take in the character that follows. A question mark directly after another one is
escaped, so that no trigraph can form.
-/

namespace Backtrack.CString

set_option autoImplicit false

/-- The digit of `n` in a base up to ten. -/
def digit (n : Nat) : Char := Char.ofNat ('0'.toNat + n)

/-- Three octal digits after a backslash. -/
def octal (b : UInt8) : List Char :=
  ['\\', digit (b.toNat / 64), digit (b.toNat / 8 % 8), digit (b.toNat % 8)]

def isPrintable (b : UInt8) : Bool := decide (0x20 ≤ b.toNat ∧ b.toNat ≤ 0x7E)

/-- How one byte is written after the byte `before`. -/
def escapeByte (before b : UInt8) : List Char :=
  if b = 0x5C then ['\\', '\\']
  else if b = 0x22 then ['\\', '"']
  else if b = 0x07 then ['\\', 'a']
  else if b = 0x08 then ['\\', 'b']
  else if b = 0x09 then ['\\', 't']
  else if b = 0x0A then ['\\', 'n']
  else if b = 0x0B then ['\\', 'v']
  else if b = 0x0C then ['\\', 'f']
  else if b = 0x0D then ['\\', 'r']
  else if b = 0x3F ∧ before = 0x3F then ['\\', '?']
  else if isPrintable b then [Char.ofNat b.toNat]
  else octal b

/-- The written form of the bytes that follow the byte `before`. -/
def escapeAfter (before : UInt8) : Bytes → List Char
  | [] => []
  | b :: rest => escapeByte before b ++ escapeAfter b rest

def escape (bytes : Bytes) : String := String.ofList (escapeAfter 0 bytes)

/-- The written form of the matcher bytes of a string. -/
def escapeString (s : String) : String := escape (Bytes.ofString s)

theorem escape_toList (bytes : Bytes) : (escape bytes).toList = escapeAfter 0 bytes := by
  simp [escape]

end Backtrack.CString

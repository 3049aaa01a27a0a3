/-!
# Matcher bytes

A generated parser matches bytes, not characters. A character up to U+00FF is one byte of
matcher input; every other character stands for the bytes of its UTF-8 form.
-/

namespace Backtrack

set_option autoImplicit false

abbrev Bytes := List UInt8

namespace Bytes

/-- The character is one byte of matcher input. -/
def isNarrow (c : Char) : Bool := decide (c.toNat ≤ 0xFF)

def ofChar (c : Char) : Bytes :=
  if isNarrow c then [c.toNat.toUInt8] else String.utf8EncodeChar c

def ofString (s : String) : Bytes := s.toList.flatMap ofChar

/-- The byte nearest to the character: U+00FF bounds every wider one. -/
def clamp (c : Char) : UInt8 := (min c.toNat 0xFF).toUInt8

/-- The order of dictionaries, byte by byte. -/
def lexLE : Bytes → Bytes → Bool
  | [], _ => true
  | _ :: _, [] => false
  | a :: left, b :: right => decide (a < b) || (decide (a = b) && lexLE left right)

theorem ofChar_narrow {c : Char} (h : isNarrow c = true) : ofChar c = [c.toNat.toUInt8] :=
  if_pos h

end Bytes

end Backtrack

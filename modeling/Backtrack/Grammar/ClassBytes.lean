import Backtrack.Bytes
import Backtrack.Grammar.Basic

/-!
# Character classes over bytes

A class is matched byte by byte: wide characters that stand alone give all their bytes, wide
bounds of ranges give the highest byte. A range of one byte is a single byte.
-/

namespace Backtrack.CharClass

set_option autoImplicit false

/-- Some character of the class does not fit in a byte. -/
def isWide (cls : CharClass) : Bool :=
  cls.singles.any (! Bytes.isNarrow ·) ||
    cls.ranges.any fun (low, high) => ! Bytes.isNarrow low || ! Bytes.isNarrow high

/-- The bounds of the ranges as bytes. -/
def clampedRanges (cls : CharClass) : List (UInt8 × UInt8) :=
  cls.ranges.map fun (low, high) => (Bytes.clamp low, Bytes.clamp high)

def byteSingles (cls : CharClass) : Bytes :=
  cls.singles.flatMap Bytes.ofChar ++
    (cls.clampedRanges.filter fun (low, high) => low = high).map Prod.fst

def byteRanges (cls : CharClass) : List (UInt8 × UInt8) :=
  cls.clampedRanges.filter fun (low, high) => low ≠ high

end Backtrack.CharClass

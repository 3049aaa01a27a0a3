import Backtrack.Json.Double

/-!
# Numbers of a JSON text

A number is kept as it was written: a whole number written with digits alone is apart from one
written with a fraction or an exponent, and minus zero is apart from zero.
-/

namespace Backtrack.Json

set_option autoImplicit false

inductive Number where
  /-- Digits alone, with an optional minus. -/
  | whole (negative : Bool) (magnitude : Nat)
  /-- Written with a fraction or an exponent: `coefficient * 10 ^ exponent`. -/
  | scaled (negative : Bool) (coefficient : Nat) (exponent : Int)
  deriving DecidableEq, Repr, Inhabited

namespace Number

def ofNat (n : Nat) : Number := .whole false n

def ofInt : Int → Number
  | .ofNat n => .whole false n
  | .negSucc n => .whole true (n + 1)

/-- The number has a finite value in double precision. -/
def fits : Number → Bool
  | .whole _ magnitude => Double.scaledFits magnitude 0
  | .scaled _ coefficient exponent => Double.scaledFits coefficient exponent

theorem fits_whole (negative : Bool) {magnitude : Nat} (h : magnitude < UInt64.size) :
    (whole negative magnitude).fits = true := Double.scaledFits_of_lt h

def render : Number → String
  | .whole negative magnitude => (if negative then "-" else "") ++ toString magnitude
  | .scaled negative coefficient exponent =>
    (if negative then "-" else "") ++ toString coefficient ++ "e" ++ toString exponent

end Number

end Backtrack.Json

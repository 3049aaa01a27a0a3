/-!
# The range of double precision

A decimal number is brought to double precision in three steps. The leading digits that fit a word
of 64 bits are kept, and every digit dropped raises the power of ten by one. The kept digits and the
power are each rounded to 53 bits. Their product is rounded once more, and is out of range when
that gives infinity.

Because the two factors are rounded before they are multiplied, a number just below the largest
double can be out of range, and one just above it can be within.
-/

namespace Backtrack.Json.Double

set_option autoImplicit false

/-- The multiple of `unit` nearest to `n`, counted in units; halfway goes to the even count. -/
def nearest (n unit : Nat) : Nat :=
  if 2 * (n % unit) < unit then n / unit
  else if unit < 2 * (n % unit) then n / unit + 1
  else n / unit + n / unit % 2

/-- The distance between neighbours of 53 bits around `n`. -/
def spacing (n : Nat) : Nat := Nat.pow 2 (n.log2 + 1 - 53)

/-- The number of 53 bits nearest to `n`. -/
def round (n : Nat) : Nat := nearest n (spacing n) * spacing n

theorem spacing_pos (n : Nat) : 0 < spacing n := Nat.pow_pos (by decide)

/-- Rounding moves a number by at most half the spacing. -/
theorem round_near (n : Nat) :
    2 * round n ≤ 2 * n + spacing n ∧ 2 * n ≤ 2 * round n + spacing n := by
  have hpos := spacing_pos n
  unfold round nearest
  generalize spacing n = unit at *
  have hsplit := Nat.div_add_mod n unit
  have hlow := Nat.mod_lt n hpos
  generalize n / unit = q at *
  generalize n % unit = r at *
  have hcomm : q * unit = unit * q := Nat.mul_comm q unit
  have hnext : (q + 1) * unit = unit * q + unit := by rw [Nat.add_mul, Nat.one_mul, hcomm]
  split
  · omega
  · split
    · omega
    · rcases Nat.mod_two_eq_zero_or_one q with hq | hq <;> rw [hq]
      · rw [Nat.add_zero]; omega
      · omega

/-- The digits kept of a number, and how many were dropped behind them. -/
structure Leading where
  kept : Nat
  dropped : Nat
  deriving DecidableEq, Repr

namespace Leading

/-- The digits of `n` that fit a word, dropping `fuel` digits at most. -/
def ofNatWithin : Nat → Nat → Leading
  | 0, n => ⟨n, 0⟩
  | fuel + 1, n =>
    if n < UInt64.size then ⟨n, 0⟩
    else
      let front := ofNatWithin fuel (n / 10)
      ⟨front.kept, front.dropped + 1⟩

/-- The digits of `n` that fit a word: no number has more digits than bits. -/
def ofNat (n : Nat) : Leading := ofNatWithin (n.log2 + 1) n

/-- Nothing is dropped from a number that fits a word. -/
theorem ofNat_eq_of_lt {n : Nat} (h : n < UInt64.size) : ofNat n = ⟨n, 0⟩ := by
  simp [ofNat, ofNatWithin, h]

end Leading

/-- The least product that rounds to infinity. -/
def limit : Nat := Nat.pow 2 1024 - Nat.pow 2 970

/-- The largest power of ten within double precision. -/
def maxPower : Nat := 308

/-- `n * 10 ^ power` stays in range when both factors are rounded first. -/
def productFits (n power : Nat) : Bool :=
  if n = 0 then true
  else if maxPower < power then false
  else decide (round n * round (Nat.pow 10 power) < limit)

/-- `coefficient * 10 ^ exponent` has a finite value. A negative power, counted after digits have
been dropped, never leaves the range. -/
def scaledFits (coefficient : Nat) (exponent : Int) : Bool :=
  let leading := Leading.ofNat coefficient
  match exponent + leading.dropped with
  | .ofNat power => productFits leading.kept power
  | .negSucc _ => true

/-- A number that fits a word is in range. -/
theorem scaledFits_of_lt {n : Nat} (h : n < UInt64.size) : scaledFits n 0 = true := by
  have hfits : productFits n 0 = true := by
    by_cases hn : n = 0
    · simp [productFits, hn]
    · have hlog : n.log2 < 64 := (Nat.log2_lt hn).mpr h
      have hunit : spacing n ≤ Nat.pow 2 11 := Nat.pow_le_pow_right (by decide) (by omega)
      have hnear := (round_near n).1
      have hsize : UInt64.size + Nat.pow 2 11 < limit := by decide +kernel
      have hone : round (Nat.pow 10 0) = 1 := by decide
      rw [productFits, if_neg hn, if_neg (by decide), hone, Nat.mul_one]
      exact decide_eq_true (by omega)
  unfold scaledFits
  rw [Leading.ofNat_eq_of_lt h]
  exact hfits

end Backtrack.Json.Double

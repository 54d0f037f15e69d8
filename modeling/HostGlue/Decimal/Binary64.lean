/-!
# Double-precision numbers

A binary64 value as the number it is: a sign and `mantissa · 2 ^ exponent`. Finite values are kept
in one form, in which the mantissa has 53 bits unless the exponent is the least one; so two values
are equal exactly if they are the same number with the same sign. A decimal is read by rounding its
exact value once, a value halfway between two neighbours to the one with the even mantissa.
-/

namespace HostGlue.Decimal

inductive Binary64 where
  | nan
  | infinite (negative : Bool)
  | finite (negative : Bool) (mantissa : Nat) (exponent : Int)
  deriving Repr, DecidableEq

/-- The quotient rounded to the nearest integer, halves to the even one. -/
def roundHalfEven (num den : Nat) : Nat :=
  let q := num / den
  let r := num % den
  if 2 * r < den ∨ (2 * r = den ∧ q % 2 = 0) then q else q + 1

theorem roundHalfEven_eq_or (num den : Nat) :
    roundHalfEven num den = num / den ∨ roundHalfEven num den = num / den + 1 := by
  unfold roundHalfEven
  dsimp only
  split
  · exact .inl rfl
  · exact .inr rfl

/-- A power of two as a numerator and a denominator. -/
def scaled (num den : Nat) (exponent : Int) : Nat × Nat :=
  (num * Nat.pow 2 (-exponent).toNat, den * Nat.pow 2 exponent.toNat)

namespace Binary64

/-- The least exponent of a finite value. -/
def minExponent : Int := -1074

/-- The greatest exponent of a finite value. -/
def maxExponent : Int := 971

/-- The exponent `k` with `2 ^ k ≤ num / den < 2 ^ (k + 1)`. -/
def floorLog2 (num den : Nat) : Int :=
  let k : Int := (num.log2 : Int) - (den.log2 : Int)
  let (n, d) := scaled num den k
  if d ≤ n then k else k - 1

/-- The value nearest to a quotient of positive integers. -/
def ofRatio (negative : Bool) (num den : Nat) : Binary64 :=
  let e := max (floorLog2 num den - 52) minExponent
  let (n, d) := scaled num den e
  let m := roundHalfEven n d
  let (m, e) := if m = Nat.pow 2 53 then (Nat.pow 2 52, e + 1) else (m, e)
  if e > maxExponent then .infinite negative else .finite negative m e

def zero (negative : Bool) : Binary64 := .finite negative 0 minExponent

/-- The value nearest to `digits · 10 ^ exponent`. Beyond 10 ^ 310 every value is infinite, and
below 10 ^ -330 every value is zero, so no large power has to be formed. -/
def ofDecimal (negative : Bool) (digits : Nat) (exponent : Int) : Binary64 :=
  let size : Int := ((Nat.toDigits 10 digits).length : Int) + exponent
  if digits = 0 ∨ size < -330 then zero negative
  else if 310 < size then .infinite negative
  else ofRatio negative (digits * Nat.pow 10 exponent.toNat) (Nat.pow 10 (-exponent).toNat)

/-- The number one. -/
def one : Binary64 := .finite false (Nat.pow 2 52) (-52)

end Binary64

end HostGlue.Decimal

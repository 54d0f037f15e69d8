import HostGlue.Decimal.Binary64

/-!
# Shortest decimals

The decimal with the fewest digits that reads back as a given value, and of several the one nearest
to it, a tie going to the even digit. The search looks at grids of one digit, two digits and so on;
on each grid only the two neighbours of the value can be the nearest points that read back.
-/

namespace HostGlue.Decimal

/-- The number `digits · 10 ^ exponent`. -/
structure Scientific where
  digits : Nat
  exponent : Int
  deriving Repr, DecidableEq

/-- The number of decimal digits in front of the point of `mantissa · 2 ^ exponent`, negative if
zeros follow the point. -/
def pointPosition (mantissa : Nat) (exponent : Int) : Int :=
  let shifted := mantissa * Nat.pow 10 400 * Nat.pow 2 exponent.toNat / Nat.pow 2 (-exponent).toNat
  ((Nat.toDigits 10 shifted).length : Int) - 400

/-- The decimal reads back as the positive value `mantissa · 2 ^ exponent`. -/
def readsBack (mantissa : Nat) (exponent : Int) (d : Scientific) : Bool :=
  Binary64.ofDecimal false d.digits d.exponent = .finite false mantissa exponent

/-- Of the value's two neighbours on the grid of `10 ^ step`, the better one that reads back. -/
def onGrid? (mantissa : Nat) (exponent : Int) (step : Int) : Option Scientific :=
  let num := mantissa * Nat.pow 2 exponent.toNat * Nat.pow 10 (-step).toNat
  let den := Nat.pow 2 (-exponent).toNat * Nat.pow 10 step.toNat
  let below : Scientific := ⟨num / den, step⟩
  let above : Scientific := ⟨num / den + 1, step⟩
  match readsBack mantissa exponent below, readsBack mantissa exponent above with
  | true, true => some ⟨roundHalfEven num den, step⟩
  | true, false => some below
  | false, true => some above
  | false, false => none

/-- What is found on a grid reads back. -/
theorem onGrid?_readsBack {mantissa : Nat} {exponent step : Int} {d : Scientific}
    (found : onGrid? mantissa exponent step = some d) : readsBack mantissa exponent d = true := by
  unfold onGrid? at found
  dsimp only at found
  split at found
  · next below above =>
      cases found
      rcases roundHalfEven_eq_or (mantissa * Nat.pow 2 exponent.toNat * Nat.pow 10 (-step).toNat)
        (Nat.pow 2 (-exponent).toNat * Nat.pow 10 step.toNat) with same | same
      · rw [same, below]
      · rw [same, above]
  · next below _ =>
      cases found
      exact below
  · next _ above =>
      cases found
      exact above
  · cases found

/-- The least value that is not zero. -/
example : onGrid? 1 (-1074) (-324) = some ⟨5, -324⟩ := by decide +kernel

/-- The same number without trailing zeros; at most `fuel` zeros are moved. -/
def strip (fuel : Nat) (d : Scientific) : Scientific :=
  match fuel with
  | 0 => d
  | fuel + 1 =>
    if d.digits ≠ 0 ∧ d.digits % 10 = 0 then strip fuel ⟨d.digits / 10, d.exponent + 1⟩ else d

/-- The shortest decimal that reads back as the positive value `mantissa · 2 ^ exponent`. Seventeen
digits are always enough; the exact value stands in for a search that finds nothing. -/
def shortest (mantissa : Nat) (exponent : Int) : Scientific :=
  let point := pointPosition mantissa exponent
  let found := (List.range 17).findSome? fun n => onGrid? mantissa exponent (point - (n + 1 : Nat))
  match found with
  | some d => strip 20 d
  | none => ⟨mantissa * Nat.pow 2 exponent.toNat * Nat.pow 5 (-exponent).toNat, min exponent 0⟩

end HostGlue.Decimal

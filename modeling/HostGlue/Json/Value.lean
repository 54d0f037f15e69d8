import HostGlue.Decimal.Shortest
import HostGlue.Text.Literal

/-!
# JSON values

Integers and fractional numbers are kept apart, as their texts are. The members of an object are a
list in the order of the text; whether a name may occur twice is for the reader to decide.
-/

namespace HostGlue.Json

open Decimal

inductive Value where
  | null
  | bool (b : Bool)
  | int (n : Int)
  | float (x : Binary64)
  | str (s : Text)
  | arr (items : List Value)
  | obj (members : List (Text × Value))
  deriving Repr

abbrev Members := List (Text × Value)

/-- The value of the first member of the given name. -/
abbrev member? (members : Members) (name : String) : Option Value :=
  members.lookup (Text.ofString name)

namespace Value

/-- The name of the value's type in diagnostics. -/
def typeName : Value → String
  | null => "NoneType"
  | bool _ => "bool"
  | int _ => "int"
  | float _ => "float"
  | str _ => "str"
  | arr _ => "list"
  | obj _ => "dict"

/-- The value is the number one; a truth value counts as a number. -/
def isOne : Value → Bool
  | bool b => b
  | int n => n = 1
  | float x => x = Binary64.one
  | _ => false

mutual

/-- The two values are the same. -/
def same : Value → Value → Bool
  | null, null => true
  | bool b, bool c => b = c
  | int n, int m => n = m
  | float x, float y => x = y
  | str s, str t => s = t
  | arr items, arr others => sameItems items others
  | obj members, obj others => sameMembers members others
  | _, _ => false

def sameItems : List Value → List Value → Bool
  | [], [] => true
  | v :: items, w :: others => same v w && sameItems items others
  | _, _ => false

def sameMembers : Members → Members → Bool
  | [], [] => true
  | (name, v) :: members, (other, w) :: others =>
    decide (name = other) && same v w && sameMembers members others
  | _, _ => false

end

mutual

theorem same_iff (v w : Value) : same v w = true ↔ v = w := by
  cases v <;> cases w <;> simp [same, sameItems_iff, sameMembers_iff]

theorem sameItems_iff (items others : List Value) :
    sameItems items others = true ↔ items = others := by
  cases items <;> cases others <;> simp [sameItems, same_iff, sameItems_iff]

theorem sameMembers_iff (members others : Members) :
    sameMembers members others = true ↔ members = others := by
  match members, others with
  | [], [] => simp [sameMembers]
  | [], _ :: _ => simp [sameMembers]
  | _ :: _, [] => simp [sameMembers]
  | (name, v) :: members, (other, w) :: others =>
    simp [sameMembers, same_iff v w, sameMembers_iff members others]

end

instance : DecidableEq Value := fun v w => decidable_of_iff _ (same_iff v w)
end Value

/-- A decimal as a diagnostic shows it: positional if the first digit stands for a power of ten from
`10 ^ -4` to `10 ^ 15`, and with an exponent of at least two digits otherwise. A positional number
always has a digit behind the point. -/
def decimalText (d : Scientific) : String :=
  let digits := Nat.toDigits 10 d.digits
  let point : Int := (digits.length : Int) + d.exponent
  if -4 < point ∧ point ≤ 16 then
    if point ≤ 0 then
      "0." ++ String.ofList (List.replicate (-point).toNat '0' ++ digits)
    else
      let whole := digits.take point.toNat
      let rest := digits.drop point.toNat
      String.ofList (whole ++ List.replicate (point.toNat - whole.length) '0') ++ "." ++
        String.ofList (if rest.isEmpty then ['0'] else rest)
  else
    let power := point - 1
    let size := Nat.toDigits 10 power.natAbs
    let fraction := digits.drop 1
    String.ofList (digits.take 1) ++
      (if fraction.isEmpty then "" else "." ++ String.ofList fraction) ++
      (if power < 0 then "e-" else "e+") ++
      String.ofList (List.replicate (2 - size.length) '0' ++ size)

/-- A fractional number as a diagnostic shows it. -/
def floatText : Binary64 → String
  | .nan => "nan"
  | .infinite negative => (if negative then "-" else "") ++ "inf"
  | .finite negative mantissa exponent =>
    (if negative then "-" else "") ++
      (if mantissa = 0 then "0.0" else decimalText (shortest mantissa exponent))

mutual

/-- A value as a diagnostic shows it. -/
def Value.literal : Value → String
  | .null => "None"
  | .bool b => if b then "True" else "False"
  | .int n => toString n
  | .float x => floatText x
  | .str s => Text.Literal.quote s
  | .arr items => "[" ++ ", ".intercalate (itemLiterals items) ++ "]"
  | .obj members => "\x7b" ++ ", ".intercalate (memberLiterals members) ++ "\x7d"

def itemLiterals : List Value → List String
  | [] => []
  | v :: rest => v.literal :: itemLiterals rest

def memberLiterals : List (Text × Value) → List String
  | [] => []
  | (name, v) :: rest => (Text.Literal.quote name ++ ": " ++ v.literal) :: memberLiterals rest

end

end HostGlue.Json

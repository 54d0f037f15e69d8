/-!
# Hexadecimal digits

Numbers in lower-case hexadecimal, padded with zeros to a least width.
-/

namespace HostGlue.Text

/-- The hexadecimal digits of `n`, at least `width` of them. -/
def hex (width n : Nat) : List Char :=
  let digits := Nat.toDigits 16 n
  List.replicate (width - digits.length) '0' ++ digits

end HostGlue.Text

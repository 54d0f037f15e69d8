import HostGlue.Text.CodePoint
import HostGlue.Text.Hex
import HostGlue.Text.Invisible

/-!
# Text in diagnostics

How a message quotes a text: between single quotes, or between double quotes if the text holds a
single quote and no double quote. The quote in use and the backslash are escaped, as are the
characters that would not show on a terminal; every other character stands for itself.
-/

namespace HostGlue.Text.Literal

/-- The escape that names a code point by its number, in two, four or eight digits. -/
def numbered (n : Nat) : List Char :=
  if n < 0x100 then '\\' :: 'x' :: hex 2 n
  else if n < 0x10000 then '\\' :: 'u' :: hex 4 n
  else '\\' :: 'U' :: hex 8 n

/-- One code point of a quoted text. -/
def escape (mark : Char) : CodePoint → List Char
  | .surrogate index => numbered (CodePoint.surrogate index).toNat
  | .char c =>
    if c = mark ∨ c = '\\' then ['\\', c]
    else if c = '\n' then ['\\', 'n']
    else if c = '\r' then ['\\', 'r']
    else if c = '\t' then ['\\', 't']
    else if isInvisible c.toNat then numbered c.toNat
    else [c]

/-- The quotation mark for a text. -/
def markFor (t : Text) : Char :=
  if .char '\'' ∈ t ∧ .char '"' ∉ t then '"' else '\''

/-- The quoted text. -/
def quote (t : Text) : String :=
  let mark := markFor t
  String.ofList (mark :: (t.flatMap (escape mark) ++ [mark]))

end HostGlue.Text.Literal

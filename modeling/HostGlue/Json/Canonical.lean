import HostGlue.Text.CodePoint
import HostGlue.Text.Hex

/-!
# Writing JSON

Texts of strings and objects in one canonical layout of printable ASCII characters: members on lines
of their own, two columns deeper than the braces. Outside ASCII a string is written by its 16-bit
units, so that a character above U+FFFF becomes a pair of surrogates. Two surrogates that are no
character are written the same way, and a reader takes them for the character.
-/

namespace HostGlue.Json.Canonical

/-- The escape of a 16-bit unit. -/
def unitEscape (unit : Nat) : List Char := '\\' :: 'u' :: Text.hex 4 unit

/-- The escape of a character by its 16-bit units. -/
def numbered (c : Char) : List Char :=
  if c.toNat < 0x10000 then unitEscape c.toNat
  else
    let n := c.toNat - 0x10000
    unitEscape (0xD800 + n / 0x400) ++ unitEscape (0xDC00 + n % 0x400)

/-- One code point of a string. -/
def escape : CodePoint → List Char
  | .surrogate index => unitEscape (CodePoint.surrogate index).toNat
  | .char c =>
    if c = '"' ∨ c = '\\' then ['\\', c]
    else if c = '\n' then ['\\', 'n']
    else if c = '\r' then ['\\', 'r']
    else if c = '\t' then ['\\', 't']
    else if c = '\x0c' then ['\\', 'f']
    else if c = '\x08' then ['\\', 'b']
    else if ' ' ≤ c ∧ c ≤ '~' then [c]
    else numbered c

/-- A string with its quotes. -/
def string (t : Text) : String := "\"" ++ String.ofList (t.flatMap escape) ++ "\""

/-- The start of a line at the given depth. -/
def margin (depth : Nat) : String := String.ofList (List.replicate (2 * depth) ' ')

/-- An object whose braces stand at the given depth, from its names and the texts of its values. -/
def object (depth : Nat) (members : List (Text × String)) : String :=
  if members.isEmpty then "\x7b\x7d"
  else
    let line := fun (m : Text × String) => margin (depth + 1) ++ string m.1 ++ ": " ++ m.2
    "\x7b\n" ++ ",\n".intercalate (members.map line) ++ "\n" ++ margin depth ++ "\x7d"

end HostGlue.Json.Canonical

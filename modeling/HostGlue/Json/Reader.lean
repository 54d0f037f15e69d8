import HostGlue.Json.Value
import HostGlue.NameMap

/-!
# Reading JSON

The reader consumes a text and returns what is left of it. A fault says how much text was left where
it was met; only the entry point `read` turns that into a line and a column.

What becomes of the members of an object is decided when its closing brace is read, by a rule that
the caller gives: `distinct` refuses a repeated name, `lastWins` keeps the last of its values at the
place of the first, and `asWritten` keeps every member. Inner objects are closed before outer ones,
and a fault in the text counts if it is met before the brace.

The values of the grammar extend standard JSON by `NaN`, `Infinity` and `-Infinity`.
-/

namespace HostGlue.Json

open CodePoint Decimal

/-- What is wrong with a text. -/
inductive Complaint where
  | byteOrderMark
  | noValue
  | noName
  | noColon
  | noComma
  | unterminatedString
  | controlCharacter
  | badEscape
  | badUnicodeEscape
  | extraData
  deriving Repr, DecidableEq

def Complaint.text : Complaint → String
  | .byteOrderMark => "Unexpected UTF-8 BOM (decode using utf-8-sig)"
  | .noValue => "Expecting value"
  | .noName => "Expecting property name enclosed in double quotes"
  | .noColon => "Expecting ':' delimiter"
  | .noComma => "Expecting ',' delimiter"
  | .unterminatedString => "Unterminated string starting at"
  | .controlCharacter => "Invalid control character at"
  | .badEscape => "Invalid \\escape"
  | .badUnicodeEscape => "Invalid \\uXXXX escape"
  | .extraData => "Extra data"

/-- Why reading stopped: a complaint with the number of code points left, or a refused name. -/
inductive Stop where
  | malformed (complaint : Complaint) (left : Nat)
  | duplicateName (name : Text)
  deriving Repr, DecidableEq

/-- A complaint at a place in the text. Lines and columns count from one, the offset from zero. -/
structure Malformed where
  complaint : Complaint
  line : Nat
  column : Nat
  offset : Nat
  deriving Repr, DecidableEq

def Malformed.message (m : Malformed) : String :=
  m.complaint.text ++ ": line " ++ toString m.line ++ " column " ++ toString m.column ++
    " (char " ++ toString m.offset ++ ")"

inductive ReadError where
  | malformed (fault : Malformed)
  | duplicateName (name : Text)
  deriving Repr, DecidableEq

/-- The complaint at the given offset of a text. -/
def Malformed.at (text : Text) (complaint : Complaint) (offset : Nat) : Malformed :=
  let before := text.take offset
  let line := before.count (char '\n')
  let column := (before.reverse.takeWhile (· ≠ char '\n')).length
  ⟨complaint, line + 1, column + 1, offset⟩

def Stop.locate (text : Text) : Stop → ReadError
  | .malformed complaint left => .malformed (Malformed.at text complaint (text.length - left))
  | .duplicateName name => .duplicateName name

/-! ## Blanks and numbers -/

def isBlank (p : CodePoint) : Bool := p = ' ' || p = '\t' || p = '\n' || p = '\r'

def skipBlanks (cs : Text) : Text := cs.dropWhile isBlank

/-- The number that decimal digits stand for. -/
def digitsValue (digits : Text) : Nat :=
  digits.foldl (fun n c => 10 * n + (c.toNat - '0'.toNat)) 0

/-- The digits before the point: a zero alone, or digits that do not begin with zero. -/
def wholePart? : Text → Option (Text × Text)
  | char '0' :: rest => some ([char '0'], rest)
  | c :: rest => if c.isDigit then some ((c :: rest).span isDigit) else none
  | [] => none

/-- The digits behind a point, if at least one follows it. -/
def fraction? : Text → Option (Text × Text)
  | char '.' :: rest =>
    let (digits, rest) := rest.span isDigit
    if digits.isEmpty then none else some (digits, rest)
  | _ => none

/-- The exponent behind its letter, if at least one digit follows. -/
def exponent? : Text → Option (Int × Text)
  | c :: rest =>
    if c = char 'e' ∨ c = char 'E' then
      let (negative, rest) := match rest with
        | char '-' :: rest => (true, rest)
        | char '+' :: rest => (false, rest)
        | rest => (false, rest)
      let (digits, rest) := rest.span isDigit
      if digits.isEmpty then none
      else some (if negative then -(digitsValue digits : Int) else digitsValue digits, rest)
    else none
  | [] => none

/-- A number behind its sign: an integer without fraction and exponent, a double otherwise. -/
def unsigned? (negative : Bool) (cs : Text) : Option (Value × Text) := do
  let (whole, rest) ← wholePart? cs
  let (fraction, rest₁) := (fraction? rest).getD ([], rest)
  let (power, rest₂) := (exponent? rest₁).getD (0, rest₁)
  if (fraction? rest).isNone && (exponent? rest₁).isNone then
    let n : Int := digitsValue whole
    return (.int (if negative then -n else n), rest)
  else
    let digits := digitsValue (whole ++ fraction)
    return (.float (Binary64.ofDecimal negative digits (power - fraction.length)), rest₂)

def number? : Text → Option (Value × Text)
  | char '-' :: rest => unsigned? true rest
  | cs => unsigned? false cs

/-! ## Strings -/

def hexDigit? : CodePoint → Option Nat
  | char c =>
    if c.isDigit then some (c.toNat - '0'.toNat)
    else if 'a' ≤ c ∧ c ≤ 'f' then some (c.toNat - 'a'.toNat + 10)
    else if 'A' ≤ c ∧ c ≤ 'F' then some (c.toNat - 'A'.toNat + 10)
    else none
  | surrogate _ => none

/-- The 16-bit unit that four hexadecimal digits name. -/
def unit? (a b c d : CodePoint) : Option Nat := do
  return 0x1000 * (← hexDigit? a) + 0x100 * (← hexDigit? b) + 0x10 * (← hexDigit? c) +
    (← hexDigit? d)

/-- The character that a code point behind a backslash is the escape of. -/
def escaped? : CodePoint → Option Char
  | char '"' => some '"'
  | char '\\' => some '\\'
  | char '/' => some '/'
  | char 'b' => some '\x08'
  | char 'f' => some '\x0c'
  | char 'n' => some '\n'
  | char 'r' => some '\r'
  | char 't' => some '\t'
  | _ => none

/-- A code point of a string as it is spelled: by an escape with the number of a 16-bit unit, or in
any other way. -/
structure Spelled where
  point : CodePoint
  byUnit : Bool := false
  deriving Repr, DecidableEq

/-- The code points of a string up to its closing quote, as they are spelled. `body` is the text
behind the opening quote, which a string without end is reported at. -/
def spelledString (body : Text) : Text → Except Stop (List Spelled × Text)
  | [] => .error (.malformed .unterminatedString (body.length + 1))
  | char '"' :: rest => .ok ([], rest)
  | [char '\\'] => .error (.malformed .unterminatedString (body.length + 1))
  | char '\\' :: char 'u' :: a :: b :: c :: d :: e :: rest =>
    match unit? a b c d with
    | some unit => do
      let (points, left) ← spelledString body (e :: rest)
      return (⟨.ofUnit unit, true⟩ :: points, left)
    | none => .error (.malformed .badUnicodeEscape (rest.length + 6))
  | char '\\' :: char 'u' :: rest => .error (.malformed .badUnicodeEscape (rest.length + 1))
  | char '\\' :: p :: rest =>
    match escaped? p with
    | some c => do
      let (points, left) ← spelledString body rest
      return (⟨c, false⟩ :: points, left)
    | none => .error (.malformed .badEscape (rest.length + 2))
  | p :: rest =>
    if p.toNat < 0x20 then .error (.malformed .controlCharacter (rest.length + 1))
    else do
      let (points, left) ← spelledString body rest
      return (⟨p, false⟩ :: points, left)

/-- What the spelled code points stand for. The units of a high and a low surrogate are one
character if they stand side by side; any other surrogate stands for itself. -/
def joinUnits : List Spelled → Text
  | [] => []
  | [s] => [s.point]
  | high :: low :: rest =>
    if high.byUnit && low.byUnit && high.point.isHigh && low.point.isLow then
      .join high.point low.point :: joinUnits rest
    else high.point :: joinUnits (low :: rest)

/-- The string whose opening quote was the last code point read. -/
def readString (cs : Text) : Except Stop (Text × Text) := do
  let (points, rest) ← spelledString cs cs
  return (joinUnits points, rest)

/-! ## Values -/

/-- What becomes of the members of an object, or the name that is refused. -/
abbrev ClosingRule := Members → Except Text Members

mutual

/-- The value that begins at the first character. -/
def readValue (rule : ClosingRule) : Nat → Text → Except Stop (Value × Text)
  | 0, cs => .error (.malformed .noValue cs.length)
  | fuel + 1, cs =>
    match cs with
    | char '"' :: rest => do
      let (s, left) ← readString rest
      return (.str s, left)
    | char '\x7b' :: rest => do
      let (members, left) ← match skipBlanks rest with
        | char '\x7d' :: left => pure ([], left)
        | start => readMembers rule fuel start
      match rule members with
      | .ok members => return (.obj members, left)
      | .error name => .error (.duplicateName name)
    | char '[' :: rest => do
      let (items, left) ← match skipBlanks rest with
        | char ']' :: left => pure ([], left)
        | start => readItems rule fuel start
      return (.arr items, left)
    | char 'n' :: char 'u' :: char 'l' :: char 'l' :: rest => .ok (.null, rest)
    | char 't' :: char 'r' :: char 'u' :: char 'e' :: rest => .ok (.bool true, rest)
    | char 'f' :: char 'a' :: char 'l' :: char 's' :: char 'e' :: rest => .ok (.bool false, rest)
    | char 'N' :: char 'a' :: char 'N' :: rest => .ok (.float .nan, rest)
    | char 'I' :: char 'n' :: char 'f' :: char 'i' :: char 'n' :: char 'i' :: char 't' ::
        char 'y' :: rest =>
      .ok (.float (.infinite false), rest)
    | char '-' :: char 'I' :: char 'n' :: char 'f' :: char 'i' :: char 'n' :: char 'i' ::
        char 't' :: char 'y' :: rest =>
      .ok (.float (.infinite true), rest)
    | cs =>
      match number? cs with
      | some found => .ok found
      | none => .error (.malformed .noValue cs.length)

/-- The items of a list that is not empty, from its first item to its closing bracket. -/
def readItems (rule : ClosingRule) : Nat → Text → Except Stop (List Value × Text)
  | 0, cs => .error (.malformed .noValue cs.length)
  | fuel + 1, cs => do
    let (v, left) ← readValue rule fuel cs
    match skipBlanks left with
    | char ']' :: rest => return ([v], rest)
    | char ',' :: rest => do
      let (items, left) ← readItems rule fuel (skipBlanks rest)
      return (v :: items, left)
    | other => .error (.malformed .noComma other.length)

/-- The members of an object that is not empty, from its first name to its closing brace. -/
def readMembers (rule : ClosingRule) : Nat → Text → Except Stop (Members × Text)
  | 0, cs => .error (.malformed .noValue cs.length)
  | fuel + 1, char '"' :: rest => do
    let (name, left) ← readString rest
    match skipBlanks left with
    | char ':' :: rest => do
      let (v, left) ← readValue rule fuel (skipBlanks rest)
      match skipBlanks left with
      | char '\x7d' :: rest => return ([(name, v)], rest)
      | char ',' :: rest => do
        let (members, left) ← readMembers rule fuel (skipBlanks rest)
        return ((name, v) :: members, left)
      | other => .error (.malformed .noComma other.length)
    | other => .error (.malformed .noColon other.length)
  | _ + 1, cs => .error (.malformed .noName cs.length)

end

/-- Calls that may be needed for a text: two for each character, one for the value itself. -/
def enough (cs : Text) : Nat := 2 * cs.length + 1

/-- The value that the whole text stands for. -/
def readText (rule : ClosingRule) (cs : Text) : Except Stop Value := do
  if cs.head? = some (char '\uFEFF') then .error (.malformed .byteOrderMark cs.length)
  else
    let start := skipBlanks cs
    let (v, left) ← readValue rule (enough start) start
    match skipBlanks left with
    | [] => return v
    | other => .error (.malformed .extraData other.length)

/-- Reads a JSON text. -/
def read (rule : ClosingRule) (text : Text) : Except ReadError Value :=
  (readText rule text).mapError (Stop.locate text)

/-! ## Closing rules -/

/-- The first name that occurred before it. -/
def repeatedName? (seen : List Text) : Members → Option Text
  | [] => none
  | (name, _) :: rest =>
    if seen.contains name then some name else repeatedName? (name :: seen) rest

/-- Refuses an object in which a name occurs twice. -/
def distinct : ClosingRule := fun members =>
  match repeatedName? [] members with
  | some name => .error name
  | none => .ok members

/-- Keeps the last value of each name, at the place where the name came first. -/
def lastWins : ClosingRule := fun members =>
  .ok ((NameMap.ofList members).entries)

/-- Keeps every member. -/
def asWritten : ClosingRule := .ok

end HostGlue.Json

import HostGlue.Json.Value

/-!
# The grammar of JSON texts

A text is put together from the texts of its parts, with blanks where the grammar allows them. The
rules give each text the value that it stands for, and say nothing of how it is read.

A string is spelled by its code points and by escapes. The escapes of a high and a low surrogate
side by side are those of one character, and any other surrogate stands for itself. A number with
neither a fraction nor an exponent is an integer, and any other number a double.
-/

namespace HostGlue.Json

open CodePoint Decimal

/-! ## Strings -/

/-- A hexadecimal digit in lower or upper case, and its value. -/
def HexDigit (p : CodePoint) (n : Nat) : Prop :=
  n < 16 ∧ (p = char n.digitChar ∨ p = char n.digitChar.toUpper)

/-- The escape of a 16-bit unit by its number. -/
inductive UnitText : Text → Nat → Prop
  | intro {a b c d : CodePoint} {i j k l : Nat} (ha : HexDigit a i) (hb : HexDigit b j)
      (hc : HexDigit c k) (hd : HexDigit d l) :
      UnitText [char '\\', char 'u', a, b, c, d] (0x1000 * i + 0x100 * j + 0x10 * k + l)

/-- The letters of the other escapes, and what they are the escapes of. -/
def letters : List (Char × Char) :=
  [('"', '"'), ('\\', '\\'), ('/', '/'), ('b', '\x08'), ('f', '\x0c'), ('n', '\n'), ('r', '\r'),
    ('t', '\t')]

def IsHighUnit (n : Nat) : Prop := 0xD800 ≤ n ∧ n < 0xDC00

def IsLowUnit (n : Nat) : Prop := 0xDC00 ≤ n ∧ n < 0xE000

/-- The text of a string between its quotes. -/
inductive StringText : Text → Text → Prop
  | nil : StringText [] []
  | plain {p : CodePoint} {text s : Text} (quote : p ≠ '"') (backslash : p ≠ '\\')
      (printed : 0x20 ≤ p.toNat) (tail : StringText text s) : StringText (p :: text) (p :: s)
  | letter {l c : Char} {text s : Text} (h : (l, c) ∈ letters) (tail : StringText text s) :
      StringText (char '\\' :: char l :: text) (char c :: s)
  | pair {high low text s : Text} {m n : Nat} (hm : UnitText high m) (isHigh : IsHighUnit m)
      (hn : UnitText low n) (isLow : IsLowUnit n) (tail : StringText text s) :
      StringText (high ++ (low ++ text))
        (char (Char.ofNat (0x10000 + 0x400 * (m - 0xD800) + (n - 0xDC00))) :: s)
  | unit {unit text s : Text} {n : Nat} (h : UnitText unit n)
      (alone : IsHighUnit n → ∀ low rest m, text = low ++ rest → UnitText low m → ¬ IsLowUnit m)
      (tail : StringText text s) : StringText (unit ++ text) (.ofUnit n :: s)

/-! ## Numbers -/

def digitsText (ds : List (Fin 10)) : Text := ds.map fun d => char d.val.digitChar

/-- The number that digits stand for. -/
def digitsNumber (ds : List (Fin 10)) : Nat := ds.foldl (fun n d => 10 * n + d.val) 0

def signed (negative : Bool) (n : Nat) : Int := if negative then -n else n

/-- The sign of a number. -/
inductive SignText : Text → Bool → Prop
  | none : SignText [] false
  | minus : SignText [char '-'] true

/-- The digits in front of the point: none of them is a zero too many. -/
def IsWhole (ds : List (Fin 10)) : Prop := ds ≠ [] ∧ (ds.head? = some 0 → ds = [0])

/-- A fraction or nothing, and its digits. -/
inductive FractionText : Text → List (Fin 10) → Prop
  | none : FractionText [] []
  | point {ds : List (Fin 10)} (h : ds ≠ []) : FractionText (char '.' :: digitsText ds) ds

/-- The sign of an exponent. -/
inductive ExponentSign : Text → Bool → Prop
  | none : ExponentSign [] false
  | plus : ExponentSign [char '+'] false
  | minus : ExponentSign [char '-'] true

/-- An exponent or nothing, and the power of ten. -/
inductive ExponentText : Text → Int → Prop
  | none : ExponentText [] 0
  | letter {p : CodePoint} {sign : Text} {negative : Bool} {ds : List (Fin 10)}
      (letter : p = 'e' ∨ p = 'E') (hs : ExponentSign sign negative) (h : ds ≠ []) :
      ExponentText (p :: (sign ++ digitsText ds)) (signed negative (digitsNumber ds))

inductive NumberText : Text → Value → Prop
  | integer {sign : Text} {negative : Bool} {whole : List (Fin 10)} (hs : SignText sign negative)
      (hw : IsWhole whole) :
      NumberText (sign ++ digitsText whole) (.int (signed negative (digitsNumber whole)))
  | decimal {sign point exponent : Text} {negative : Bool} {whole fraction : List (Fin 10)}
      {power : Int} (hs : SignText sign negative) (hw : IsWhole whole)
      (hf : FractionText point fraction) (he : ExponentText exponent power)
      (h : point ≠ [] ∨ exponent ≠ []) :
      NumberText (sign ++ (digitsText whole ++ (point ++ exponent)))
        (.float (Binary64.ofDecimal negative (digitsNumber (whole ++ fraction))
          (power - fraction.length)))

/-! ## Values -/

/-- The words that stand for a value. -/
def words : List (Text × Value) :=
  [("null", .null), ("true", .bool true), ("false", .bool false), ("NaN", .float .nan),
    ("Infinity", .float (.infinite false)), ("-Infinity", .float (.infinite true))]

/-- The text of a string, a word or a number. -/
inductive ScalarText : Text → Value → Prop
  | string {body s : Text} (h : StringText body s) :
      ScalarText (char '"' :: (body ++ [char '"'])) (.str s)
  | word {word : Text} {v : Value} (h : (word, v) ∈ words) : ScalarText word v
  | number {text : Text} {v : Value} (h : NumberText text v) : ScalarText text v

/-- Nothing but blanks. -/
def Blanks (text : Text) : Prop := ∀ p ∈ text, p ∈ [char ' ', char '\t', char '\n', char '\r']

/-- The text of a member's name, with the blanks around it. -/
inductive NameText : Text → Text → Prop
  | intro {before body after name : Text} (hb : Blanks before) (h : StringText body name)
      (ha : Blanks after) : NameText (before ++ char '"' :: (body ++ char '"' :: after)) name

mutual

/-- The text of a value. -/
inductive ValueText : Text → Value → Prop
  | scalar {text : Text} {v : Value} (h : ScalarText text v) : ValueText text v
  | emptyList {blanks : Text} (h : Blanks blanks) :
      ValueText (char '[' :: (blanks ++ [char ']'])) (.arr [])
  | list {text : Text} {items : List Value} (h : ItemsText text items) :
      ValueText (char '[' :: (text ++ [char ']'])) (.arr items)
  | emptyObject {blanks : Text} (h : Blanks blanks) :
      ValueText (char '\x7b' :: (blanks ++ [char '\x7d'])) (.obj [])
  | object {text : Text} {members : Members} (h : MembersText text members) :
      ValueText (char '\x7b' :: (text ++ [char '\x7d'])) (.obj members)

/-- The text of a value with the blanks around it. -/
inductive JsonText : Text → Value → Prop
  | intro {before text after : Text} {v : Value} (hb : Blanks before) (h : ValueText text v)
      (ha : Blanks after) : JsonText (before ++ (text ++ after)) v

/-- The items of a list, between its brackets. -/
inductive ItemsText : Text → List Value → Prop
  | last {text : Text} {v : Value} (h : JsonText text v) : ItemsText text [v]
  | cons {text texts : Text} {v : Value} {items : List Value} (h : JsonText text v)
      (hs : ItemsText texts items) : ItemsText (text ++ char ',' :: texts) (v :: items)

/-- The members of an object, between its braces. -/
inductive MembersText : Text → Members → Prop
  | last {named text name : Text} {v : Value} (hn : NameText named name) (h : JsonText text v) :
      MembersText (named ++ char ':' :: text) [(name, v)]
  | cons {named text texts name : Text} {v : Value} {members : Members} (hn : NameText named name)
      (h : JsonText text v) (hs : MembersText texts members) :
      MembersText (named ++ char ':' :: (text ++ char ',' :: texts)) ((name, v) :: members)

end

end HostGlue.Json

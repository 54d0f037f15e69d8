/-!
# Code points

The texts that pass through the program are lists of code points. Most code points are characters.
The others are the surrogates: they have a number, a place in the order and an escape, but no bytes,
and a text that is read from a file never has one. They come in through escapes, where a high
surrogate in front of a low one is the escape of one character and any other surrogate stands for
itself.
-/

namespace HostGlue

inductive CodePoint where
  | char (c : Char)
  /-- A surrogate, by its distance from U+D800. -/
  | surrogate (index : Fin 0x800)
  deriving Repr, DecidableEq, Inhabited

namespace CodePoint

instance : Coe Char CodePoint := ⟨char⟩

def toNat : CodePoint → Nat
  | char c => c.toNat
  | surrogate index => 0xD800 + index

/-- The code point of a 16-bit unit. -/
def ofUnit (n : Nat) : CodePoint :=
  if h : 0xD800 ≤ n ∧ n - 0xD800 < 0x800 then surrogate ⟨n - 0xD800, h.2⟩ else char (Char.ofNat n)

/-- The character of a code point, if it is one. -/
def char? : CodePoint → Option Char
  | char c => some c
  | surrogate _ => none

def isDigit : CodePoint → Bool
  | char c => c.isDigit
  | surrogate _ => false

def isHigh : CodePoint → Bool
  | char _ => false
  | surrogate index => index.val < 0x400

def isLow : CodePoint → Bool
  | char _ => false
  | surrogate index => 0x400 ≤ index.val

/-- The character that a high and a low surrogate are the escape of. -/
def join (high low : CodePoint) : CodePoint :=
  char (Char.ofNat (0x10000 + 0x400 * (high.toNat - 0xD800) + (low.toNat - 0xDC00)))

theorem toNat_injective {a b : CodePoint} (h : a.toNat = b.toNat) : a = b := by
  have apart (c : Char) (index : Fin 0x800) : c.toNat ≠ 0xD800 + index := by
    have valid : c.toNat < 0xD800 ∨ 0xDFFF < c.toNat ∧ c.toNat < 0x110000 := c.valid
    omega
  cases a with
  | char c =>
      cases b with
      | char c' => rw [Char.toNat_inj.mp h]
      | surrogate index => exact absurd h (apart c index)
  | surrogate index =>
      cases b with
      | char c => exact absurd h.symm (apart c index)
      | surrogate index' => rw [Fin.ext (Nat.add_left_cancel h)]

/-! ## Order -/

instance : LT CodePoint := ⟨fun a b => a.toNat < b.toNat⟩

instance : LE CodePoint := ⟨fun a b => a.toNat ≤ b.toNat⟩

instance : DecidableLT CodePoint := fun a b => inferInstanceAs (Decidable (a.toNat < b.toNat))

instance : DecidableLE CodePoint := fun a b => inferInstanceAs (Decidable (a.toNat ≤ b.toNat))

instance : Std.IsLinearOrder CodePoint where
  le_refl a := Nat.le_refl a.toNat
  le_trans _ _ _ h h' := Nat.le_trans h h'
  le_antisymm _ _ h h' := toNat_injective (Nat.le_antisymm h h')
  le_total a b := Nat.le_total a.toNat b.toNat

instance : Std.LawfulOrderLT CodePoint where
  lt_iff a b := Nat.lt_iff_le_and_not_ge (m := a.toNat) (n := b.toNat)

end CodePoint

abbrev Text := List CodePoint

namespace Text

/-- The code points of a string of characters. -/
def ofString (s : String) : Text := s.toList.map .char

instance : Coe String Text := ⟨ofString⟩

instance : LawfulBEq Text := inferInstance

/-- The string of the characters, if there are no surrogates. -/
def string? (t : Text) : Option String := (t.mapM CodePoint.char?).map String.ofList

/-- Only characters, no surrogates. -/
def IsScalar (t : Text) : Prop := ∀ p ∈ t, p.char?.isSome = true

theorem ofString_append (s t : String) : ofString (s ++ t) = ofString s ++ ofString t := by
  simp [ofString]

theorem ofString_injective {s t : String} (h : ofString s = ofString t) : s = t :=
  String.toList_injective ((List.map_inj_right fun _ _ => CodePoint.char.inj).mp h)

@[simp] theorem ofString_inj {s t : String} : ofString s = ofString t ↔ s = t :=
  ⟨ofString_injective, congrArg ofString⟩

theorem isScalar_ofString (s : String) : IsScalar (ofString s) := by
  intro p hp
  obtain ⟨c, -, rfl⟩ := List.mem_map.mp hp
  rfl

@[simp] theorem string?_ofString (s : String) : string? (ofString s) = some s := by
  have chars (cs : List Char) : (cs.map CodePoint.char).mapM CodePoint.char? = some cs := by
    induction cs with
    | nil => rfl
    | cons c cs ih => simp [CodePoint.char?, ih]
  rw [string?, ofString, chars, Option.map_some, String.ofList_toList]

theorem string?_eq_some {t : Text} {s : String} : t.string? = some s ↔ t = ofString s := by
  refine ⟨fun h => ?_, fun h => h ▸ string?_ofString s⟩
  obtain ⟨cs, chars, rfl⟩ := Option.map_eq_some_iff.mp h
  rw [ofString, String.toList_ofList]
  clear h
  induction t generalizing cs with
  | nil => cases chars; rfl
  | cons p t ih =>
      cases p with
      | surrogate index => simp [CodePoint.char?] at chars
      | char c =>
          simp only [List.mapM_cons, CodePoint.char?, Option.pure_def, Option.bind_eq_bind,
            Option.bind_some, Option.bind_eq_some_iff, Option.some.injEq] at chars
          obtain ⟨others, hothers, rfl⟩ := chars
          rw [List.map_cons, ← ih others hothers]

end Text

end HostGlue

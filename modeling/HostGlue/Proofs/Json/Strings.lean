import HostGlue.Json.Canonical
import HostGlue.Json.Reader
import HostGlue.Proofs.Except

/-!
# Strings are read back

Every code point has an escape that the reader takes back, whatever stands behind it in the string:
the character itself, a backslash with a letter, or one or two 16-bit units in hexadecimal. The
reader first collects code points, surrogates among them, and then joins the surrogates that are
spelled by units, so both stages are undone apart: `spelledString_escape` and `joinUnits_spelled`.

What is lost is the difference between a character above U+FFFF and its two surrogates, which are
written alike. A text without surrogates is read as it was written.
-/

namespace HostGlue.Json

open Canonical CodePoint

/-! ## Hexadecimal units -/

theorem hexDigit?_digitChar {n : Nat} (h : n < 16) : hexDigit? n.digitChar = some n := by
  have all : ∀ n < 16, hexDigit? n.digitChar = some n := by decide
  exact all n h

/-- Four digits write a 16-bit unit. -/
theorem hex_four {n : Nat} (h : n < 0x10000) : Text.hex 4 n =
    [(n / 0x1000).digitChar, (n / 0x100 % 0x10).digitChar, (n / 0x10 % 0x10).digitChar,
      (n % 0x10).digitChar] := by
  have one {k : Nat} (hk : k < 16) : Nat.toDigits 16 k = [k.digitChar] :=
    Nat.toDigits_of_lt_base hk
  have more {k : Nat} (hk : 16 ≤ k) :
      Nat.toDigits 16 k = Nat.toDigits 16 (k / 16) ++ [(k % 16).digitChar] :=
    Nat.toDigits_of_base_le (by decide) hk
  have zero : Nat.digitChar 0 = '0' := rfl
  have byHundred : n / 0x100 = n / 16 / 16 := by omega
  have byThousand : n / 0x1000 = n / 16 / 16 / 16 := by omega
  rw [byHundred, byThousand, Text.hex]
  rcases Nat.lt_or_ge n 16 with h₁ | h₁
  · have none : n / 16 = 0 := by omega
    simp [one h₁, none, zero, Nat.mod_eq_of_lt h₁, List.replicate]
  rcases Nat.lt_or_ge (n / 16) 16 with h₂ | h₂
  · have none : n / 16 / 16 = 0 := by omega
    simp [more h₁, one h₂, none, zero, Nat.mod_eq_of_lt h₂, List.replicate]
  rcases Nat.lt_or_ge (n / 16 / 16) 16 with h₃ | h₃
  · have none : n / 16 / 16 / 16 = 0 := by omega
    simp [more h₁, more h₂, one h₃, none, zero, Nat.mod_eq_of_lt h₃]
  · have h₄ : n / 16 / 16 / 16 < 16 := by omega
    simp [more h₁, more h₂, more h₃, one h₄]

/-- A unit is read from the digits that it is written with. -/
theorem unit?_hex {n : Nat} (h : n < 0x10000) :
    ∃ a b c d, Text.hex 4 n = [a, b, c, d] ∧ unit? a b c d = some n := by
  refine ⟨_, _, _, _, hex_four h, ?_⟩
  have sum : 0x1000 * (n / 0x1000) + 0x100 * (n / 0x100 % 0x10) + 0x10 * (n / 0x10 % 0x10) +
      n % 0x10 = n := by omega
  simp only [unit?, hexDigit?_digitChar (show n / 0x1000 < 16 by omega),
    hexDigit?_digitChar (show n / 0x100 % 0x10 < 16 by omega),
    hexDigit?_digitChar (show n / 0x10 % 0x10 < 16 by omega),
    hexDigit?_digitChar (show n % 0x10 < 16 by omega), Option.bind_eq_bind, Option.bind_some,
    Option.pure_def, sum]

/-! ## Code points -/

/-- The code points that a character is spelled with: two surrogates above U+FFFF. -/
def units (c : Char) : List CodePoint :=
  if c.toNat < 0x10000 then [char c]
  else [.ofUnit (0xD800 + (c.toNat - 0x10000) / 0x400),
    .ofUnit (0xDC00 + (c.toNat - 0x10000) % 0x400)]

/-- How the reader finds a code point spelled that was written. -/
def spelled : CodePoint → List Spelled
  | char c => (units c).map fun p => ⟨p, Canonical.escape (char c) = numbered c⟩
  | surrogate index => [⟨surrogate index, true⟩]

/-- Characters are no surrogates. -/
theorem toNat_range (c : Char) :
    c.toNat < 0xD800 ∨ 0xDFFF < c.toNat ∧ c.toNat < 0x110000 := c.valid

theorem ofUnit_toNat (c : Char) : CodePoint.ofUnit c.toNat = char c := by
  have range := toNat_range c
  rw [CodePoint.ofUnit, dif_neg (by omega), Char.ofNat_toNat]

theorem ofUnit_surrogate (index : Fin 0x800) :
    CodePoint.ofUnit (0xD800 + index) = surrogate index := by
  have bound := index.isLt
  rw [CodePoint.ofUnit, dif_pos (by omega)]
  simp

/-- The units of surrogates are at most U+FFFF. -/
theorem toNat_surrogate_lt (index : Fin 0x800) : (surrogate index).toNat < 0x10000 := by
  have bound := index.isLt
  rw [CodePoint.toNat]
  omega

/-- The code points of characters. -/
abbrev written (cs : List Char) : Text := cs.map char

section Points

variable {body tail left : Text} {c : Char} {found : List Spelled}

/-- A unit is read if the string goes on behind it. -/
theorem spelledString_unit {a b c d : CodePoint} {n : Nat} (h : unit? a b c d = some n)
    (more : tail ≠ []) (behind : spelledString body tail = .ok (found, left)) :
    spelledString body (char '\\' :: char 'u' :: a :: b :: c :: d :: tail) =
      .ok (⟨.ofUnit n, true⟩ :: found, left) := by
  cases tail with
  | nil => exact absurd rfl more
  | cons e rest =>
      rw [spelledString, h]
      simp only [behind]
      rfl

theorem spelledString_unitEscape {n : Nat} (h : n < 0x10000) (more : tail ≠ [])
    (behind : spelledString body tail = .ok (found, left)) :
    spelledString body (written (unitEscape n) ++ tail) =
      .ok (⟨.ofUnit n, true⟩ :: found, left) := by
  obtain ⟨a, b, c, d, digits, unit⟩ := unit?_hex h
  rw [unitEscape, digits]
  exact spelledString_unit unit more behind

theorem spelledString_escaped {letter : CodePoint} (notUnit : letter ≠ 'u')
    (h : escaped? letter = some c) (behind : spelledString body tail = .ok (found, left)) :
    spelledString body (char '\\' :: letter :: tail) = .ok (⟨c, false⟩ :: found, left) := by
  rw [spelledString]
  · simp only [h, behind]
    rfl
  · exact fun _ _ _ _ _ _ same _ => notUnit same
  · exact notUnit

theorem spelledString_plain {p : CodePoint} (quote : p ≠ '"') (backslash : p ≠ '\\')
    (printed : 0x20 ≤ p.toNat) (behind : spelledString body tail = .ok (found, left)) :
    spelledString body (p :: tail) = .ok (⟨p, false⟩ :: found, left) := by
  rw [spelledString]
  · simp only [if_neg (Nat.not_lt.mpr printed), behind]
    rfl
  · exact quote
  · exact fun same _ => backslash same
  · exact fun _ _ _ _ _ _ same _ => backslash same
  · exact fun _ same _ => backslash same
  · exact fun _ _ same _ => backslash same

/-- The units of a character by number. -/
theorem spelledString_numbered (c : Char) (more : tail ≠ [])
    (behind : spelledString body tail = .ok (found, left)) :
    spelledString body (written (numbered c) ++ tail) =
      .ok ((units c).map (⟨·, true⟩) ++ found, left) := by
  unfold numbered units
  split
  · next low =>
      rw [← ofUnit_toNat c]
      exact spelledString_unitEscape low more behind
  · next high =>
      have bound := toNat_range c
      rw [written, List.map_append, List.append_assoc]
      refine spelledString_unitEscape (by omega) ?_
        (spelledString_unitEscape (by omega) more behind)
      exact List.append_ne_nil_of_left_ne_nil (List.cons_ne_nil _ _) _

theorem exists_unitEscape (n : Nat) (tail : List Char) :
    ∃ digits, unitEscape n ++ tail = '\\' :: 'u' :: digits := ⟨Text.hex 4 n ++ tail, rfl⟩

/-- An escape by number begins with a backslash and the letter for units. -/
theorem exists_numbered (c : Char) : ∃ digits, numbered c = '\\' :: 'u' :: digits := by
  unfold numbered
  split
  · exact ⟨_, rfl⟩
  · exact exists_unitEscape _ _

theorem spelled_of_ne_numbered (low : c.toNat < 0x10000)
    (other : Canonical.escape (char c) ≠ numbered c) : spelled (char c) = [⟨char c, false⟩] := by
  rw [spelled, units, if_pos low]
  simp [other]

/-- **An escape is read as it was spelled**, if the string goes on behind it. -/
theorem spelledString_escape (p : CodePoint) (more : tail ≠ [])
    (behind : spelledString body tail = .ok (found, left)) :
    spelledString body (written (Canonical.escape p) ++ tail) = .ok (spelled p ++ found, left) := by
  cases p with
  | surrogate index =>
      have unit := spelledString_unitEscape (toNat_surrogate_lt index) more behind
      rwa [CodePoint.toNat, ofUnit_surrogate] at unit
  | char c =>
      have letter (l : Char) (escape : Canonical.escape (char c) = ['\\', l]) (notUnit : l ≠ 'u')
          (h : escaped? l = some c) (low : c.toNat < 0x10000) :
          spelledString body (written (Canonical.escape (char c)) ++ tail) =
            .ok (spelled (char c) ++ found, left) := by
        have other : Canonical.escape (char c) ≠ numbered c := by
          obtain ⟨digits, begins⟩ := exists_numbered c
          rw [escape, begins]
          rintro ⟨⟩
          exact notUnit rfl
        rw [escape, spelled_of_ne_numbered low other]
        exact spelledString_escaped (fun same => notUnit (CodePoint.char.inj same)) h behind
      -- the cases of the writer: a mark or a control character has a letter, a printed character
      -- stands for itself, and any other is written by number
      by_cases lettered : c ∈ ['"', '\\', '\n', '\r', '\t', '\x0c', '\x08']
      · simp only [List.mem_cons, List.not_mem_nil, or_false] at lettered
        rcases lettered with rfl | rfl | rfl | rfl | rfl | rfl | rfl
        all_goals exact letter _ rfl (by decide) rfl (by decide)
      simp only [List.mem_cons, List.not_mem_nil, or_false, not_or] at lettered
      obtain ⟨quote, backslash, line, carriage, tab, feed, back⟩ := lettered
      by_cases printed : ' ' ≤ c ∧ c ≤ '~'
      · have alone : Canonical.escape (char c) = [c] := by
          simp [Canonical.escape, quote, backslash, line, carriage, tab, feed, back, printed]
        have bounds : 0x20 ≤ c.toNat ∧ c.toNat ≤ 0x7e := printed
        have other : Canonical.escape (char c) ≠ numbered c := by
          obtain ⟨digits, begins⟩ := exists_numbered c
          rw [alone, begins]
          rintro ⟨⟩
        rw [alone, spelled_of_ne_numbered (by omega) other]
        exact spelledString_plain (fun same => quote (CodePoint.char.inj same))
          (fun same => backslash (CodePoint.char.inj same)) bounds.1 behind
      · have number : Canonical.escape (char c) = numbered c := by
          simp [Canonical.escape, quote, backslash, line, carriage, tab, feed, back, printed]
        rw [number, spelled, number]
        simpa using spelledString_numbered c more behind

theorem spelledString_string (t rest : Text) :
    spelledString body (written (t.flatMap Canonical.escape) ++ char '"' :: rest) =
      .ok (t.flatMap spelled, rest) := by
  induction t with
  | nil => rfl
  | cons p t ih =>
      rw [List.flatMap_cons, List.flatMap_cons, written, List.map_append, List.append_assoc]
      exact spelledString_escape p (List.append_ne_nil_of_right_ne_nil _ (List.cons_ne_nil _ _)) ih

end Points

/-! ## Joining surrogates -/

/-- The text with the character for every high surrogate in front of a low one. -/
def joined : Text → Text
  | high :: low :: rest =>
    if high.isHigh && low.isLow then .join high low :: joined rest else high :: joined (low :: rest)
  | text => text

theorem joined_cons {p : CodePoint} {text : Text}
    (apart : p.isHigh = true → ∀ q ∈ text.head?, q.isLow = false) :
    joined (p :: text) = p :: joined text := by
  cases text with
  | nil => rfl
  | cons q text =>
      rw [joined, if_neg]
      rw [Bool.and_eq_true, not_and, Bool.not_eq_true]
      exact fun high => apart high q rfl

/-- Without surrogates there is nothing to join. -/
theorem joined_of_isScalar {text : Text} (scalar : text.IsScalar) : joined text = text := by
  induction text with
  | nil => rfl
  | cons p text ih =>
      have here : p.isHigh = false := by
        cases p with
        | char c => rfl
        | surrogate index => exact absurd (scalar _ List.mem_cons_self) Bool.false_ne_true
      rw [joined_cons (fun high => absurd (high.symm.trans here) (by decide)),
        ih fun q mem => scalar q (List.mem_cons_of_mem _ mem)]

theorem joinUnits_cons {s : Spelled} {rest : List Spelled}
    (apart : s.byUnit = true → s.point.isHigh = true → ∀ next ∈ rest.head?, next.byUnit = true →
      next.point.isLow = false) : joinUnits (s :: rest) = s.point :: joinUnits rest := by
  cases rest with
  | nil => rfl
  | cons next rest =>
      rw [joinUnits, if_neg]
      simp only [Bool.and_eq_true, not_and, Bool.not_eq_true]
      rintro ⟨⟨unit, unit'⟩, high⟩
      exact apart unit high next rfl unit'

theorem joinUnits_pair {high low : CodePoint} (rest : List Spelled) (hh : high.isHigh = true)
    (hl : low.isLow = true) : joinUnits (⟨high, true⟩ :: ⟨low, true⟩ :: rest) =
      .join high low :: joinUnits rest := by
  rw [joinUnits]
  simp [hh, hl]

theorem join_ofUnit {i j n : Nat} (hi : i < 0x400) (hj : j < 0x400)
    (sum : n = 0x10000 + 0x400 * i + j) :
    (CodePoint.ofUnit (0xD800 + i)).isHigh = true ∧ (CodePoint.ofUnit (0xD800 + i)).isLow = false ∧
      (CodePoint.ofUnit (0xDC00 + j)).isLow = true ∧
      CodePoint.join (.ofUnit (0xD800 + i)) (.ofUnit (0xDC00 + j)) = char (Char.ofNat n) := by
  have high : CodePoint.ofUnit (0xD800 + i) = surrogate ⟨i, by omega⟩ :=
    ofUnit_surrogate ⟨i, by omega⟩
  have low : CodePoint.ofUnit (0xDC00 + j) = surrogate ⟨0x400 + j, by omega⟩ := by
    rw [show 0xDC00 + j = 0xD800 + (0x400 + j) by omega]
    exact ofUnit_surrogate ⟨0x400 + j, by omega⟩
  have point : 0x10000 + 0x400 * (0xD800 + i - 0xD800) + (0xD800 + (0x400 + j) - 0xDC00) = n := by
    omega
  rw [high, low]
  simp only [CodePoint.isHigh, CodePoint.isLow, CodePoint.join, CodePoint.toNat, point,
    decide_eq_true_eq, decide_eq_false_iff_not]
  exact ⟨hi, by omega, by omega, trivial⟩

/-- The surrogates of a character above U+FFFF. -/
theorem units_high {c : Char} (high : ¬ c.toNat < 0x10000) : ∃ h l, units c = [h, l] ∧
    h.isHigh = true ∧ h.isLow = false ∧ l.isLow = true ∧ CodePoint.join h l = char c := by
  have bound := toNat_range c
  have joins := @join_ofUnit ((c.toNat - 0x10000) / 0x400) ((c.toNat - 0x10000) % 0x400) c.toNat
    (by omega) (by omega) (by omega)
  rw [Char.ofNat_toNat] at joins
  exact ⟨_, _, by rw [units, if_neg high], joins⟩

/-- Above U+FFFF a character is written by number. -/
theorem escape_of_high {c : Char} (high : ¬ c.toNat < 0x10000) :
    Canonical.escape (char c) = numbered c := by
  have apart (d : Char) (low : d.toNat < 0x10000) : c ≠ d := by
    rintro rfl
    exact high low
  have above : ¬ (' ' ≤ c ∧ c ≤ '~') := by
    rintro ⟨-, below⟩
    have below : c.toNat ≤ 0x7e := below
    omega
  simp only [Canonical.escape, apart _ (show '"'.toNat < 0x10000 by decide),
    apart _ (show '\\'.toNat < 0x10000 by decide), apart _ (show '\n'.toNat < 0x10000 by decide),
    apart _ (show '\r'.toNat < 0x10000 by decide), apart _ (show '\t'.toNat < 0x10000 by decide),
    apart _ (show '\x0c'.toNat < 0x10000 by decide),
    apart _ (show '\x08'.toNat < 0x10000 by decide), above, or_self, if_false]

/-- A code point is joined to nothing behind it, unless it is a high surrogate in front of a
low one. -/
theorem joinUnits_spelled_append {p : CodePoint} {rest : List Spelled}
    (apart : p.isHigh = true → ∀ next ∈ rest.head?, next.point.isLow = false) :
    joinUnits (spelled p ++ rest) = p :: joinUnits rest := by
  cases p with
  | surrogate index => exact joinUnits_cons fun _ high next mem _ => apart high next mem
  | char c =>
      by_cases low : c.toNat < 0x10000
      · rw [spelled, units, if_pos low]
        exact joinUnits_cons fun _ high => absurd high Bool.false_ne_true
      · obtain ⟨h, l, split, high, -, second, joins⟩ := units_high low
        rw [spelled, split, escape_of_high low]
        simp only [decide_true, List.map_cons, List.map_nil, List.cons_append, List.nil_append]
        rw [joinUnits_pair _ high second, joins]

/-- What a code point is spelled with begins with a low surrogate only if it is one. -/
theorem exists_spelled (p : CodePoint) :
    ∃ first others, spelled p = first :: others ∧ first.point.isLow = p.isLow := by
  cases p with
  | surrogate index => exact ⟨_, _, rfl, rfl⟩
  | char c =>
      by_cases low : c.toNat < 0x10000
      · rw [spelled, units, if_pos low]
        exact ⟨_, _, rfl, rfl⟩
      · obtain ⟨h, l, split, -, first, -⟩ := units_high low
        rw [spelled, split]
        exact ⟨_, _, rfl, first⟩

/-- **A written text is read with its surrogates joined.** -/
theorem joinUnits_spelled (t : Text) : joinUnits (t.flatMap spelled) = joined t := by
  fun_induction joined t with
  | case1 high low rest pair ih =>
      rw [Bool.and_eq_true] at pair
      obtain ⟨hh, hl⟩ := pair
      cases high with
      | char c => cases hh
      | surrogate index =>
          cases low with
          | char c => cases hl
          | surrogate index' => exact (joinUnits_pair _ hh hl).trans (congrArg _ ih)
  | case2 high low rest alone ih =>
      rw [List.flatMap_cons, joinUnits_spelled_append, ih]
      intro isHigh next mem
      obtain ⟨first, others, split, same⟩ := exists_spelled low
      rw [List.flatMap_cons, split] at mem
      obtain rfl := Option.some.inj mem
      rw [same]
      simpa [isHigh] using alone
  | case3 text short =>
      cases text with
      | nil => rfl
      | cons p text =>
          cases text with
          | nil =>
              rw [List.flatMap_cons]
              exact joinUnits_spelled_append fun _ _ mem => by cases mem
          | cons q text => exact absurd rfl (short p q text)

/-- A character is written as the surrogates that it is joined from. -/
theorem escape_join {high low : CodePoint} (hh : high.isHigh = true) (hl : low.isLow = true) :
    Canonical.escape (.join high low) = Canonical.escape high ++ Canonical.escape low := by
  cases high with
  | char c => cases hh
  | surrogate i =>
      cases low with
      | char c => cases hl
      | surrogate j =>
          have hi : i.val < 0x400 := of_decide_eq_true hh
          have hj : 0x400 ≤ j.val := of_decide_eq_true hl
          have bound := j.isLt
          obtain ⟨n, hn⟩ : ∃ n, n = 0x10000 + 0x400 * i.val + (j.val - 0x400) := ⟨_, rfl⟩
          have second : 0xDC00 + (j.val - 0x400) = 0xD800 + j.val := by omega
          obtain ⟨-, -, -, joins⟩ := join_ofUnit hi (j := j.val - 0x400) (by omega) hn
          rw [second, ofUnit_surrogate, ofUnit_surrogate] at joins
          have valid : n.isValidChar := .inr ⟨by omega, by omega⟩
          have number : (Char.ofNat n).toNat = n := by
            rw [Char.ofNat, dif_pos valid]
            rfl
          have above : ¬ (Char.ofNat n).toNat < 0x10000 := by omega
          have front : (n - 0x10000) / 0x400 = i.val := by omega
          have behind : 0xDC00 + (n - 0x10000) % 0x400 = 0xD800 + j.val := by omega
          rw [joins, escape_of_high above, numbered, if_neg above, number]
          simp only [front, behind]
          rfl

/-- Joined surrogates are written as they were. -/
theorem flatMap_escape_joined (t : Text) :
    (joined t).flatMap Canonical.escape = t.flatMap Canonical.escape := by
  fun_induction joined t with
  | case1 high low rest pair ih =>
      rw [Bool.and_eq_true] at pair
      rw [List.flatMap_cons, List.flatMap_cons, List.flatMap_cons, ih,
        escape_join pair.1 pair.2, List.append_assoc]
  | case2 high low rest alone ih =>
      rw [List.flatMap_cons, List.flatMap_cons, ih]
  | case3 text short => rfl
/-- **Strings are read back**, with their surrogates joined. -/
theorem readString_string (t rest : Text) :
    readString (written (t.flatMap Canonical.escape) ++ char '"' :: rest) =
      .ok (joined t, rest) := by
  rw [readString, spelledString_string, except_ok_bind, ← joinUnits_spelled]
  rfl

end HostGlue.Json

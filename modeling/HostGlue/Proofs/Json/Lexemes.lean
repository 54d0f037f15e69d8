import HostGlue.Proofs.Json.Reading
import Mathlib.Data.List.TakeDrop
import Mathlib.Data.List.TakeWhile

/-!
# Lexemes

Strings, words and numbers are read exactly if the grammar derives them. A string ends with its
quote. A number ends where the next character does not continue it, so its text is read in front of
anything that a value may be followed by. For each part of a number there is a pair of lemmas: what
the grammar derives is read, and what is read the grammar derives.
-/

namespace HostGlue.Json

open CodePoint

variable {cs left : Text}

/-- A value may be followed by the text: it is empty or begins with a blank or a delimiter. -/
def Delimits (rest : Text) : Prop :=
  ∀ c, rest.head? = some c → isBlank c = true ∨ c = ',' ∨ c = ']' ∨ c = '\x7d'

theorem delimits_nil : Delimits [] := nofun

theorem delimits_cons {c : CodePoint} {rest : Text} :
    Delimits (c :: rest) ↔ isBlank c = true ∨ c = ',' ∨ c = ']' ∨ c = '\x7d' := by
  simp [Delimits]

theorem isBlank_iff {c : CodePoint} :
    isBlank c = true ↔ c = ' ' ∨ c = '\t' ∨ c = '\n' ∨ c = '\r' := by
  simp [isBlank, or_assoc]

/-! ## Units -/

instance (p : CodePoint) (n : Nat) : Decidable (HexDigit p n) :=
  inferInstanceAs (Decidable (n < 16 ∧ (p = char n.digitChar ∨ p = char n.digitChar.toUpper)))

theorem toNat_lt_of_hexDigit? {c : Char} {n : Nat} (h : hexDigit? (char c) = some n) :
    c.toNat < 0x80 := by
  have below {d : Char} (le : c ≤ d) (ascii : d.toNat < 0x80) : c.toNat < 0x80 :=
    Nat.lt_of_le_of_lt le ascii
  unfold hexDigit? at h
  dsimp only at h
  split at h
  · next digit =>
      simp only [Char.isDigit, Bool.and_eq_true, decide_eq_true_eq] at digit
      exact below (d := '9') digit.2 (by decide)
  split at h
  · next lower => exact below lower.2 (by decide)
  split at h
  · next upper => exact below upper.2 (by decide)
  · cases h

theorem hexDigit?_eq_some_iff {p : CodePoint} {n : Nat} : hexDigit? p = some n ↔ HexDigit p n := by
  constructor
  · intro h
    cases p with
    | surrogate index => cases h
    | char c =>
        -- only characters of the first 128 are digits, and these can be gone through
        have all : ∀ k < 0x80, ∀ n ∈ hexDigit? (char (Char.ofNat k)),
            HexDigit (char (Char.ofNat k)) n := by decide +kernel
        have here := all c.toNat (toNat_lt_of_hexDigit? h) n
        rw [Char.ofNat_toNat] at here
        exact here h
  · have upper : ∀ n < 16, hexDigit? (char n.digitChar.toUpper) = some n := by decide
    rintro ⟨bound, rfl | rfl⟩
    · exact hexDigit?_digitChar bound
    · exact upper n bound

theorem unit?_eq_some_iff {a b c d : CodePoint} {n : Nat} :
    unit? a b c d = some n ↔ UnitText [char '\\', char 'u', a, b, c, d] n := by
  simp only [unit?, Option.bind_eq_bind, Option.bind_eq_some_iff, hexDigit?_eq_some_iff,
    Option.pure_def, Option.some.injEq]
  constructor
  · rintro ⟨i, ha, j, hb, k, hc, l, hd, rfl⟩
    exact ⟨ha, hb, hc, hd⟩
  · rintro ⟨ha, hb, hc, hd⟩
    exact ⟨_, ha, _, hb, _, hc, _, hd, rfl⟩

/-! ## Strings -/

theorem escaped?_eq_some_iff {p : CodePoint} {c : Char} :
    escaped? p = some c ↔ ∃ l, p = char l ∧ (l, c) ∈ letters := by
  constructor
  · intro h
    unfold escaped? at h
    split at h
    all_goals cases h
    all_goals exact ⟨_, rfl, by decide⟩
  · rintro ⟨l, rfl, mem⟩
    simp only [letters, List.mem_cons, Prod.mk.injEq, List.not_mem_nil, or_false] at mem
    rcases mem with ⟨rfl, rfl⟩ | ⟨rfl, rfl⟩ | ⟨rfl, rfl⟩ | ⟨rfl, rfl⟩ | ⟨rfl, rfl⟩ | ⟨rfl, rfl⟩ |
      ⟨rfl, rfl⟩ | ⟨rfl, rfl⟩
    all_goals rfl

/-- The text of a string between its quotes, code point by code point as it is spelled. -/
inductive Spells : Text → List Spelled → Prop
  | nil : Spells [] []
  | plain {p : CodePoint} {text : Text} {found : List Spelled} (quote : p ≠ '"')
      (backslash : p ≠ '\\') (printed : 0x20 ≤ p.toNat) (tail : Spells text found) :
      Spells (p :: text) (⟨p, false⟩ :: found)
  | letter {l c : Char} {text : Text} {found : List Spelled} (h : (l, c) ∈ letters)
      (tail : Spells text found) :
      Spells (char '\\' :: char l :: text) (⟨char c, false⟩ :: found)
  | unit {unit text : Text} {found : List Spelled} {n : Nat} (h : UnitText unit n)
      (tail : Spells text found) : Spells (unit ++ text) (⟨.ofUnit n, true⟩ :: found)

theorem Spells.spelledString {text : Text} {found : List Spelled} (h : Spells text found)
    (body rest : Text) : spelledString body (text ++ char '"' :: rest) = .ok (found, rest) := by
  induction h with
  | nil => rfl
  | plain quote backslash printed _ ih => exact spelledString_plain quote backslash printed ih
  | @letter l c _ _ mem _ ih =>
      have notUnit : char l ≠ 'u' := by
        rintro ⟨⟩
        revert mem
        simp [letters]
      exact spelledString_escaped notUnit (escaped?_eq_some_iff.mpr ⟨l, rfl, mem⟩) ih
  | unit h _ ih =>
      obtain @⟨a, b, c, d, i, j, k, l, ha, hb, hc, hd⟩ := h
      exact spelledString_unit (unit?_eq_some_iff.mpr ⟨ha, hb, hc, hd⟩)
        (List.append_ne_nil_of_right_ne_nil _ (List.cons_ne_nil _ _)) ih

theorem exists_spells {body : Text} {found : List Spelled}
    (h : spelledString body cs = .ok (found, left)) :
    ∃ text, cs = text ++ char '"' :: left ∧ Spells text found := by
  fun_induction Json.spelledString body cs generalizing found left with
  | case1 => cases h
  | case2 rest =>
      cases h
      exact ⟨[], rfl, .nil⟩
  | case3 => cases h
  | case4 a b c d e rest unit digits ih =>
      obtain ⟨_, behind, ⟨⟩⟩ := except_bind_eq_ok.mp h
      obtain ⟨text, split, spells⟩ := ih behind
      exact ⟨_ ++ text, by rw [split]; rfl, .unit (unit?_eq_some_iff.mp digits) spells⟩
  | case5 => cases h
  | case6 => cases h
  | case7 p rest _ _ c letter ih =>
      obtain ⟨_, behind, ⟨⟩⟩ := except_bind_eq_ok.mp h
      obtain ⟨text, rfl, spells⟩ := ih behind
      obtain ⟨l, rfl, mem⟩ := escaped?_eq_some_iff.mp letter
      exact ⟨_, rfl, .letter mem spells⟩
  | case8 => cases h
  | case9 => cases h
  | case10 p rest quote last _ _ letter printed ih =>
      have backslash : p ≠ '\\' := by
        intro same
        cases rest with
        | nil => exact last same rfl
        | cons next rest => exact letter next rest same rfl
      obtain ⟨_, behind, ⟨⟩⟩ := except_bind_eq_ok.mp h
      obtain ⟨text, rfl, spells⟩ := ih behind
      exact ⟨_, rfl, .plain quote backslash (Nat.not_lt.mp printed) spells⟩

theorem isHigh_ofUnit {n : Nat} : (CodePoint.ofUnit n).isHigh = true ↔ IsHighUnit n := by
  unfold CodePoint.ofUnit IsHighUnit
  split
  · simp only [CodePoint.isHigh, decide_eq_true_eq]
    omega
  · simp only [CodePoint.isHigh, Bool.false_eq_true, false_iff]
    omega

theorem isLow_ofUnit {n : Nat} : (CodePoint.ofUnit n).isLow = true ↔ IsLowUnit n := by
  unfold CodePoint.ofUnit IsLowUnit
  split
  · simp only [CodePoint.isLow, decide_eq_true_eq]
    omega
  · simp only [CodePoint.isLow, Bool.false_eq_true, false_iff]
    omega

theorem join_units {m n : Nat} (high : IsHighUnit m) (low : IsLowUnit n) :
    CodePoint.join (.ofUnit m) (.ofUnit n) =
      char (Char.ofNat (0x10000 + 0x400 * (m - 0xD800) + (n - 0xDC00))) := by
  have point {k : Nat} (h : 0xD800 ≤ k ∧ k < 0xE000) : (CodePoint.ofUnit k).toNat = k := by
    rw [CodePoint.ofUnit, dif_pos (by omega)]
    simp only [CodePoint.toNat]
    omega
  unfold IsHighUnit at high
  unfold IsLowUnit at low
  rw [CodePoint.join, point (by omega), point (by omega)]

/-- A code point that is spelled by its unit has the unit's escape. -/
theorem Spells.exists_unit {text : Text} {p : CodePoint} {found : List Spelled}
    (h : Spells text (⟨p, true⟩ :: found)) :
    ∃ unit rest n, text = unit ++ rest ∧ UnitText unit n ∧ p = .ofUnit n ∧ Spells rest found := by
  generalize spelled : (⟨p, true⟩ : Spelled) :: found = all at h
  cases h with
  | nil => cases spelled
  | plain => cases spelled
  | letter => cases spelled
  | unit unit tail =>
      cases spelled
      exact ⟨_, _, _, rfl, unit, rfl, tail⟩

/-- The escape of a unit is spelled in no other way. -/
theorem Spells.of_unit {low rest : Text} {n : Nat} {found : List Spelled} (unit : UnitText low n)
    (h : Spells (low ++ rest) found) : ∃ more, found = ⟨.ofUnit n, true⟩ :: more := by
  obtain @⟨a, b, c, d, i, j, k, l, ha, hb, hc, hd⟩ := unit
  generalize split : [char '\\', char 'u', a, b, c, d] ++ rest = text at h
  cases h with
  | nil => cases split
  | plain _ backslash =>
      cases split
      exact absurd rfl backslash
  | letter mem =>
      cases split
      revert mem
      simp [letters]
  | unit h tail =>
      obtain ⟨ha', hb', hc', hd'⟩ := h
      cases split
      have same := (unit?_eq_some_iff.mpr ⟨ha, hb, hc, hd⟩).symm.trans
        (unit?_eq_some_iff.mpr ⟨ha', hb', hc', hd'⟩)
      rw [Option.some.inj same]
      exact ⟨_, rfl⟩

/-- One code point in front of a string, if it is no half of a character. -/
theorem stringText_cons {first : Spelled} {found : List Spelled} {text s : Text}
    (h : Spells text (first :: found))
    (apart : first.byUnit = true → first.point.isHigh = true → ∀ next ∈ found.head?,
      next.byUnit = true → next.point.isLow = false)
    (tail : ∀ rest, Spells rest found → StringText rest s) :
    StringText text (first.point :: s) := by
  cases h with
  | plain quote backslash printed behind => exact .plain quote backslash printed (tail _ behind)
  | letter mem behind => exact .letter mem (tail _ behind)
  | @unit unit rest _ n h behind =>
      -- if the escape of a low half followed, it would be the next that is spelled by its unit
      refine .unit h (fun high low rest' m split unit' isLow => ?_) (tail _ behind)
      obtain ⟨more, rfl⟩ := (split ▸ behind).of_unit unit'
      have none := apart rfl (isHigh_ofUnit.mpr high) _ rfl rfl
      rw [isLow_ofUnit.mpr isLow] at none
      cases none

theorem stringText_of_spells {text : Text} {found : List Spelled} (h : Spells text found) :
    StringText text (joinUnits found) := by
  fun_induction joinUnits found generalizing text with
  | case1 =>
      cases h
      exact .nil
  | case2 s =>
      refine stringText_cons h (fun _ _ _ mem => by cases mem) fun rest behind => ?_
      cases behind
      exact .nil
  | case3 high low rest pair ih =>
      obtain ⟨high, _⟩ := high
      obtain ⟨low, _⟩ := low
      simp only [Bool.and_eq_true] at pair
      obtain ⟨⟨⟨rfl, rfl⟩, isHigh⟩, isLow⟩ := pair
      obtain ⟨first, _, m, rfl, hm, rfl, behind⟩ := h.exists_unit
      obtain ⟨second, text, n, rfl, hn, rfl, tail⟩ := behind.exists_unit
      rw [isHigh_ofUnit] at isHigh
      rw [isLow_ofUnit] at isLow
      rw [join_units isHigh isLow]
      exact .pair hm isHigh hn isLow (ih tail)
  | case4 high low rest alone ih =>
      refine stringText_cons h (fun unit isHigh next mem unit' => ?_) fun _ behind => ih behind
      obtain rfl := Option.some.inj mem
      simpa [unit, isHigh, unit'] using alone

theorem StringText.exists_spells {text s : Text} (h : StringText text s) :
    ∃ found, Spells text found ∧ joinUnits found = s := by
  induction h with
  | nil => exact ⟨[], .nil, rfl⟩
  | plain quote backslash printed _ ih =>
      obtain ⟨found, spells, rfl⟩ := ih
      exact ⟨_, .plain quote backslash printed spells, joinUnits_cons nofun⟩
  | letter mem _ ih =>
      obtain ⟨found, spells, rfl⟩ := ih
      exact ⟨_, .letter mem spells, joinUnits_cons nofun⟩
  | pair hm isHigh hn isLow _ ih =>
      obtain ⟨found, spells, rfl⟩ := ih
      refine ⟨_, .unit hm (.unit hn spells), ?_⟩
      rw [joinUnits_pair _ (isHigh_ofUnit.mpr isHigh) (isLow_ofUnit.mpr isLow),
        join_units isHigh isLow]
  | @unit unit text _ n h alone _ ih =>
      obtain ⟨found, spells, rfl⟩ := ih
      refine ⟨_, .unit h spells, joinUnits_cons fun _ isHigh next mem unit' => ?_⟩
      cases found with
      | nil => cases mem
      | cons first found =>
          obtain rfl := Option.some.inj mem
          obtain ⟨p, _⟩ := first
          obtain rfl : _ = true := unit'
          obtain ⟨low, rest, m, split, hm, rfl, -⟩ := spells.exists_unit
          rw [← Bool.not_eq_true, isLow_ofUnit]
          exact alone (isHigh_ofUnit.mp isHigh) low rest m split hm

/-- **Strings** are read up to their quote. -/
theorem readString_eq_ok_iff {s : Text} : readString cs = .ok (s, left) ↔
    ∃ body, cs = body ++ char '"' :: left ∧ StringText body s := by
  constructor
  · intro h
    obtain ⟨⟨found, left⟩, read, ⟨⟩⟩ := except_bind_eq_ok.mp h
    obtain ⟨text, split, spells⟩ := Json.exists_spells read
    exact ⟨text, split, stringText_of_spells spells⟩
  · rintro ⟨body, rfl, h⟩
    obtain ⟨found, spells, rfl⟩ := h.exists_spells
    rw [readString, spells.spelledString]
    rfl

/-! ## Digits -/

/-- A number ends in front of the text. -/
def EndsNumber (rest : Text) : Prop :=
  ∀ c, rest.head? = some c → c.isDigit = false ∧ c ≠ '.' ∧ c ≠ 'e' ∧ c ≠ 'E'

theorem Delimits.endsNumber {rest : Text} (h : Delimits rest) : EndsNumber rest := by
  intro c first
  have known := h c first
  rw [isBlank_iff] at known
  rcases known with (rfl | rfl | rfl | rfl) | rfl | rfl | rfl
  all_goals decide

/-- No digit follows. -/
def EndsDigits (rest : Text) : Prop := ∀ c, rest.head? = some c → c.isDigit = false

theorem isDigit_digitChar (d : Fin 10) : (char d.val.digitChar).isDigit = true := by
  revert d
  decide

theorem isDigit_of_mem_digitsText {ds : List (Fin 10)} : ∀ p ∈ digitsText ds, p.isDigit = true := by
  intro p mem
  obtain ⟨d, -, rfl⟩ := List.mem_map.mp mem
  exact isDigit_digitChar d

theorem exists_digit_of_isDigit {p : CodePoint} (h : p.isDigit = true) :
    ∃ d : Fin 10, p = char d.val.digitChar := by
  cases p with
  | surrogate index => cases h
  | char c =>
      simp only [CodePoint.isDigit, Char.isDigit, Bool.and_eq_true, decide_eq_true_eq] at h
      have bounds : 0x30 ≤ c.toNat ∧ c.toNat ≤ 0x39 := h
      have all : ∀ d : Fin 10, Char.ofNat (0x30 + d) = d.val.digitChar := by decide
      have here := all ⟨c.toNat - 0x30, by omega⟩
      rw [show 0x30 + (⟨c.toNat - 0x30, by omega⟩ : Fin 10).val = c.toNat from
        Nat.add_sub_cancel' bounds.1, Char.ofNat_toNat] at here
      exact ⟨_, congrArg char here⟩

theorem exists_digitsText {digits : Text} (all : ∀ p ∈ digits, p.isDigit = true) :
    ∃ ds, digits = digitsText ds := by
  induction digits with
  | nil => exact ⟨[], rfl⟩
  | cons p digits ih =>
      rw [List.forall_mem_cons] at all
      obtain ⟨d, rfl⟩ := exists_digit_of_isDigit all.1
      obtain ⟨ds, rfl⟩ := ih all.2
      exact ⟨d :: ds, rfl⟩

theorem digitsValue_digitsText (ds : List (Fin 10)) :
    digitsValue (digitsText ds) = digitsNumber ds := by
  have one : ∀ d : Fin 10, (char d.val.digitChar).toNat - '0'.toNat = d.val := by decide
  rw [digitsValue, digitsText, List.foldl_map]
  simp only [one]
  rfl

@[simp] theorem digitsText_eq_nil_iff {ds : List (Fin 10)} : digitsText ds = [] ↔ ds = [] :=
  List.map_eq_nil_iff

@[simp] theorem digitsText_append (ds es : List (Fin 10)) :
    digitsText (ds ++ es) = digitsText ds ++ digitsText es := List.map_append

/-- Digits are read up to a text that does not go on with one. -/
theorem span_digitsText (ds : List (Fin 10)) {rest : Text} (ends : EndsDigits rest) :
    (digitsText ds ++ rest).span CodePoint.isDigit = (digitsText ds, rest) := by
  have all : ∀ p ∈ digitsText ds, p.isDigit = true := isDigit_of_mem_digitsText
  rw [List.span_eq_takeWhile_dropWhile, List.takeWhile_append_of_pos all,
    List.dropWhile_append_of_pos all]
  cases rest with
  | nil => simp
  | cons c rest =>
      have other : c.isDigit = false := ends c rfl
      simp [other]

theorem exists_digits (cs : Text) : ∃ ds left, cs.span CodePoint.isDigit = (digitsText ds, left) ∧
    cs = digitsText ds ++ left ∧ EndsDigits left := by
  obtain ⟨ds, split⟩ := exists_digitsText fun p (mem : p ∈ cs.takeWhile CodePoint.isDigit) =>
    List.mem_takeWhile_imp mem
  refine ⟨ds, cs.dropWhile CodePoint.isDigit, ?_, ?_, fun c first => ?_⟩
  · rw [List.span_eq_takeWhile_dropWhile, split]
  · rw [← split, List.takeWhile_append_dropWhile]
  · have stops := List.head?_dropWhile_not CodePoint.isDigit cs
    rw [first] at stops
    exact stops

/-! ## Parts of a number -/

theorem head?_digitsText {ds : List (Fin 10)} (h : ds ≠ []) :
    ∃ c rest, digitsText ds = c :: rest ∧ c.isDigit = true := by
  cases ds with
  | nil => exact absurd rfl h
  | cons d ds =>
      exact ⟨_, _, rfl, isDigit_digitChar d⟩

theorem wholePart?_digitsText {ds : List (Fin 10)} (h : IsWhole ds) {rest : Text}
    (ends : EndsDigits rest) :
    wholePart? (digitsText ds ++ rest) = some (digitsText ds, rest) := by
  obtain ⟨ne, leading⟩ := h
  cases ds with
  | nil => exact absurd rfl ne
  | cons d ds =>
      by_cases zero : d = 0
      · subst zero
        cases leading rfl
        rfl
      · have digit := isDigit_digitChar d
        have other : char d.val.digitChar ≠ char '0' := by
          have all : ∀ d : Fin 10, d ≠ 0 → char d.val.digitChar ≠ char '0' := by decide
          exact all d zero
        show wholePart? (char d.val.digitChar :: (digitsText ds ++ rest)) = _
        rw [wholePart?, if_pos digit]
        · exact congrArg some (span_digitsText (d :: ds) ends)
        · exact other

theorem exists_whole {whole : Text} (h : wholePart? cs = some (whole, left)) :
    ∃ ds, whole = digitsText ds ∧ IsWhole ds ∧ cs = digitsText ds ++ left := by
  unfold wholePart? at h
  split at h
  · cases h
    exact ⟨[0], rfl, ⟨List.cons_ne_nil _ _, fun _ => rfl⟩, rfl⟩
  · next c rest notZero =>
      split at h
      · next digit =>
          obtain ⟨ds, behind, span, split, ends⟩ := exists_digits (c :: rest)
          rw [span] at h
          cases h
          refine ⟨ds, rfl, ⟨?_, fun zero => ?_⟩, split⟩
          · rintro rfl
            have stops : c.isDigit = false := ends c (congrArg List.head? split.symm)
            rw [digit] at stops
            cases stops
          · cases ds with
            | nil => cases zero
            | cons d ds =>
                obtain rfl := Option.some.inj zero
                exact absurd (List.cons.inj split).1 notZero
      · cases h
  · cases h

/-- A part that may be missing is read up to the text, as what it stands for. -/
def ReadsPart {α : Type} (part? : Text → Option (α × Text)) (nothing : α) (part rest : Text)
    (found : α) : Prop :=
  (part? (part ++ rest)).getD (nothing, part ++ rest) = (found, rest) ∧
    ((part? (part ++ rest)).isNone = true ↔ part = [])

theorem readsPart_none {α : Type} {part? : Text → Option (α × Text)} {nothing : α} {rest : Text}
    (h : part? rest = none) : ReadsPart part? nothing [] rest nothing := by
  simp [ReadsPart, h]

theorem readsPart_some {α : Type} {part? : Text → Option (α × Text)} {nothing found : α}
    {part rest : Text} (h : part? (part ++ rest) = some (found, rest)) (filled : part ≠ []) :
    ReadsPart part? nothing part rest found := by
  simp [ReadsPart, h, filled]

theorem FractionText.reads {point rest : Text} {ds : List (Fin 10)} (h : FractionText point ds)
    (ends : EndsDigits rest) (noPoint : rest.head? ≠ some (char '.')) :
    ReadsPart fraction? [] point rest (digitsText ds) := by
  cases h with
  | none =>
      refine readsPart_none ?_
      rw [fraction?]
      rintro rest rfl
      exact noPoint rfl
  | point filled =>
      refine readsPart_some ?_ (List.cons_ne_nil _ _)
      rw [List.cons_append, fraction?, span_digitsText ds ends]
      simp [filled]

theorem exists_fraction (rest : Text) : ∃ point ds left, rest = point ++ left ∧
    FractionText point ds ∧ ReadsPart fraction? [] point left (digitsText ds) := by
  cases h : fraction? rest with
  | none => exact ⟨[], [], rest, rfl, .none, readsPart_none h⟩
  | some found =>
      unfold fraction? at h
      split at h
      · next rest =>
          obtain ⟨ds, left, span, rfl, ends⟩ := exists_digits rest
          rw [span] at h
          dsimp only at h
          split at h
          · cases h
          · next filled =>
              have filled : ds ≠ [] := by simpa using filled
              refine ⟨_, ds, left, rfl, .point filled, readsPart_some ?_ (List.cons_ne_nil _ _)⟩
              rw [List.cons_append, fraction?, span]
              simp [filled]
      · cases h

/-- The sign of an exponent and what follows it. -/
def exponentSign : Text → Bool × Text
  | char '-' :: rest => (true, rest)
  | char '+' :: rest => (false, rest)
  | rest => (false, rest)

theorem exponent?_cons (c : CodePoint) (rest : Text) : exponent? (c :: rest) =
    if c = char 'e' ∨ c = char 'E' then
      let (digits, left) := (exponentSign rest).2.span CodePoint.isDigit
      if digits.isEmpty then none
      else some (if (exponentSign rest).1 then -(digitsValue digits : Int)
        else digitsValue digits, left)
    else none := by
  unfold exponent? exponentSign
  rfl

theorem ExponentSign.reads {sign : Text} {negative : Bool} (h : ExponentSign sign negative)
    {ds : List (Fin 10)} (filled : ds ≠ []) (rest : Text) :
    exponentSign (sign ++ (digitsText ds ++ rest)) = (negative, digitsText ds ++ rest) := by
  cases h with
  | none =>
      obtain ⟨c, others, split, digit⟩ := head?_digitsText filled
      rw [List.nil_append, split, List.cons_append, exponentSign]
      · rintro _ ⟨⟩
        cases digit
      · rintro _ ⟨⟩
        cases digit
  | plus => rfl
  | minus => rfl

theorem exists_exponentSign (rest : Text) : ∃ sign, rest = sign ++ (exponentSign rest).2 ∧
    ExponentSign sign (exponentSign rest).1 := by
  fun_cases exponentSign rest with
  | case1 rest => exact ⟨[char '-'], rfl, .minus⟩
  | case2 rest => exact ⟨[char '+'], rfl, .plus⟩
  | case3 => exact ⟨[], rfl, .none⟩

theorem ExponentText.reads {exponent rest : Text} {power : Int} (h : ExponentText exponent power)
    (ends : EndsNumber rest) : ReadsPart exponent? 0 exponent rest power := by
  cases h with
  | none =>
      refine readsPart_none ?_
      cases rest with
      | nil => rfl
      | cons c rest =>
          obtain ⟨-, -, small, large⟩ := ends c rfl
          rw [exponent?_cons, if_neg (not_or.mpr ⟨small, large⟩)]
  | @letter p sign negative ds letter hs filled =>
      refine readsPart_some ?_ (List.cons_ne_nil _ _)
      rw [List.cons_append, List.append_assoc, exponent?_cons, if_pos letter, hs.reads filled]
      dsimp only
      rw [span_digitsText ds fun c first => (ends c first).1]
      simp [filled, signed, digitsValue_digitsText]

theorem exists_exponent (rest : Text) : ∃ exponent power left, rest = exponent ++ left ∧
    ExponentText exponent power ∧ ReadsPart exponent? 0 exponent left power := by
  cases h : exponent? rest with
  | none => exact ⟨[], 0, rest, rfl, .none, readsPart_none h⟩
  | some found =>
      cases rest with
      | nil => cases h
      | cons c rest =>
          obtain ⟨sign, split, hs⟩ := exists_exponentSign rest
          obtain ⟨ds, left, span, digits, ends⟩ := exists_digits (exponentSign rest).2
          have read := h
          rw [exponent?_cons, span] at h
          split at h
          · next letter =>
              dsimp only at h
              split at h
              · cases h
              · next filled =>
                  have filled : ds ≠ [] := by simpa using filled
                  have whole : c :: rest = c :: (sign ++ digitsText ds) ++ left := by
                    rw [List.cons_append, List.append_assoc, ← digits, ← split]
                  refine ⟨_, _, left, whole, .letter letter hs filled,
                    readsPart_some ?_ (List.cons_ne_nil _ _)⟩
                  rw [← whole, read, ← h, digitsValue_digitsText]
                  rfl
          · cases h

/-! ## Numbers -/

section Numbers

variable {negative : Bool} {sign point exponent rest : Text} {whole fraction : List (Fin 10)}
  {power : Int} {v : Value}

/-- What a number with these parts stands for: without fraction and exponent it is an integer. -/
def numeral (negative : Bool) (whole fraction : List (Fin 10)) (power : Int)
    (point exponent : Text) : Value :=
  if point = [] ∧ exponent = [] then .int (signed negative (digitsNumber whole))
  else .float (Decimal.Binary64.ofDecimal negative (digitsNumber (whole ++ fraction))
    (power - fraction.length))

theorem numberText_of_parts (hs : SignText sign negative) (hw : IsWhole whole)
    (hf : FractionText point fraction) (he : ExponentText exponent power) :
    NumberText (sign ++ (digitsText whole ++ (point ++ exponent)))
      (numeral negative whole fraction power point exponent) := by
  unfold numeral
  split
  · next none =>
      rw [none.1, none.2, List.append_nil, List.append_nil]
      exact .integer hs hw
  · next some => exact .decimal hs hw hf he (not_and_or.mp some)

theorem unsigned?_of_parts
    (hw : wholePart? cs = some (digitsText whole, point ++ (exponent ++ rest)))
    (hf : ReadsPart fraction? [] point (exponent ++ rest) (digitsText fraction))
    (he : ReadsPart exponent? 0 exponent rest power) : unsigned? negative cs =
      some (numeral negative whole fraction power point exponent, rest) := by
  rw [unsigned?, hw]
  simp only [Option.bind_eq_bind, Option.bind_some, hf.1, he.1, numeral, Bool.and_eq_true, hf.2,
    he.2, digitsValue_digitsText, ← digitsText_append]
  split
  · next none =>
      rw [none.1, none.2]
      rfl
  · rw [digitsText, List.length_map]
    rfl

/-- **What the grammar derives is read**, and the text ends where the number ends. -/
theorem number?_of_parts (hs : SignText sign negative) (hw : IsWhole whole)
    (hf : FractionText point fraction) (he : ExponentText exponent power)
    (ends : EndsNumber rest) :
    number? (sign ++ (digitsText whole ++ (point ++ exponent)) ++ rest) =
      some (numeral negative whole fraction power point exponent, rest) := by
  -- each part ends where the next one begins: an exponent with its letter, a fraction with its point
  have letterEnds : EndsDigits (exponent ++ rest) ∧ (exponent ++ rest).head? ≠ some (char '.') := by
    cases he with
    | none => exact ⟨fun c first => (ends c first).1, fun first => (ends _ first).2.1 rfl⟩
    | letter letter =>
        refine ⟨fun c first => ?_, fun first => ?_⟩
        · obtain rfl := Option.some.inj first
          rcases letter with rfl | rfl <;> rfl
        · obtain rfl := Option.some.inj first
          rcases letter with letter | letter <;> cases letter
  have pointEnds : EndsDigits (point ++ (exponent ++ rest)) := by
    cases hf with
    | none => exact letterEnds.1
    | point =>
        rintro _ ⟨⟩
        rfl
  have read := @unsigned?_of_parts _ negative point exponent rest whole fraction power
    (wholePart?_digitsText hw pointEnds) (hf.reads letterEnds.1 letterEnds.2) (he.reads ends)
  rw [List.append_assoc, List.append_assoc, List.append_assoc]
  cases hs with
  | minus => exact read
  | none =>
      obtain ⟨c, others, split, digit⟩ := head?_digitsText hw.1
      rw [List.nil_append, number?]
      · exact read
      · intro tail same
        rw [split] at same
        cases same
        cases digit

theorem NumberText.reads {text : Text} (h : NumberText text v) (ends : EndsNumber rest) :
    number? (text ++ rest) = some (v, rest) := by
  cases h with
  | @integer sign negative whole hs hw =>
      have read := number?_of_parts hs hw .none .none ends
      rwa [List.append_nil, List.append_nil] at read
  | @decimal sign point exponent negative whole fraction power hs hw hf he some =>
      have read := number?_of_parts hs hw hf he ends
      rwa [numeral, if_neg (not_and_or.mpr some)] at read

theorem exists_parts (h : unsigned? negative cs = some (v, left)) :
    ∃ whole point fraction exponent power, cs = digitsText whole ++ (point ++ exponent) ++ left ∧
      IsWhole whole ∧ FractionText point fraction ∧ ExponentText exponent power ∧
        v = numeral negative whole fraction power point exponent := by
  cases hwhole : wholePart? cs with
  | none => simp [unsigned?, hwhole] at h
  | some part =>
      obtain ⟨_, rest⟩ := part
      obtain ⟨whole, rfl, hw, rfl⟩ := exists_whole hwhole
      obtain ⟨point, fraction, rest, rfl, hf, readsFraction⟩ := exists_fraction rest
      obtain ⟨exponent, power, rest, rfl, he, readsExponent⟩ := exists_exponent rest
      rw [unsigned?_of_parts hwhole readsFraction readsExponent] at h
      cases h
      exact ⟨whole, point, fraction, exponent, power, by simp, hw, hf, he, rfl⟩

/-- **What is read the grammar derives.** -/
theorem exists_numberText (h : number? cs = some (v, left)) :
    ∃ text, cs = text ++ left ∧ NumberText text v := by
  unfold number? at h
  split at h
  · obtain ⟨whole, point, fraction, exponent, power, rfl, hw, hf, he, rfl⟩ := exists_parts h
    exact ⟨_, rfl, numberText_of_parts .minus hw hf he⟩
  · obtain ⟨whole, point, fraction, exponent, power, rfl, hw, hf, he, rfl⟩ := exists_parts h
    exact ⟨_, rfl, numberText_of_parts .none hw hf he⟩

end Numbers

/-! ## Scalars -/

/-- **Scalars** are read where the grammar derives them, in front of whatever a value may be
followed by. -/
theorem ScalarText.reads {text rest : Text} {v : Value} (h : ScalarText text v)
    (ends : Delimits rest) : ScalarRead (text ++ rest) v rest := by
  cases h with
  | string h =>
      exact .string (readString_eq_ok_iff.mpr ⟨_, List.append_assoc _ _ _, h⟩)
  | word mem => exact .word mem
  | number h => exact .number (h.reads ends.endsNumber)

theorem ScalarRead.exists_text {v : Value} (h : ScalarRead cs v left) :
    ∃ text, cs = text ++ left ∧ ScalarText text v := by
  cases h with
  | string read =>
      obtain ⟨body, rfl, h⟩ := readString_eq_ok_iff.mp read
      exact ⟨_, by simp, .string h⟩
  | word mem => exact ⟨_, rfl, .word mem⟩
  | number read =>
      obtain ⟨text, rfl, h⟩ := exists_numberText read
      exact ⟨text, rfl, .number h⟩

end HostGlue.Json

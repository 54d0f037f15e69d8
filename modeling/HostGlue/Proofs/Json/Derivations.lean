import HostGlue.Proofs.Json.Lexemes

/-!
# The reader follows the grammar

The reader accepts a text exactly if the grammar derives it, and the value it reads is the one that
the grammar gives: `read_asWritten_iff`.

Both directions go by induction on the fuel. In `Follows` a derivation is taken apart from the left,
with a text behind it that may follow a value; in `Derives` a text is put together from what the
calls of the reader have used up.
-/

namespace HostGlue.Json

open CodePoint

/-! ## Blanks -/

variable {cs left rest : Text}

theorem blanks_iff : Blanks cs ↔ ∀ p ∈ cs, isBlank p = true := by
  simp [Blanks, isBlank_iff]

theorem Blanks.isBlank (h : Blanks cs) : ∀ p ∈ cs, Json.isBlank p = true := blanks_iff.mp h

/-- What the reader skips is blank. -/
theorem exists_skipBlanks (cs : Text) : ∃ blanks, Blanks blanks ∧
    cs = blanks ++ skipBlanks cs :=
  ⟨cs.takeWhile isBlank, blanks_iff.mpr fun _ mem => List.mem_takeWhile_imp mem,
    List.takeWhile_append_dropWhile.symm⟩

theorem delimits_append {blanks : Text} (h : Blanks blanks) (behind : Delimits rest) :
    Delimits (blanks ++ rest) := by
  cases blanks with
  | nil => exact behind
  | cons c blanks => exact delimits_cons.mpr (.inl (h.isBlank c List.mem_cons_self))

/-! ## First characters -/

/-- A scalar begins neither with a blank nor with an opening bracket. -/
theorem ScalarRead.first {v : Value} (h : ScalarRead cs v left) : ∃ c rest, cs = c :: rest ∧
    isBlank c = false ∧ c ≠ '\uFEFF' ∧ c ≠ '[' ∧ c ≠ '\x7b' := by
  cases h with
  | string => exact ⟨_, _, rfl, by decide⟩
  | word mem =>
      simp only [words, List.mem_cons, Prod.mk.injEq, List.not_mem_nil, or_false] at mem
      rcases mem with ⟨rfl, -⟩ | ⟨rfl, -⟩ | ⟨rfl, -⟩ | ⟨rfl, -⟩ | ⟨rfl, -⟩ | ⟨rfl, -⟩
      all_goals exact ⟨_, _, rfl, by decide⟩
  | number number =>
      obtain ⟨c, rest, digit, rfl | rfl⟩ := exists_digit number
      · obtain ⟨d, rfl⟩ := exists_digit_of_isDigit digit
        have all : ∀ d : Fin 10, isBlank (char d.val.digitChar) = false ∧
            char d.val.digitChar ≠ '\uFEFF' ∧ char d.val.digitChar ≠ '[' ∧
              char d.val.digitChar ≠ '\x7b' := by decide
        exact ⟨_, rest, rfl, all d⟩
      · exact ⟨_, _, rfl, by decide⟩

theorem ScalarRead.not_opens {v : Value} (h : ScalarRead cs v left) : ¬ Opens cs := by
  obtain ⟨c, rest, rfl, -, -, bracket, brace⟩ := h.first
  rintro ⟨tail, same | same⟩
  · exact bracket (List.cons.inj same).1
  · exact brace (List.cons.inj same).1

/-- A scalar that the grammar derives is read where the text ends. -/
theorem ScalarText.read {text : Text} {v : Value} (h : ScalarText text v) :
    ScalarRead text v [] := by
  have read := h.reads delimits_nil
  rwa [List.append_nil] at read

theorem ValueText.first {text : Text} {v : Value} (h : ValueText text v) :
    ∃ c rest, text = c :: rest ∧ isBlank c = false ∧ c ≠ '\uFEFF' := by
  cases h with
  | scalar h =>
      obtain ⟨c, rest, split, blank, mark, -⟩ := h.read.first
      exact ⟨c, rest, split, blank, mark⟩
  | emptyList | list | emptyObject | object => exact ⟨_, _, rfl, by decide⟩

/-! ## What the grammar derives is read -/

theorem ValueText.skipBlanks_append {before text : Text} {v : Value} (hb : Blanks before)
    (h : ValueText text v) (rest : Text) :
    skipBlanks (before ++ (text ++ rest)) = text ++ rest := by
  obtain ⟨c, tail, rfl, blank, -⟩ := h.first
  rw [Json.skipBlanks_append hb.isBlank]
  exact skipBlanks_of_not_blank blank

theorem skipBlanks_delimiter {blanks : Text} (h : Blanks blanks) {c : CodePoint}
    (plain : isBlank c = false) : skipBlanks (blanks ++ c :: rest) = c :: rest := by
  rw [skipBlanks_append h.isBlank]
  exact skipBlanks_of_not_blank plain

theorem NameText.read {named name : Text} (h : NameText named name) (rest : Text) :
    ∃ body left, skipBlanks (named ++ rest) = char '"' :: body ∧
      readString body = .ok (name, left) ∧ skipBlanks left = skipBlanks rest := by
  obtain @⟨before, body, after, _, hb, h, ha⟩ := h
  refine ⟨body ++ char '"' :: (after ++ rest), after ++ rest, ?_,
    readString_eq_ok_iff.mpr ⟨body, rfl, h⟩, skipBlanks_append ha.isBlank⟩
  rw [List.append_assoc, List.cons_append, List.append_assoc, List.cons_append]
  exact skipBlanks_delimiter hb rfl

/-- With the given fuel the reader follows every derivation that is not longer. -/
structure Follows (fuel : Nat) : Prop where
  value : ∀ text v rest, ValueText text v → text.length ≤ fuel → Delimits rest →
    readValue asWritten fuel (text ++ rest) = .ok (v, rest)
  items : ∀ text items rest, ItemsText text items → text.length < fuel →
    readItems asWritten fuel (skipBlanks (text ++ char ']' :: rest)) = .ok (items, rest)
  members : ∀ text members rest, MembersText text members → text.length < fuel →
    readMembers asWritten fuel (skipBlanks (text ++ char '\x7d' :: rest)) = .ok (members, rest)

namespace Follows

variable {fuel : Nat} (h : Follows fuel) {text : Text}

include h

/-- A value with blanks around it is read, up to the blanks behind it. -/
theorem jsonText {v : Value} (derived : JsonText text v) (enough : text.length ≤ fuel)
    (rest : Text) (behind : Delimits rest) : ∃ left,
      readValue asWritten fuel (skipBlanks (text ++ rest)) = .ok (v, left) ∧
        skipBlanks left = skipBlanks rest := by
  obtain @⟨before, text, after, _, hb, derived, ha⟩ := derived
  refine ⟨after ++ rest, ?_, skipBlanks_append ha.isBlank⟩
  rw [List.append_assoc, List.append_assoc, derived.skipBlanks_append hb]
  refine h.value _ _ _ derived ?_ (delimits_append ha behind)
  simp only [List.length_append] at enough
  omega

theorem value_succ {v : Value} (derived : ValueText text v) (enough : text.length ≤ fuel + 1)
    (behind : Delimits rest) : readValue asWritten (fuel + 1) (text ++ rest) = .ok (v, rest) := by
  cases derived with
  | scalar scalar =>
      have read := scalar.reads behind
      exact (readValue_eq_ok_iff read.not_opens).mpr read
  | emptyList blanks =>
      rw [List.cons_append, ← List.append_cons]
      exact readValue_bracket_eq_ok_iff.mpr
        ⟨[], rfl, .inl ⟨skipBlanks_delimiter blanks rfl, rfl⟩⟩
  | @list text items derived =>
      have shorter : text.length + 1 ≤ fuel := by simpa using enough
      rw [List.cons_append, ← List.append_cons]
      exact readValue_bracket_eq_ok_iff.mpr
        ⟨items, rfl, .inr (h.items text items rest derived shorter)⟩
  | emptyObject blanks =>
      rw [List.cons_append, ← List.append_cons]
      exact readValue_brace_eq_ok_iff.mpr
        ⟨[], [], rfl, rfl, .inl ⟨skipBlanks_delimiter blanks rfl, rfl⟩⟩
  | @object text members derived =>
      have shorter : text.length + 1 ≤ fuel := by simpa using enough
      rw [List.cons_append, ← List.append_cons]
      exact readValue_brace_eq_ok_iff.mpr
        ⟨members, members, rfl, rfl, .inr (h.members text members rest derived shorter)⟩

theorem items_succ {items : List Value} (derived : ItemsText text items)
    (enough : text.length < fuel + 1) :
    readItems asWritten (fuel + 1) (skipBlanks (text ++ char ']' :: rest)) = .ok (items, rest) := by
  cases derived with
  | @last _ v derived =>
      obtain ⟨left, read, closed⟩ :=
        h.jsonText derived (Nat.le_of_lt_succ enough) (char ']' :: rest) (by simp [delimits_cons])
      exact readItems_eq_ok_iff.mpr ⟨v, left, read, .inl ⟨closed, rfl⟩⟩
  | @cons text texts v items derived others =>
      rw [List.length_append, List.length_cons] at enough
      obtain ⟨left, read, comma⟩ :=
        h.jsonText derived (by omega) (char ',' :: (texts ++ char ']' :: rest))
        (by simp [delimits_cons])
      rw [List.append_assoc, List.cons_append]
      have more := h.items texts items rest others (by omega)
      exact readItems_eq_ok_iff.mpr ⟨v, left, read, .inr ⟨_, items, comma, more, rfl⟩⟩

theorem members_succ {members : Members} (derived : MembersText text members)
    (enough : text.length < fuel + 1) : readMembers asWritten (fuel + 1)
      (skipBlanks (text ++ char '\x7d' :: rest)) = .ok (members, rest) := by
  cases derived with
  | @last named text name v hn derived =>
      rw [List.length_append, List.length_cons] at enough
      obtain ⟨body, behind, quote, reads, colon⟩ :=
        hn.read (char ':' :: (text ++ char '\x7d' :: rest))
      obtain ⟨left, value, closed⟩ := h.jsonText derived (by omega) (char '\x7d' :: rest)
        (by simp [delimits_cons])
      rw [List.append_assoc, List.cons_append]
      refine readMembers_eq_ok_iff.mpr
        ⟨body, name, behind, _, v, left, quote, reads, colon, value, ?_⟩
      exact behindMember_eq_ok_iff.mpr (.inl ⟨closed, rfl⟩)
  | @cons named text texts name v members hn derived others =>
      rw [List.length_append, List.length_cons, List.length_append, List.length_cons] at enough
      obtain ⟨body, behind, quote, reads, colon⟩ :=
        hn.read (char ':' :: (text ++ char ',' :: (texts ++ char '\x7d' :: rest)))
      obtain ⟨left, value, comma⟩ := h.jsonText derived (by omega)
        (char ',' :: (texts ++ char '\x7d' :: rest)) (by simp [delimits_cons])
      have more := h.members texts members rest others (by omega)
      rw [List.append_assoc, List.cons_append, List.append_assoc, List.cons_append]
      refine readMembers_eq_ok_iff.mpr
        ⟨body, name, behind, _, v, left, quote, reads, colon, value, ?_⟩
      exact behindMember_eq_ok_iff.mpr (.inr ⟨_, members, comma, more, rfl⟩)

end Follows

theorem follows (fuel : Nat) : Follows fuel := by
  induction fuel with
  | zero =>
      refine ⟨fun text v rest derived enough => ?_, nofun, nofun⟩
      obtain ⟨c, tail, rfl, -⟩ := derived.first
      exact absurd enough (Nat.not_succ_le_zero _)
  | succ fuel ih =>
      exact ⟨fun _ _ _ => ih.value_succ, fun _ _ _ => ih.items_succ, fun _ _ _ => ih.members_succ⟩

/-! ## What is read the grammar derives -/

theorem exists_nameText {body text name : Text} (quote : skipBlanks cs = char '"' :: body)
    (read : readString body = .ok (name, rest)) (colon : skipBlanks rest = char ':' :: text) :
    ∃ named, cs = named ++ char ':' :: text ∧ NameText named name := by
  obtain ⟨before, hb, split⟩ := exists_skipBlanks cs
  obtain ⟨after, ha, ends⟩ := exists_skipBlanks rest
  obtain ⟨inner, rfl, h⟩ := readString_eq_ok_iff.mp read
  refine ⟨_, ?_, hb, h, ha⟩
  rw [split, quote, ends, colon]
  simp

/-- What is read with the given fuel has used up a text that the grammar derives. -/
structure Derives (fuel : Nat) : Prop where
  value : ∀ cs v left, readValue asWritten fuel cs = .ok (v, left) →
    ∃ text, cs = text ++ left ∧ ValueText text v
  items : ∀ cs items left, readItems asWritten fuel (skipBlanks cs) = .ok (items, left) →
    ∃ text, cs = text ++ char ']' :: left ∧ ItemsText text items
  members : ∀ cs members left, readMembers asWritten fuel (skipBlanks cs) = .ok (members, left) →
    ∃ text, cs = text ++ char '\x7d' :: left ∧ MembersText text members

namespace Derives

variable {fuel : Nat} (h : Derives fuel)

include h

/-- The blanks around a value belong to its text. -/
theorem jsonText {c : CodePoint} {v : Value}
    (read : readValue asWritten fuel (skipBlanks cs) = .ok (v, left))
    (behind : skipBlanks left = c :: rest) : ∃ text, cs = text ++ c :: rest ∧ JsonText text v := by
  obtain ⟨before, hb, split⟩ := exists_skipBlanks cs
  obtain ⟨after, ha, ends⟩ := exists_skipBlanks left
  obtain ⟨text, used, derived⟩ := h.value _ v left read
  refine ⟨before ++ (text ++ after), ?_, hb, derived, ha⟩
  rw [split, used, ends, behind]
  simp

theorem list {v : Value}
    (read : readValue asWritten (fuel + 1) (char '[' :: rest) = .ok (v, left)) :
    ∃ text, char '[' :: rest = text ++ left ∧ ValueText text v := by
  obtain ⟨items, rfl, ⟨closed, rfl⟩ | read⟩ := readValue_bracket_eq_ok_iff.mp read
  · obtain ⟨blanks, hb, split⟩ := exists_skipBlanks rest
    refine ⟨_, ?_, .emptyList hb⟩
    rw [split, closed]
    simp
  · obtain ⟨text, rfl, derived⟩ := h.items _ items left read
    exact ⟨_, by simp, .list derived⟩

theorem object {v : Value}
    (read : readValue asWritten (fuel + 1) (char '\x7b' :: rest) = .ok (v, left)) :
    ∃ text, char '\x7b' :: rest = text ++ left ∧ ValueText text v := by
  obtain ⟨members, kept, closes, rfl, found⟩ := readValue_brace_eq_ok_iff.mp read
  obtain rfl : members = kept := Except.ok.inj closes
  obtain ⟨closed, rfl⟩ | read := found
  · obtain ⟨blanks, hb, split⟩ := exists_skipBlanks rest
    refine ⟨_, ?_, .emptyObject hb⟩
    rw [split, closed]
    simp
  · obtain ⟨text, rfl, derived⟩ := h.members _ members left read
    exact ⟨_, by simp, .object derived⟩

theorem value_succ {v : Value} (read : readValue asWritten (fuel + 1) cs = .ok (v, left)) :
    ∃ text, cs = text ++ left ∧ ValueText text v := by
  by_cases opens : Opens cs
  · obtain ⟨rest, rfl | rfl⟩ := opens
    · exact h.list read
    · exact h.object read
  · obtain ⟨text, split, scalar⟩ := ((readValue_eq_ok_iff opens).mp read).exists_text
    exact ⟨text, split, .scalar scalar⟩

theorem items_succ {items : List Value}
    (read : readItems asWritten (fuel + 1) (skipBlanks cs) = .ok (items, left)) :
    ∃ text, cs = text ++ char ']' :: left ∧ ItemsText text items := by
  obtain ⟨v, behind, value, h'⟩ := readItems_eq_ok_iff.mp read
  obtain ⟨closed, rfl⟩ | ⟨rest, others, comma, more, rfl⟩ := h'
  · obtain ⟨text, split, derived⟩ := h.jsonText value closed
    exact ⟨text, split, .last derived⟩
  · obtain ⟨text, split, derived⟩ := h.jsonText value comma
    obtain ⟨texts, split', derived'⟩ := h.items _ others left more
    refine ⟨text ++ char ',' :: texts, ?_, .cons derived derived'⟩
    rw [split, split']
    simp

theorem members_succ {members : Members}
    (read : readMembers asWritten (fuel + 1) (skipBlanks cs) = .ok (members, left)) :
    ∃ text, cs = text ++ char '\x7d' :: left ∧ MembersText text members := by
  obtain ⟨body, name, rest, text, v, behind, quote, reads, colon, value, ends⟩ :=
    readMembers_eq_ok_iff.mp read
  obtain ⟨named, split, hn⟩ := exists_nameText quote reads colon
  obtain ⟨closed, rfl⟩ | ⟨rest, others, comma, more, rfl⟩ := behindMember_eq_ok_iff.mp ends
  · obtain ⟨text, rfl, derived⟩ := h.jsonText value closed
    exact ⟨named ++ char ':' :: text, by simp [split], .last hn derived⟩
  · obtain ⟨text, rfl, derived⟩ := h.jsonText value comma
    obtain ⟨texts, rfl, derived'⟩ := h.members _ others left more
    exact ⟨named ++ char ':' :: (text ++ char ',' :: texts), by simp [split],
      .cons hn derived derived'⟩

end Derives

theorem derives (fuel : Nat) : Derives fuel := by
  induction fuel with
  | zero => constructor <;> simp [readValue, readItems, readMembers]
  | succ fuel ih =>
      exact ⟨fun _ _ _ => ih.value_succ, fun _ _ _ => ih.items_succ, fun _ _ _ => ih.members_succ⟩

/-! ## The whole text -/

theorem JsonText.head?_ne_mark {v : Value} (h : JsonText cs v) :
    cs.head? ≠ some (char '\uFEFF') := by
  obtain @⟨before, text, after, _, hb, derived, ha⟩ := h
  cases before with
  | nil =>
      obtain ⟨c, tail, rfl, -, other⟩ := derived.first
      exact fun same => other (Option.some.inj same)
  | cons c before =>
      rintro ⟨⟩
      exact absurd (hb.isBlank _ List.mem_cons_self) (by decide)

theorem readText_eq_ok_iff {v : Value} : readText asWritten cs = .ok v ↔ JsonText cs v := by
  unfold readText
  constructor
  · intro read
    split at read
    · cases read
    obtain ⟨⟨v, left⟩, value, read⟩ := except_bind_eq_ok.mp read
    dsimp only at read
    split at read
    · next ends =>
        cases read
        obtain ⟨before, hb, split⟩ := exists_skipBlanks cs
        obtain ⟨after, ha, split'⟩ := exists_skipBlanks left
        obtain ⟨text, used, derived⟩ := (derives _).value _ v left value
        rw [ends, List.append_nil] at split'
        subst split'
        rw [split, used]
        exact ⟨hb, derived, ha⟩
    · cases read
  · intro derived
    rw [if_neg derived.head?_ne_mark]
    obtain @⟨before, text, after, _, hb, derived, ha⟩ := derived
    -- the fuel is measured behind the blanks in front, so the value is read there
    have start : skipBlanks (before ++ (text ++ after)) = text ++ after :=
      derived.skipBlanks_append hb after
    have ends : Delimits after := by
      simpa using delimits_append ha delimits_nil
    have bound : text.length ≤ enough (text ++ after) := by
      rw [enough, List.length_append]
      omega
    have value := (follows _).value text v after derived bound ends
    have blank : skipBlanks after = [] := List.dropWhile_eq_nil_iff.mpr ha.isBlank
    rw [start]
    refine except_bind_eq_ok.mpr ⟨(v, after), value, ?_⟩
    dsimp only
    rw [blank]
    rfl

/-- **The reader accepts exactly the texts of the grammar**, and reads the value that the grammar
gives. -/
theorem read_asWritten_iff {text : Text} {v : Value} :
    Json.read asWritten text = .ok v ↔ JsonText text v := by
  rw [Json.read, except_mapError_eq_ok, readText_eq_ok_iff]

end HostGlue.Json

import HostGlue.Proofs.Except
import HostGlue.Proofs.Json.Grammar
import HostGlue.Proofs.Json.Objects

/-!
# What the reader reads

A call of the reader that succeeds has read a scalar, an empty list or object, or a list or object
whose entries were read by the calls below. The lemmas say so as equivalences, for every closing
rule, so that laws of the reader go by induction on the fuel without a look at its text again.
-/

namespace HostGlue.Json

open CodePoint

variable {rule : ClosingRule} {fuel : Nat} {cs left rest : Text}

/-! ## Scalars -/

/-- A scalar is read: a string, a word or a number. -/
inductive ScalarRead : Text → Value → Text → Prop
  | string {rest left : Text} {s : Text} (h : readString rest = .ok (s, left)) :
      ScalarRead (char '"' :: rest) (.str s) left
  | word {word rest : Text} {v : Value} (h : (word, v) ∈ words) :
      ScalarRead (word ++ rest) v rest
  | number {cs left : Text} {v : Value} (h : number? cs = some (v, left)) :
      ScalarRead cs v left

/-- A number begins with a digit, or with a sign and a digit. -/
theorem exists_digit {v : Value} (h : number? cs = some (v, left)) :
    ∃ c rest, c.isDigit = true ∧ (cs = c :: rest ∨ cs = char '-' :: c :: rest) := by
  have digit {negative : Bool} {cs : Text} (h : unsigned? negative cs = some (v, left)) :
      ∃ c rest, c.isDigit = true ∧ cs = c :: rest := by
    cases whole : wholePart? cs with
    | none => simp [unsigned?, whole] at h
    | some part =>
        unfold wholePart? at whole
        split at whole
        · exact ⟨'0', _, rfl, rfl⟩
        · next c rest _ =>
            split at whole
            · exact ⟨c, rest, ‹_›, rfl⟩
            · cases whole
        · cases whole
  unfold number? at h
  split at h
  · obtain ⟨c, rest, isDigit, rfl⟩ := digit h
    exact ⟨c, rest, isDigit, .inr rfl⟩
  · obtain ⟨c, rest, isDigit, rfl⟩ := digit h
    exact ⟨c, rest, isDigit, .inl rfl⟩

/-- The text opens a list or an object. -/
def Opens (cs : Text) : Prop := ∃ rest, cs = char '[' :: rest ∨ cs = char '\x7b' :: rest

theorem readValue_word {word : Text} {v : Value} (h : (word, v) ∈ words) :
    readValue rule (fuel + 1) (word ++ rest) = .ok (v, rest) := by
  simp only [words, List.mem_cons, Prod.mk.injEq, List.not_mem_nil, or_false] at h
  rcases h with ⟨rfl, rfl⟩ | ⟨rfl, rfl⟩ | ⟨rfl, rfl⟩ | ⟨rfl, rfl⟩ | ⟨rfl, rfl⟩ | ⟨rfl, rfl⟩
  all_goals rfl

/-- What begins like nothing else is read as a number. -/
theorem readValue_other (opens : ¬ Opens cs) (quote : ∀ rest, cs ≠ char '"' :: rest)
    (word : ∀ w ∈ words, ∀ rest, cs ≠ w.1 ++ rest) :
    readValue rule (fuel + 1) cs =
      (number? cs).elim (.error (.malformed .noValue cs.length)) .ok := by
  simp only [words, List.forall_mem_cons] at word
  obtain ⟨null, true_, false_, nan, infinity, negative, -⟩ := word
  rw [readValue]
  · cases number? cs <;> rfl
  · exact quote
  · exact fun rest same => opens ⟨rest, .inr same⟩
  · exact fun rest same => opens ⟨rest, .inl same⟩
  · exact null
  · exact true_
  · exact false_
  · exact nan
  · exact infinity
  · exact negative

/-- What begins like a number begins like nothing else. -/
theorem begins_as_number {c : CodePoint} (digit : c.isDigit = true)
    (begins : cs = c :: rest ∨ cs = char '-' :: c :: rest) :
    (∀ rest, cs ≠ char '"' :: rest) ∧ ∀ w ∈ words, ∀ rest, cs ≠ w.1 ++ rest := by
  simp only [words, List.forall_mem_cons]
  rcases begins with rfl | rfl
  · refine ⟨?_, ?_, ?_, ?_, ?_, ?_, ?_, nofun⟩
    all_goals
      rintro rest ⟨⟩
      exact absurd digit (by decide)
  · refine ⟨nofun, nofun, nofun, nofun, nofun, nofun, ?_, nofun⟩
    rintro rest ⟨⟩
    exact absurd digit (by decide)

/-- **Scalars.** What opens neither a list nor an object is read as one. -/
theorem readValue_eq_ok_iff {v : Value} (opens : ¬ Opens cs) :
    readValue rule (fuel + 1) cs = .ok (v, left) ↔ ScalarRead cs v left := by
  constructor
  · intro read
    by_cases quote : ∃ rest, cs = char '"' :: rest
    · obtain ⟨rest, rfl⟩ := quote
      rw [readValue_quote] at read
      obtain ⟨⟨s, left⟩, string, ⟨⟩⟩ := except_bind_eq_ok.mp read
      exact .string string
    by_cases word : ∃ w ∈ words, ∃ rest, cs = w.1 ++ rest
    · obtain ⟨w, mem, rest, rfl⟩ := word
      rw [readValue_word mem] at read
      cases read
      exact .word mem
    · push Not at quote word
      rw [readValue_other opens quote word] at read
      cases number : number? cs with
      | none =>
          rw [number] at read
          cases read
      | some found =>
          rw [number] at read
          cases read
          exact .number number
  · rintro (string | mem | number)
    · rw [readValue_quote, string]
      rfl
    · exact readValue_word mem
    · obtain ⟨c, rest, digit, begins⟩ := exists_digit number
      obtain ⟨quote, word⟩ := begins_as_number digit begins
      rw [readValue_other opens quote word, number]
      rfl

/-! ## Lists and objects -/

/-- No entry begins with the bracket that closes a list. -/
theorem readItems_bracket_ne_ok {r : List Value × Text} :
    readItems rule fuel (char ']' :: cs) ≠ .ok r := by
  cases fuel with
  | zero => nofun
  | succ fuel => cases fuel <;> nofun

/-- No member begins with the brace that closes an object. -/
theorem readMembers_brace_ne_ok {r : Members × Text} :
    readMembers rule fuel (char '\x7d' :: cs) ≠ .ok r := by
  cases fuel <;> nofun

theorem readValue_bracket : readValue rule (fuel + 1) (char '[' :: rest) =
    match skipBlanks rest with
    | char ']' :: left => .ok (.arr [], left)
    | start => readItems rule fuel start >>= fun (items, left) => .ok (.arr items, left) := rfl

/-- **Lists.** The bracket follows at once, or the items are read up to it. -/
theorem readValue_bracket_eq_ok_iff {v : Value} :
    readValue rule (fuel + 1) (char '[' :: rest) = .ok (v, left) ↔
      ∃ items, v = .arr items ∧
        (skipBlanks rest = char ']' :: left ∧ items = [] ∨
          readItems rule fuel (skipBlanks rest) = .ok (items, left)) := by
  rw [readValue_bracket]
  split
  · next behind empty =>
      rw [empty]
      simp [readItems_bracket_ne_ok, eq_comm (a := v), and_comm]
  · next start filled =>
      have absent : skipBlanks rest ≠ char ']' :: left := filled left
      simp [absent, eq_comm (a := v), and_comm]

/-- **Objects.** The brace follows at once, or the members are read up to it; the rule closes the
object in either case. -/
theorem readValue_brace_eq_ok_iff {v : Value} :
    readValue rule (fuel + 1) (char '\x7b' :: rest) = .ok (v, left) ↔
      ∃ members kept, rule members = .ok kept ∧ v = .obj kept ∧
        (skipBlanks rest = char '\x7d' :: left ∧ members = [] ∨
          readMembers rule fuel (skipBlanks rest) = .ok (members, left)) := by
  have close {members : Members} {behind : Text} :
      closeObject rule members behind = .ok (v, left) ↔
        ∃ kept, rule members = .ok kept ∧ v = .obj kept ∧ behind = left := by
    unfold closeObject
    cases rule members <;> simp [eq_comm]
  rw [readValue_brace]
  split
  · next behind empty =>
      rw [empty, close]
      simp only [readMembers_brace_ne_ok, or_false, List.cons.injEq, true_and]
      constructor
      · rintro ⟨kept, closes, rfl, rfl⟩
        exact ⟨[], kept, closes, rfl, rfl, rfl⟩
      · rintro ⟨members, kept, closes, rfl, rfl, rfl⟩
        exact ⟨kept, closes, rfl, rfl⟩
  · next start filled =>
      show (readMembers rule fuel _ >>= _) = _ ↔ _
      simp only [except_bind_eq_ok, Prod.exists, close]
      constructor
      · rintro ⟨members, behind, read, kept, closes, rfl, rfl⟩
        exact ⟨members, kept, closes, rfl, .inr read⟩
      · rintro ⟨members, kept, closes, rfl, ⟨empty, -⟩ | read⟩
        · exact absurd empty (filled _)
        · exact ⟨members, left, read, kept, closes, rfl, rfl⟩

/-- **Items.** A bracket or a comma follows each. -/
theorem readItems_eq_ok_iff {vs : List Value} :
    readItems rule (fuel + 1) cs = .ok (vs, left) ↔
      ∃ v behind, readValue rule fuel cs = .ok (v, behind) ∧
        (skipBlanks behind = char ']' :: left ∧ vs = [v] ∨
          ∃ rest others, skipBlanks behind = char ',' :: rest ∧
            readItems rule fuel (skipBlanks rest) = .ok (others, left) ∧ vs = v :: others) := by
  rw [readItems, except_bind_eq_ok]
  constructor
  · rintro ⟨⟨v, behind⟩, read, h⟩
    refine ⟨v, behind, read, ?_⟩
    dsimp only at h
    split at h
    · next rest closed =>
        cases h
        exact .inl ⟨closed, rfl⟩
    · next rest comma =>
        simp only [except_bind_eq_ok, except_pure_eq_ok] at h
        obtain ⟨⟨others, _⟩, hothers, ⟨⟩⟩ := h
        exact .inr ⟨rest, others, comma, hothers, rfl⟩
    · cases h
  · rintro ⟨v, behind, read, ⟨closed, rfl⟩ | ⟨rest, others, comma, hothers, rfl⟩⟩
    · refine ⟨(v, behind), read, ?_⟩
      dsimp only
      rw [closed]
      rfl
    · refine ⟨(v, behind), read, ?_⟩
      dsimp only
      simp only [comma, hothers]
      rfl

theorem behindMember_eq_ok_iff {m : Text × Value} {behind : Text} {ms : Members} :
    behindMember rule fuel m behind = .ok (ms, left) ↔
      skipBlanks behind = char '\x7d' :: left ∧ ms = [m] ∨
        ∃ rest others, skipBlanks behind = char ',' :: rest ∧
          readMembers rule fuel (skipBlanks rest) = .ok (others, left) ∧ ms = m :: others := by
  unfold behindMember
  split
  · next rest closed => simp [closed, eq_comm, and_comm]
  · next rest comma =>
      show (readMembers rule fuel _ >>= _) = _ ↔ _
      simp [comma, eq_comm (a := ms), and_comm]
  · next other noBrace noComma =>
      refine iff_of_false nofun ?_
      rintro (⟨closed, -⟩ | ⟨rest, others, comma, -⟩)
      · exact noBrace left closed
      · exact noComma rest comma

/-- **Members.** A name, a colon and a value; a brace or a comma follows each. -/
theorem readMembers_eq_ok_iff {ms : Members} :
    readMembers rule (fuel + 1) cs = .ok (ms, left) ↔
      ∃ body name rest text v behind, cs = char '"' :: body ∧ readString body = .ok (name, rest) ∧
        skipBlanks rest = char ':' :: text ∧
        readValue rule fuel (skipBlanks text) = .ok (v, behind) ∧
        behindMember rule fuel (name, v) behind = .ok (ms, left) := by
  constructor
  · intro h
    by_cases quoted : ∃ body, cs = char '"' :: body
    · obtain ⟨body, rfl⟩ := quoted
      rw [readMembers_quote] at h
      obtain ⟨⟨name, rest⟩, read, h⟩ := except_bind_eq_ok.mp h
      dsimp only at h
      split at h
      · next text colon =>
          obtain ⟨⟨v, behind⟩, value, h⟩ := except_bind_eq_ok.mp h
          exact ⟨body, name, rest, text, v, behind, rfl, read, colon, value, h⟩
      · cases h
    · rw [readMembers] at h
      · cases h
      · exact fun body same => quoted ⟨body, same⟩
  · rintro ⟨body, name, rest, text, v, behind, rfl, read, colon, value, h⟩
    rw [readMembers_quote]
    refine except_bind_eq_ok.mpr ⟨(name, rest), read, ?_⟩
    simp only [colon]
    exact except_bind_eq_ok.mpr ⟨(v, behind), value, h⟩

end HostGlue.Json

import HostGlue.Proofs.Json.Strings
import Mathlib.Data.List.Forall2

/-!
# Canonical texts are read back

What the writer lays out over several lines the reader takes up again: the name behind the margin,
the value behind the colon, the next member behind the comma or the end at the brace. `ReadsAs` is
what a value's text has to keep for this, and objects keep it if the texts of their members do.

What becomes of the members is up to the closing rule; a rule is `Faithful` if it leaves members
with distinct names as they are.
-/

namespace HostGlue.Json

open Canonical CodePoint

variable {rule : ClosingRule}

/-! ## Steps of the reader -/

/-- The object that the rule makes of members, and the text behind it. -/
def closeObject (rule : ClosingRule) (members : Members) (left : Text) :
    Except Stop (Value × Text) :=
  match rule members with
  | .ok kept => .ok (.obj kept, left)
  | .error name => .error (.duplicateName name)

theorem closeObject_of_ok {members kept : Members} (h : rule members = .ok kept)
    (left : Text) : closeObject rule members left = .ok (.obj kept, left) := by
  rw [closeObject, h]

section Steps

variable {fuel : Nat} {text : Text}

theorem readValue_quote : readValue rule (fuel + 1) (char '"' :: text) =
    (readString text).bind fun (s, left) => .ok (.str s, left) := rfl

theorem readValue_brace : readValue rule (fuel + 1) (char '\x7b' :: text) =
    match skipBlanks text with
    | char '\x7d' :: left => closeObject rule [] left
    | start => (readMembers rule fuel start).bind fun (members, left) =>
      closeObject rule members left := rfl

/-- What the reader makes of the text behind a member's value. -/
def behindMember (rule : ClosingRule) (fuel : Nat) (m : Text × Value) (text : Text) :
    Except Stop (Members × Text) :=
  match skipBlanks text with
  | char '\x7d' :: rest => .ok ([m], rest)
  | char ',' :: rest => (readMembers rule fuel (skipBlanks rest)).bind fun (members, left) =>
    .ok (m :: members, left)
  | other => .error (.malformed .noComma other.length)

theorem behindMember_brace {m : Text × Value} {rest : Text}
    (h : skipBlanks text = char '\x7d' :: rest) :
    behindMember rule fuel m text = .ok ([m], rest) := by
  rw [behindMember, h]
  rfl

theorem behindMember_comma {m : Text × Value} {rest : Text}
    (h : skipBlanks text = char ',' :: rest) : behindMember rule fuel m text =
      (readMembers rule fuel (skipBlanks rest)).bind fun (members, left) =>
        .ok (m :: members, left) := by
  rw [behindMember, h]
  rfl

theorem readMembers_quote : readMembers rule (fuel + 1) (char '"' :: text) =
    (readString text).bind fun (name, left) => match skipBlanks left with
      | char ':' :: rest => (readValue rule fuel (skipBlanks rest)).bind fun (v, left) =>
        behindMember rule fuel (name, v) left
      | other => .error (.malformed .noColon other.length) := rfl

end Steps

/-! ## Texts of values -/

/-- The text is read as the value, whatever stands behind it, and does not begin with a blank. -/
structure ReadsAs (rule : ClosingRule) (text : Text) (v : Value) : Prop where
  first : ∃ c rest, text = c :: rest ∧ isBlank c = false
  value : ∀ fuel rest, text.length ≤ fuel → readValue rule fuel (text ++ rest) = .ok (v, rest)

theorem skipBlanks_append {blanks text : Text} (h : ∀ c ∈ blanks, isBlank c = true) :
    skipBlanks (blanks ++ text) = skipBlanks text := List.dropWhile_append_of_pos h

theorem skipBlanks_of_not_blank {c : CodePoint} {text : Text} (h : isBlank c = false) :
    skipBlanks (c :: text) = c :: text := by
  rw [skipBlanks, List.dropWhile_cons, h, if_neg Bool.false_ne_true]

theorem ReadsAs.skipBlanks {text : Text} {v : Value} (h : ReadsAs rule text v)
    (rest : Text) : skipBlanks (text ++ rest) = text ++ rest := by
  obtain ⟨c, tail, rfl, plain⟩ := h.first
  exact skipBlanks_of_not_blank plain

theorem isBlank_of_mem_margin {depth : Nat} {p : CodePoint}
    (h : p ∈ written (margin depth).toList) : isBlank p = true := by
  obtain ⟨c, mem, rfl⟩ := List.mem_map.mp h
  rw [margin, String.toList_ofList] at mem
  rw [List.eq_of_mem_replicate mem]
  rfl

/-- The line end and the margin in front of a line. -/
theorem skipBlanks_line (depth : Nat) (text : Text) :
    skipBlanks (char '\n' :: (written (margin depth).toList ++ text)) = skipBlanks text := by
  rw [← List.cons_append]
  refine skipBlanks_append fun c hc => ?_
  rcases List.mem_cons.mp hc with rfl | hc
  · rfl
  · exact isBlank_of_mem_margin hc

theorem toList_string (t : Text) :
    (Canonical.string t).toList = '"' :: (t.flatMap Canonical.escape ++ ['"']) := by
  simp [Canonical.string]

/-- The text of a string is read as the string, with its surrogates joined. -/
theorem readsAs_string (t : Text) : ReadsAs rule (Canonical.string t) (.str (joined t)) := by
  rw [Text.ofString, toList_string]
  refine ⟨⟨_, _, rfl, rfl⟩, fun fuel rest enough => ?_⟩
  cases fuel with
  | zero => exact absurd enough (Nat.not_succ_le_zero _)
  | succ fuel =>
      rw [List.map_cons, List.map_append, List.cons_append, List.append_assoc, readValue_quote]
      show (readString (written _ ++ char '"' :: rest)).bind _ = _
      rw [readString_string]
      rfl

/-! ## Members -/

/-- A member from its name to the end of its value. -/
def memberText (m : Text × String) : List Char :=
  (Canonical.string m.1).toList ++ (':' :: ' ' :: m.2.toList)

/-- The members from the first name to the closing brace. -/
def membersText (depth : Nat) : List (Text × String) → List Char
  | [] => ['\x7d']
  | [m] => memberText m ++ '\n' :: ((margin depth).toList ++ ['\x7d'])
  | m :: next :: rest => memberText m ++
    ',' :: '\n' :: ((margin (depth + 1)).toList ++ membersText depth (next :: rest))

/-- The lines of members, joined and closed. -/
theorem toList_lines {members : List (Text × String)} (depth : Nat) (ne : members ≠ []) :
    (",\n".intercalate (members.map fun m =>
        margin (depth + 1) ++ Canonical.string m.1 ++ ": " ++ m.2)).toList ++
      '\n' :: ((margin depth).toList ++ ['\x7d']) =
    (margin (depth + 1)).toList ++ membersText depth members := by
  fun_induction membersText depth members with
  | case1 => exact absurd rfl ne
  | case2 m => simp [memberText]
  | case3 m next rest ih =>
      rw [List.map_cons, String.intercalate_cons_of_ne_nil (by simp), String.toList_append,
        List.append_assoc, ih (List.cons_ne_nil _ _)]
      simp [memberText]

theorem toList_object {members : List (Text × String)} (depth : Nat) (ne : members ≠ []) :
    (object depth members).toList =
      '\x7b' :: '\n' :: ((margin (depth + 1)).toList ++ membersText depth members) := by
  have filled : members.isEmpty = false := by simpa using ne
  rw [object, filled, if_neg Bool.false_ne_true, ← toList_lines depth ne]
  simp

/-- The member's name is read as the name, and the text of its value as the value. -/
def MemberReads (rule : ClosingRule) (m : Text × String) (v : Text × Value) : Prop :=
  joined m.1 = v.1 ∧ ReadsAs rule m.2 v.2

/-- A member is read up to what stands behind its value. -/
theorem readMembers_member {m : Text × String} {v : Text × Value} (h : MemberReads rule m v)
    {fuel : Nat} {behind : Text} (enough : (memberText m).length ≤ fuel + 1) :
    readMembers rule (fuel + 1) (written (memberText m) ++ behind) =
      behindMember rule fuel v behind := by
  obtain ⟨name, reads⟩ := h
  have opened : written (memberText m) ++ behind =
      char '"' :: (written (m.1.flatMap Canonical.escape) ++
        char '"' :: char ':' :: char ' ' :: (Text.ofString m.2 ++ behind)) := by
    rw [memberText, toList_string]
    simp [Text.ofString]
  have colon : skipBlanks (char ':' :: char ' ' :: (Text.ofString m.2 ++ behind)) =
      char ':' :: char ' ' :: (Text.ofString m.2 ++ behind) := skipBlanks_of_not_blank rfl
  have value : skipBlanks (char ' ' :: (Text.ofString m.2 ++ behind)) =
      Text.ofString m.2 ++ behind := reads.skipBlanks behind
  have shorter : (Text.ofString m.2).length ≤ fuel := by
    rw [memberText, toList_string] at enough
    simp only [List.length_append, List.length_cons] at enough
    rw [Text.ofString, List.length_map]
    omega
  rw [opened, readMembers_quote, readString_string, name]
  simp only [Except.bind, colon, value, reads.value fuel behind shorter]

/-- Members begin with a quote. -/
theorem membersText_first {members : List (Text × String)} (depth : Nat) (ne : members ≠ [])
    (rest : Text) : ∃ tail, written (membersText depth members) ++ rest = char '"' :: tail := by
  have quoted (m : Text × String) (behind : List Char) :
      ∃ tail, written (memberText m ++ behind) ++ rest = char '"' :: tail := by
    rw [memberText, toList_string]
    exact ⟨_, rfl⟩
  fun_cases membersText depth members with
  | case1 => exact absurd rfl ne
  | case2 m => exact quoted m _
  | case3 m next rest => exact quoted m _

theorem membersText_last (depth : Nat) (members : List (Text × String)) :
    ∃ inner, membersText depth members = inner ++ ['\x7d'] := by
  fun_induction membersText depth members with
  | case1 => exact ⟨[], rfl⟩
  | case2 m => exact ⟨memberText m ++ '\n' :: (margin depth).toList, by simp⟩
  | case3 m next rest ih =>
      obtain ⟨inner, closed⟩ := ih
      rw [closed]
      exact ⟨memberText m ++ ',' :: '\n' :: ((margin (depth + 1)).toList ++ inner), by simp⟩

/-- An object stands between braces. -/
theorem object_braces (depth : Nat) (members : List (Text × String)) :
    ∃ inner, (object depth members).toList = '\x7b' :: (inner ++ ['\x7d']) := by
  cases members with
  | nil =>
      rw [object, List.isEmpty_nil, if_pos rfl]
      exact ⟨[], rfl⟩
  | cons m members =>
      obtain ⟨inner, closed⟩ := membersText_last depth (m :: members)
      rw [toList_object depth (List.cons_ne_nil m members), closed]
      exact ⟨'\n' :: ((margin (depth + 1)).toList ++ inner), by simp⟩

theorem skipBlanks_membersText {members : List (Text × String)} (depth : Nat) (ne : members ≠ [])
    (rest : Text) : skipBlanks (written (membersText depth members) ++ rest) =
      written (membersText depth members) ++ rest := by
  obtain ⟨tail, quoted⟩ := membersText_first depth ne rest
  rw [quoted]
  exact skipBlanks_of_not_blank rfl

theorem length_memberText_pos (m : Text × String) : 0 < (memberText m).length := by
  rw [memberText, List.length_append, List.length_cons]
  omega

theorem length_memberText_le (depth : Nat) (m : Text × String)
    (members : List (Text × String)) :
    (memberText m).length ≤ (membersText depth (m :: members)).length := by
  cases members with
  | nil => simp [membersText]
  | cons next members => simp [membersText]

/-- **Members are read back.** -/
theorem readMembers_membersText {members : List (Text × String)} {values : Members}
    (h : List.Forall₂ (MemberReads rule) members values) (depth : Nat) (ne : members ≠ [])
    {fuel : Nat} {rest : Text} (enough : (membersText depth members).length ≤ fuel) :
    readMembers rule fuel (written (membersText depth members) ++ rest) = .ok (values, rest) := by
  induction h generalizing fuel with
  | nil => exact absurd rfl ne
  | @cons m v members values first others ih =>
      have begun : (memberText m).length ≤ fuel :=
        Nat.le_trans (length_memberText_le depth m members) enough
      obtain ⟨fuel, rfl⟩ := Nat.exists_eq_add_of_le' (Nat.le_trans (length_memberText_pos m) begun)
      cases members with
      | nil =>
          cases others
          have brace : skipBlanks (char '\n' :: (written (margin depth).toList ++
              (char '\x7d' :: rest))) = char '\x7d' :: rest := by
            rw [skipBlanks_line]
            exact skipBlanks_of_not_blank rfl
          simp only [membersText, List.map_append, List.map_cons, List.map_nil, List.append_assoc,
            List.cons_append, List.nil_append]
          rw [readMembers_member first begun]
          exact behindMember_brace brace
      | cons next members =>
          have comma (text : Text) : skipBlanks (char ',' :: text) = char ',' :: text :=
            skipBlanks_of_not_blank rfl
          have shorter : (membersText depth (next :: members)).length ≤ fuel := by
            rw [membersText, List.length_append, List.length_cons, List.length_cons,
              List.length_append] at enough
            omega
          simp only [membersText, List.map_append, List.map_cons, List.append_assoc,
            List.cons_append]
          rw [readMembers_member first begun, behindMember_comma (comma _), skipBlanks_line,
            skipBlanks_membersText depth (List.cons_ne_nil next members),
            ih (List.cons_ne_nil _ _) shorter]
          rfl

/-- **Objects are read back**, with the members that the rule lets stand. -/
theorem readsAs_object {members : List (Text × String)} {values kept : Members}
    (h : List.Forall₂ (MemberReads rule) members values) (closes : rule values = .ok kept)
    (depth : Nat) : ReadsAs rule (object depth members) (.obj kept) := by
  cases members with
  | nil =>
      cases h
      have braces : Text.ofString (object depth []) = [char '\x7b', char '\x7d'] := by
        rw [object, List.isEmpty_nil, if_pos rfl]
        rfl
      rw [braces]
      refine ⟨⟨_, _, rfl, rfl⟩, fun fuel rest enough => ?_⟩
      cases fuel with
      | zero => exact absurd enough (Nat.not_succ_le_zero _)
      | succ fuel =>
          have brace : skipBlanks (char '\x7d' :: rest) = char '\x7d' :: rest :=
            skipBlanks_of_not_blank rfl
          rw [List.cons_append, List.cons_append, readValue_brace, List.nil_append, brace]
          exact closeObject_of_ok closes rest
  | cons m members =>
      rw [Text.ofString, toList_object depth (List.cons_ne_nil m members)]
      refine ⟨⟨_, _, rfl, rfl⟩, fun fuel rest enough => ?_⟩
      cases fuel with
      | zero => exact absurd enough (Nat.not_succ_le_zero _)
      | succ fuel =>
          have inner : (membersText depth (m :: members)).length ≤ fuel := by
            simp only [List.length_map, List.length_cons, List.length_append] at enough
            omega
          obtain ⟨tail, quoted⟩ := membersText_first depth (List.cons_ne_nil m members) rest
          have all : readMembers rule fuel (char '"' :: tail) = .ok (values, rest) :=
            quoted ▸ readMembers_membersText h depth (List.cons_ne_nil _ _) inner
          have quote : skipBlanks (char '"' :: tail) = char '"' :: tail :=
            skipBlanks_of_not_blank rfl
          simp only [List.map_cons, List.map_append, List.cons_append, List.append_assoc]
          rw [readValue_brace]
          simp only [skipBlanks_line, quoted, quote]
          show (readMembers rule fuel (char '"' :: tail)).bind _ = _
          rw [all]
          exact closeObject_of_ok closes rest

/-- A text that is read as a value is read as it with a line end behind it. -/
theorem read_line {text : Text} {v : Value} (h : ReadsAs rule text v)
    (unmarked : text.head? ≠ some (char '\uFEFF')) :
    Json.read rule (text ++ [char '\n']) = .ok v := by
  have first : (text ++ [char '\n']).head? = text.head? := by
    obtain ⟨c, rest, rfl, -⟩ := h.first
    rfl
  have value : readValue rule (enough (text ++ [char '\n'])) (text ++ [char '\n']) =
      .ok (v, [char '\n']) := by
    refine h.value _ _ ?_
    rw [enough, List.length_append]
    omega
  rw [Json.read, readText, first, if_neg unmarked, h.skipBlanks]
  show Except.mapError _ ((readValue rule _ _).bind _) = _
  rw [value]
  rfl

/-! ## Closing rules -/

/-- The rule leaves members with distinct names as they are. -/
def Faithful (rule : ClosingRule) : Prop :=
  ∀ members : Members, (members.map (·.1)).Nodup → rule members = .ok members

theorem asWritten_faithful : Faithful asWritten := fun _ _ => rfl

theorem distinct_faithful : Faithful distinct := by
  have fresh (members : Members) (seen : List Text) (nodup : (members.map (·.1)).Nodup)
      (apart : ∀ name ∈ seen, name ∉ members.map (·.1)) : repeatedName? seen members = none := by
    induction members generalizing seen with
    | nil => rfl
    | cons m members ih =>
        rw [List.map_cons, List.nodup_cons] at nodup
        have unseen : seen.contains m.1 = false := by
          rw [Bool.eq_false_iff, Ne, List.contains_iff_mem]
          exact fun mem => apart _ mem List.mem_cons_self
        rw [repeatedName?, unseen, if_neg Bool.false_ne_true]
        refine ih (m.1 :: seen) nodup.2 fun name mem => ?_
        rcases List.mem_cons.mp mem with rfl | mem
        · exact nodup.1
        · exact fun later => apart name mem (List.mem_cons_of_mem _ later)
  intro members nodup
  rw [distinct, fresh members [] nodup (fun _ mem => by cases mem)]

theorem lastWins_faithful : Faithful lastWins := by
  have put {name : Text} {v : Value} {l : Members} (new : name ∉ l.map (·.1)) :
      putEntry name v l = l ++ [(name, v)] := by
    induction l with
    | nil => rfl
    | cons entry l ih =>
        rw [List.map_cons, List.mem_cons, not_or] at new
        rw [putEntry, if_neg (Ne.symm new.1), ih new.2]
        rfl
  have all (members : Members) (m : NameMap Value)
      (nodup : ((m.entries ++ members).map (·.1)).Nodup) :
      (m.insertAll members).entries = m.entries ++ members := by
    induction members generalizing m with
    | nil => exact (List.append_nil _).symm
    | cons entry members ih =>
        have new : entry.1 ∉ m.entries.map (·.1) := by
          have apart := nodup
          rw [List.map_append, List.nodup_append] at apart
          exact fun mem => apart.2.2 _ mem _ List.mem_cons_self rfl
        have step : (m.insert entry.1 entry.2).entries = m.entries ++ [entry] := put new
        have split : m.entries ++ entry :: members = m.entries ++ [entry] ++ members := by simp
        rw [split, ← step] at nodup ⊢
        exact ih _ nodup
  intro members nodup
  rw [lastWins, NameMap.ofList, all members NameMap.empty nodup]
  rfl

theorem faithful_of_mem {rule : ClosingRule} (h : rule ∈ [asWritten, lastWins, distinct]) :
    Faithful rule := by
  simp only [List.mem_cons, List.not_mem_nil, or_false] at h
  rcases h with rfl | rfl | rfl
  · exact asWritten_faithful
  · exact lastWins_faithful
  · exact distinct_faithful

/-! ## Printable characters -/

/-- A line end, or a character of ASCII that shows. -/
def IsPlain (c : Char) : Prop := c = '\n' ∨ ' ' ≤ c ∧ c ≤ '~'

/-- Which characters are plain is a matter of their numbers. -/
instance : DecidablePred IsPlain := fun c =>
  decidable_of_iff (c = '\n' ∨ 0x20 ≤ c.toNat ∧ c.toNat ≤ 0x7e) Iff.rfl

theorem plain_digitChar {n : Nat} (h : n < 16) : IsPlain n.digitChar := by
  have all : ∀ n < 16, IsPlain n.digitChar := by decide
  exact all n h

theorem plain_unitEscape {n : Nat} (h : n < 0x10000) : ∀ c ∈ unitEscape n, IsPlain c := by
  rw [unitEscape, hex_four h]
  simp only [List.forall_mem_cons]
  exact ⟨by decide, by decide, plain_digitChar (by omega), plain_digitChar (by omega),
    plain_digitChar (by omega), plain_digitChar (by omega), List.forall_mem_nil _⟩

theorem plain_pair {a b : Char} (ha : IsPlain a) (hb : IsPlain b) : ∀ e ∈ [a, b], IsPlain e := by
  intro e he
  rcases List.mem_pair.mp he with rfl | rfl
  · exact ha
  · exact hb

theorem plain_escape (p : CodePoint) : ∀ e ∈ Canonical.escape p, IsPlain e := by
  unfold Canonical.escape
  split
  · next index => exact plain_unitEscape (toNat_surrogate_lt index)
  next c =>
  split
  · next mark =>
      rcases mark with rfl | rfl
      · exact plain_pair (by decide) (by decide)
      · exact plain_pair (by decide) (by decide)
  split
  · exact plain_pair (by decide) (by decide)
  split
  · exact plain_pair (by decide) (by decide)
  split
  · exact plain_pair (by decide) (by decide)
  split
  · exact plain_pair (by decide) (by decide)
  split
  · exact plain_pair (by decide) (by decide)
  split
  · next shown => exact List.forall_mem_singleton.mpr (.inr shown)
  have range := toNat_range c
  unfold numbered
  split
  · next low => exact plain_unitEscape low
  · exact List.forall_mem_append.mpr ⟨plain_unitEscape (by omega), plain_unitEscape (by omega)⟩

theorem plain_string (t : Text) : ∀ c ∈ (Canonical.string t).toList, IsPlain c := by
  have quote : IsPlain '"' := by decide
  rw [toList_string]
  refine List.forall_mem_cons.mpr ⟨quote, List.forall_mem_append.mpr
    ⟨?_, List.forall_mem_singleton.mpr quote⟩⟩
  intro c hc
  obtain ⟨p, -, hc⟩ := List.mem_flatMap.mp hc
  exact plain_escape p c hc

theorem plain_margin (depth : Nat) : ∀ c ∈ (margin depth).toList, IsPlain c := by
  intro c hc
  rw [margin, String.toList_ofList] at hc
  rw [List.eq_of_mem_replicate hc]
  decide

/-- An object shows what the texts of its values show, and plain characters. -/
theorem plain_object {members : List (Text × String)} (depth : Nat)
    (h : ∀ m ∈ members, ∀ c ∈ m.2.toList, IsPlain c) :
    ∀ c ∈ (object depth members).toList, IsPlain c := by
  have member {m : Text × String} (hm : ∀ c ∈ m.2.toList, IsPlain c) :
      ∀ c ∈ memberText m, IsPlain c := by
    refine List.forall_mem_append.mpr ⟨plain_string _, ?_⟩
    exact List.forall_mem_cons.mpr ⟨by decide, List.forall_mem_cons.mpr ⟨by decide, hm⟩⟩
  have text : ∀ c ∈ membersText depth members, IsPlain c := by
    fun_induction membersText depth members with
    | case1 => exact List.forall_mem_singleton.mpr (by decide)
    | case2 m =>
        have margin := plain_margin depth
        simp only [List.forall_mem_append, List.forall_mem_cons] at h ⊢
        exact ⟨member h.1, by decide, margin, by decide, nofun⟩
    | case3 m next rest ih =>
        have margin := plain_margin (depth + 1)
        rw [List.forall_mem_cons] at h
        simp only [List.forall_mem_append, List.forall_mem_cons]
        exact ⟨member h.1, by decide, by decide, margin, ih h.2⟩
  cases members with
  | nil =>
      rw [object, List.isEmpty_nil, if_pos rfl]
      exact plain_pair (by decide) (by decide)
  | cons m members =>
      rw [toList_object depth (List.cons_ne_nil m members)]
      simp only [List.forall_mem_append, List.forall_mem_cons]
      exact ⟨by decide, by decide, plain_margin _, text⟩

end HostGlue.Json

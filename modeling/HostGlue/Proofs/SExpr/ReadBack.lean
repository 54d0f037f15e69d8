import HostGlue.Proofs.SExpr.Spelling

/-!
# Layouts are read back

A text that spells legible tokens is cut into these tokens again, so every layout of a legible tree
is read as the tree. The cut is where legibility counts: a symbol must not hold a character that
ends an atom, nor a comment the end of its line. Strings may hold anything, since the quotes and
backslashes in them are escaped.
-/

namespace HostGlue.SExpr

open Reading

/-! ## Cutting out one token -/

section Scan

variable {read text rest : Text} {c : CodePoint}

/-- The tokens behind a token. -/
theorem scan_cons {s : Reading} : scan s (c :: rest) = (scan (s.step c).2 rest).map
    ((s.step c).1 ++ ·) := rfl

theorem scan_silent {s s' : Reading} (h : s.step c = ([], s')) :
    scan s (c :: rest) = scan s' rest := by
  rw [scan_cons, h]
  exact Option.map_id_apply

theorem scan_emits {s s' : Reading} {k : Token} (h : s.step c = ([k], s')) :
    scan s (c :: rest) = (scan s' rest).map (k :: ·) := by
  rw [scan_cons, h]
  rfl

theorem scan_blank (h : isBlank c = true) : scan .between (c :: rest) = scan .between rest :=
  scan_silent (by rw [step, start, if_pos h])

theorem stepAtom_of_isAtomChar (h : isAtomChar c = true) :
    stepAtom read c = ([], .atom (read ++ [c])) := if_pos h

theorem start_of_isAtomChar (h : isAtomChar c = true) : start c = ([], .atom [c]) := by
  simp only [isAtomChar, Bool.and_eq_true, Bool.not_eq_true', decide_eq_true_eq] at h
  obtain ⟨⟨⟨⟨blank, opening⟩, closing⟩, quote⟩, semicolon⟩ := h
  rw [start, if_neg (Bool.eq_false_iff.mp blank), if_neg opening, if_neg closing, if_neg quote,
    if_neg semicolon]

/-- An atom that was read ends in front of a blank or a closing parenthesis. -/
theorem scan_atom_end (h : Delimited rest) :
    scan (.atom read) rest = (scan .between rest).map (.atom read :: ·) := by
  cases rest with
  | nil => rfl
  | cons c rest =>
      have delimiter : isAtomChar c = false ∧ c ≠ ';' := by
        rcases h c rfl with rfl | rfl | rfl <;> decide
      have here : (Reading.atom read).step c =
          (.atom read :: (start c).1, (start c).2) := by
        rw [step, stepAtom, if_neg (Bool.eq_false_iff.mp delimiter.1), if_neg delimiter.2]
      rw [scan_cons, here, scan_cons, Option.map_map]
      rfl

theorem scan_atom_run (chars : ∀ c ∈ text, isAtomChar c = true) (h : Delimited rest) :
    scan (.atom read) (text ++ rest) =
      (scan .between rest).map (.atom (read ++ text) :: ·) := by
  induction text generalizing read with
  | nil =>
      rw [List.append_nil]
      exact scan_atom_end h
  | cons c text ih =>
      have first : (Reading.atom read).step c = ([], .atom (read ++ [c])) :=
        stepAtom_of_isAtomChar (chars c List.mem_cons_self)
      rw [List.cons_append, scan_silent first,
        ih fun d hd => chars d (List.mem_cons_of_mem _ hd), List.append_assoc]
      rfl

theorem scan_atom (ne : text ≠ []) (chars : ∀ c ∈ text, isAtomChar c = true) (h : Delimited rest) :
    scan .between (text ++ rest) =
      (scan .between rest).map (.atom text :: ·) := by
  cases text with
  | nil => exact absurd rfl ne
  | cons c text =>
      have first := start_of_isAtomChar (chars c List.mem_cons_self)
      rw [List.cons_append, scan_silent (s := .between) first]
      exact scan_atom_run (fun d hd => chars d (List.mem_cons_of_mem _ hd)) h

/-- A quoted string is read up to the quote that was not escaped. -/
theorem scan_string_run : scan (.string read) (Text.Quoted.encode text ++ .char '"' :: rest) =
    (scan .between rest).map (.str (read ++ text) :: ·) := by
  induction text generalizing read with
  | nil =>
      rw [List.append_nil]
      exact scan_emits rfl
  | cons c text ih =>
      have grown : read ++ c :: text = read ++ [c] ++ text := by rw [List.append_assoc]; rfl
      rw [Text.Quoted.encode, grown]
      split
      · have escape : (Reading.string read).step '\\' = ([], .escape read) := rfl
        have char : (Reading.escape read).step c = ([], .string (read ++ [c])) := rfl
        rw [List.cons_append, List.cons_append, scan_silent escape, scan_silent char, ih]
      · next plain =>
          rw [not_or] at plain
          have char : (Reading.string read).step c = ([], .string (read ++ [c])) := by
            rw [step, if_neg plain.1, if_neg plain.2]
          rw [List.cons_append, scan_silent char, ih]

/-- A comment is read up to the end of its line. -/
theorem scan_comment_run (line : CodePoint.char '\n' ∉ text) (h : LineEnds rest) :
    scan (.comment read) (text ++ rest) =
      (scan .between rest).map (.comment (commentText (read ++ text)) :: ·) := by
  induction text generalizing read with
  | nil =>
      rw [List.append_nil]
      cases rest with
      | nil => rfl
      | cons c rest =>
          obtain rfl := h c rfl
          rw [List.nil_append, scan_blank (by decide)]
          exact scan_emits rfl
  | cons c text ih =>
      rw [List.mem_cons, not_or] at line
      have char : (Reading.comment read).step c = ([], .comment (read ++ [c])) :=
        if_neg (Ne.symm line.1)
      rw [List.cons_append, scan_silent char, ih line.2, List.append_assoc]
      rfl

theorem scan_comment (line : CodePoint.char '\n' ∉ text) (h : LineEnds rest) :
    scan .between (.char ';' :: .char ';' :: .char ' ' :: (text ++ rest)) =
      (scan .between rest).map (.comment text :: ·) := by
  have first : Reading.between.step ';' = ([], .semicolon []) := by decide
  have second : (Reading.semicolon []).step ';' = ([], .comment []) := by decide
  have third : (Reading.comment []).step ' ' = ([], .comment [.char ' ']) := by decide
  rw [scan_silent first, scan_silent second, scan_silent third]
  exact scan_comment_run line h

end Scan

/-- A legible token is cut out of the text that it stands in front of. -/
theorem scan_token {k : Token} {rest : Text} (legible : k.isLegible = true)
    (ends : k.EndsBefore rest) :
    scan .between (k.spelling ++ rest) = (scan .between rest).map (k :: ·) := by
  cases k with
  | opening => exact scan_emits (by decide)
  | closing => exact scan_emits (by decide)
  | atom text =>
      simp only [Token.isLegible, Bool.and_eq_true, Bool.not_eq_true', List.isEmpty_eq_false_iff,
        List.all_eq_true] at legible
      exact scan_atom legible.1 legible.2 ends
  | str text =>
      have first : Reading.between.step '"' = ([], .string []) := by decide
      rw [Token.spelling, Text.Quoted.quote, List.cons_append, scan_silent first, List.append_assoc]
      exact scan_string_run
  | comment text => exact scan_comment (of_decide_eq_true legible) ends

/-- A text is cut into the tokens that it spells. -/
theorem scan_of_spells {ts : List Token} {text : Text} (h : Spells [] ts text)
    (legible : ∀ k ∈ ts, k.isLegible = true) : scan .between text = some ts := by
  induction h with
  | nil => rfl
  | blank hc tail ih =>
      rw [scan_blank (by rcases hc with rfl | rfl <;> decide)]
      exact ih legible
  | @token k ts text ends tail ih =>
      rw [List.append_nil] at ends
      rw [scan_token (legible k List.mem_cons_self) ends,
        ih fun k hk => legible k (List.mem_cons_of_mem _ hk)]
      rfl

/-! ## Legible trees have legible tokens -/

/-- Characters of a class run on in an atom if no blank and no mark of the format is among them. -/
theorem isAtomChar_of_class {allowed : Char → Bool} {c : Char} (h : allowed c = true)
    (apart : [' ', '\t', '\n', '\r', '(', ')', '"', ';'].any allowed = false) :
    isAtomChar c = true := by
  have other (d : Char) (hd : d ∈ [' ', '\t', '\n', '\r', '(', ')', '"', ';']) : c ≠ d := by
    rintro rfl
    exact List.any_eq_false.mp apart c hd h
  simp [isAtomChar, isBlank, other]

theorem token_isLegible_atom {text : Text} : (Token.atom text).isLegible = true ↔
    text ≠ [] ∧ ∀ c ∈ text, isAtomChar c = true := by
  simp [Token.isLegible]

theorem token_isLegible_ofString {s : String} : (Token.atom s).isLegible = true ↔
    s.toList ≠ [] ∧ ∀ c ∈ s.toList, isAtomChar c = true := by
  rw [token_isLegible_atom]
  simp [Text.ofString]

/-- Numerals are atoms. -/
theorem isAtomChar_of_mem_repr {n : Nat} {c : Char} (h : c ∈ n.repr.toList) :
    isAtomChar c = true := by
  rw [Nat.toList_repr] at h
  have digit : c.isDigit = true := Nat.isDigit_of_mem_toDigits (by decide) (by decide) h
  exact isAtomChar_of_class digit (by decide)

theorem token_isLegible_int (value : Int) : (Token.atom (toString value)).isLegible = true := by
  have numeral (n : Nat) : n.repr.toList ≠ [] := by
    rw [Nat.toList_repr]
    exact Nat.toDigits_ne_nil
  rw [token_isLegible_ofString, Int.toString_eq_repr, Int.repr_eq_if]
  split
  · exact ⟨numeral _, fun c hc => isAtomChar_of_mem_repr hc⟩
  · rw [String.toList_append]
    refine ⟨by simp, fun c hc => ?_⟩
    rcases List.mem_append.mp hc with sign | digit
    · obtain rfl : c = '-' := by simpa using sign
      decide
    · exact isAtomChar_of_mem_repr digit

mutual

theorem legible_tokens : ∀ {t : SExpr}, t.isLegible = true → ∀ k ∈ t.tokens, k.isLegible = true
  | .sym name, h, k, hk => by
      obtain rfl := List.mem_singleton.mp hk
      exact h
  | .int value, _, k, hk => by
      obtain rfl := List.mem_singleton.mp hk
      exact token_isLegible_int value
  | .str text, _, k, hk => by
      obtain rfl := List.mem_singleton.mp hk
      rfl
  | .comment text, h, k, hk => by
      obtain rfl := List.mem_singleton.mp hk
      exact h
  | .unwritable leaf, _, k, hk => by cases hk
  | .list items, h, k, hk => by
      rw [tokens, List.mem_cons, List.mem_append, List.mem_singleton] at hk
      rcases hk with rfl | hk | rfl
      · rfl
      · exact legible_tokensAll h k hk
      · rfl

theorem legible_tokensAll : ∀ {items : List SExpr}, allLegible items = true →
    ∀ k ∈ tokensAll items, k.isLegible = true
  | [], _, k, hk => by cases hk
  | x :: rest, h, k, hk => by
      rw [allLegible, Bool.and_eq_true] at h
      rcases List.mem_append.mp hk with hk | hk
      · exact legible_tokens h.1 k hk
      · exact legible_tokensAll h.2 k hk

end

/-! ## Reading what was laid out -/

/-- The text is read as the trees, and its parentheses balance. -/
def Reads (text : Text) (trees : List SExpr) : Prop := read text = some trees ∧ Balanced text

/-- A text that spells legible trees reads as them. -/
theorem reads_of_spells {text : Text} {trees : List SExpr} (legible : allLegible trees = true)
    (h : Spells [] (tokensAll trees) text) : Reads text (spelledAll trees) := by
  have cut := scan_of_spells h (legible_tokensAll legible)
  exact ⟨read_of_scan legible cut, balanced_of_scan cut⟩

theorem reads_of_spells_one {text : Text} {t : SExpr} (legible : t.isLegible = true)
    (h : Spells [] t.tokens text) : Reads text [t.spelled] := by
  refine @reads_of_spells text [t] ?_ ?_
  · rw [allLegible, legible]
    rfl
  · rwa [tokensAll_cons, tokensAll_nil, List.append_nil]

/-- The block layout of a list, whether or not it would have a line to itself. -/
def blockLayout (indent : Int) (items : List SExpr) : Except LayoutError Text :=
  (block (indent + 1) items).map fun (head, body) => List.intercalate "\n"
    (close indent items ((margin indent ++ "(" ++ List.intercalate " " head) :: body))

/-- **Layouts are read back.** Whatever text a legible tree is given, at any depth, on one line or
as a block, it reads as the tree, and its parentheses balance. -/
theorem layouts_read_back {t : SExpr} (legible : t.isLegible = true) :
    (∀ indent text, format indent t = .ok text → Reads text [t.spelled]) ∧
    (∀ text, inline t = .ok text → Reads text [t.spelled]) ∧
    ∀ indent items text, t = .list items → blockLayout indent items = .ok text →
      Reads text [t.spelled] := by
  refine ⟨fun indent text h => ?_, fun text h => ?_, fun indent items text list h => ?_⟩
  · obtain ⟨ls, hls, rfl⟩ := except_map_eq_ok.mp h
    exact reads_of_spells_one legible (lines_spells hls (endsBefore_nil t))
  · exact reads_of_spells_one legible (inline_spells h delimited_nil)
  · subst list
    obtain ⟨⟨head, body⟩, hblock, rfl⟩ := except_map_eq_ok.mp h
    exact reads_of_spells_one legible
      (close_spells indent (block_spells hblock (endsBefore_closing indent items [])))

/-- A list with a comment at its end, a string full of marks and a number. -/
def remarkedList : SExpr :=
  .list [.sym "note", .str "a \"(\" \\ ;; b\n", .list [.sym "i32.const", .int (-64)],
    .comment "see \"(;", .list [.sym "unit", .list []], .list [.comment ")"]]

def remarkedText : String :=
  "  (note \"a \\\"(\\\" \\\\ ;; b\n\"\n    (i32.const -64)\n    ;; see \"(;\n" ++
    "    (unit ())\n    (\n      ;; )\n    ))"

theorem remarkedList_reads_back :
    remarkedList.isLegible = true ∧ format 1 remarkedList = .ok remarkedText ∧
      Reads remarkedText [.list [.sym "note", .str "a \"(\" \\ ;; b\n",
        .list [.sym "i32.const", .sym "-64"], .comment "see \"(;",
        .list [.sym "unit", .list []], .list [.comment ")"]]] := by
  have legible : remarkedList.isLegible = true := by decide
  have laid : format 1 remarkedList = .ok remarkedText := rfl
  exact ⟨legible, laid, (layouts_read_back legible).1 1 remarkedText laid⟩

end HostGlue.SExpr

import HostGlue.Proofs.Except
import HostGlue.Proofs.SExpr.Reader
import Mathlib.Data.List.Basic

/-!
# What a layout shows

A layout is free in nothing but the blanks between tokens. `Spells` says of a text that it consists
of given tokens with blanks between them, each token ended by what stands behind it, and
`lines_spells` says it of every layout of every tree, on one line or on many. What holds of a
tree's text whatever the layout is then an induction over `Spells`, and knows no lines.
-/

namespace HostGlue.SExpr

/-! ## Texts that spell tokens -/

/-- Nothing stands here that an atom could run into. -/
def Delimited (after : Text) : Prop := ∀ c ∈ after.head?, c = '\n' ∨ c = ' ' ∨ c = ')'

/-- The line ends here. -/
def LineEnds (after : Text) : Prop := ∀ c ∈ after.head?, c = '\n'

/-- The token ends in front of the text. -/
def Token.EndsBefore : Token → Text → Prop
  | .atom _, after => Delimited after
  | .comment _, after => LineEnds after
  | _, _ => True

/-- The text consists of the tokens and of blanks, if `after` stands behind it. -/
inductive Spells (after : Text) : List Token → Text → Prop where
  | nil : Spells after [] []
  | blank {c : CodePoint} {ts : List Token} {text : Text} (h : c = '\n' ∨ c = ' ')
      (tail : Spells after ts text) : Spells after ts (c :: text)
  | token {k : Token} {ts : List Token} {text : Text} (ends : k.EndsBefore (text ++ after))
      (tail : Spells after ts text) : Spells after (k :: ts) (k.spelling ++ text)

section Spells

variable {after x y : Text} {ts us : List Token}

theorem Spells.append (hx : Spells (y ++ after) ts x) (hy : Spells after us y) :
    Spells after (ts ++ us) (x ++ y) := by
  induction hx with
  | nil => exact hy
  | blank h tail ih => exact .blank h ih
  | @token k ts text ends tail ih =>
      rw [List.append_assoc]
      exact .token (by rwa [List.append_assoc]) ih

theorem Spells.single {k : Token} (ends : k.EndsBefore after) : Spells after [k] k.spelling := by
  have one : Spells after [k] (k.spelling ++ []) := .token ends .nil
  rwa [List.append_nil] at one

theorem Spells.margin (indent : Int) (h : Spells after ts x) :
    Spells after ts (SExpr.margin indent ++ x) := by
  rw [SExpr.margin]
  induction 2 * indent.toNat with
  | zero => exact h
  | succ n ih => exact .blank (.inr rfl) ih

/-- A character that is no blank occurs in the text as often as in the tokens. -/
theorem Spells.count {c : CodePoint} (hc : c ≠ '\n' ∧ c ≠ ' ') (h : Spells after ts x) :
    x.count c = (ts.flatMap Token.spelling).count c := by
  induction h with
  | nil => rfl
  | @blank b ts text hb tail ih =>
      have other : b ≠ c := by
        rintro rfl
        rcases hb with rfl | rfl
        · exact hc.1 rfl
        · exact hc.2 rfl
      rw [List.count_cons_of_ne other, ih]
  | token ends tail ih => rw [List.flatMap_cons, List.count_append, List.count_append, ih]

end Spells

/-! ## Layouts that succeed -/

section Success

variable {indent : Int} {x : SExpr} {items rest : List SExpr} {ls : List Text}

theorem inline_list_eq_ok {s : Text} : inline (.list items) = .ok s ↔
    ∃ parts, inlineAll items = .ok parts ∧ "(" ++ List.intercalate " " parts ++ ")" = s := by
  simp [inline]

theorem inlineAll_cons_eq_ok {parts : List Text} : inlineAll (x :: rest) = .ok parts ↔
    ∃ first, inline x = .ok first ∧ ∃ others, inlineAll rest = .ok others ∧
      first :: others = parts := by
  simp [inlineAll]

theorem oneLine?_eq_some {line : Text} (h : oneLine? indent items = .ok (some line)) :
    ∃ flat, inline (.list items) = .ok flat ∧ margin indent ++ flat = line := by
  unfold oneLine? at h
  split at h
  · cases h
  · obtain ⟨flat, hflat, h⟩ := except_bind_eq_ok.mp h
    split at h
    · cases h
      exact ⟨flat, hflat, rfl⟩
    · cases h

/-- A list that has lines stands on one, or is laid out as a block. -/
theorem lines_list_eq_ok : lines indent (.list items) = .ok ls ↔ items ≠ [] ∧
    ((∃ line, oneLine? indent items = .ok (some line) ∧ [line] = ls) ∨
      (oneLine? indent items = .ok none ∧ ∃ head body, block (indent + 1) items = .ok (head, body) ∧
        close indent items ((margin indent ++ "(" ++ List.intercalate " " head) :: body) = ls)) := by
  cases items with
  | nil => simp [lines]
  | cons x rest =>
      rw [lines, except_bind_eq_ok]
      constructor
      · rintro ⟨_ | line, fits, h⟩
        · obtain ⟨⟨head, body⟩, h, h'⟩ := except_bind_eq_ok.mp h
          exact ⟨List.cons_ne_nil _ _, .inr ⟨fits, head, body, h, except_pure_eq_ok.mp h'⟩⟩
        · exact ⟨List.cons_ne_nil _ _, .inl ⟨line, fits, except_pure_eq_ok.mp h⟩⟩
      · rintro ⟨-, ⟨line, fits, rfl⟩ | ⟨fits, head, body, h, rfl⟩⟩
        · exact ⟨some line, fits, rfl⟩
        · exact ⟨none, fits, except_bind_eq_ok.mpr ⟨(head, body), h, rfl⟩⟩

/-- A leaf that is no comment stands on one line. -/
theorem lines_leaf {leaf : SExpr} (comment : leaf.isComment = false) (list : leaf.isList = false) :
    lines indent leaf = (atom leaf).map fun text => [margin indent ++ text] := by
  cases leaf with
  | comment text => cases comment
  | list items => cases list
  | sym name => rfl
  | int value => rfl
  | str text => rfl
  | unwritable leaf => cases leaf <;> rfl

/-- Leading atoms go to the opening line of a block, the other items below it. -/
theorem block_cons_eq_ok {head body : List Text} : block indent (x :: rest) = .ok (head, body) ↔
    if x.isAtom then ∃ first, atom x = .ok first ∧ ∃ head',
      block indent rest = .ok (head', body) ∧ first :: head' = head
    else head = [] ∧ allLines indent (x :: rest) = .ok body := by
  rw [block]
  cases x.isAtom with
  | true => simp
  | false =>
      simp only [Bool.false_eq_true, if_false, allLines, except_bind_eq_ok, except_pure_eq_ok,
        Prod.mk.injEq]
      constructor
      · rintro ⟨first, h, others, h', rfl, rfl⟩
        exact ⟨rfl, first, h, others, h', rfl⟩
      · rintro ⟨rfl, first, h, others, h', rfl⟩
        exact ⟨first, h, others, h', rfl, rfl⟩

theorem allLines_cons_eq_ok : allLines indent (x :: rest) = .ok ls ↔
    ∃ first, lines indent x = .ok first ∧ ∃ others, allLines indent rest = .ok others ∧
      first ++ others = ls := by
  simp [allLines]

theorem closeLast_ne_nil (h : ls ≠ []) : closeLast ls ≠ [] := by
  match ls with
  | [] => exact absurd rfl h
  | [line] => exact List.cons_ne_nil _ _
  | line :: other :: others => exact List.cons_ne_nil _ _

theorem lines_ne_nil {t : SExpr} (h : lines indent t = .ok ls) : ls ≠ [] := by
  match t, h with
  | .comment text, h =>
      cases h
      exact List.cons_ne_nil _ _
  | .list items, h =>
      obtain ⟨-, ⟨line, -, rfl⟩ | ⟨-, head, body, -, rfl⟩⟩ := lines_list_eq_ok.mp h
      · exact List.cons_ne_nil _ _
      · unfold close
        split
        · exact List.cons_ne_nil _ _
        · exact closeLast_ne_nil (List.cons_ne_nil _ _)
  | .sym _, h | .int _, h | .str _, h | .unwritable _, h =>
      rw [lines_leaf rfl rfl] at h
      obtain ⟨text, -, rfl⟩ := except_map_eq_ok.mp h
      exact List.cons_ne_nil _ _

end Success

/-! ## Lines as one text -/

/-- The code points of lines that stand below another line. -/
def linesBelow (ls : List Text) : Text := ls.flatMap fun line => .char '\n' :: line

@[simp] theorem linesBelow_append (ls ms : List Text) :
    linesBelow (ls ++ ms) = linesBelow ls ++ linesBelow ms := List.flatMap_append

theorem joined_cons (line : Text) (ls : List Text) :
    List.intercalate "\n" (line :: ls) = line ++ linesBelow ls := by
  induction ls generalizing line with
  | nil => simp [linesBelow]
  | cons next ls ih =>
      rw [List.intercalate_cons_cons, ih]
      simp [linesBelow, Text.ofString]

theorem linesBelow_eq {ls : List Text} (h : ls ≠ []) :
    linesBelow ls = .char '\n' :: List.intercalate "\n" ls := by
  cases ls with
  | nil => exact absurd rfl h
  | cons line ls =>
      rw [joined_cons]
      rfl

theorem joined_closeLast {ls : List Text} (h : ls ≠ []) :
    List.intercalate "\n" (closeLast ls) = List.intercalate "\n" ls ++ [.char ')'] := by
  fun_induction closeLast ls with
  | case1 => exact absurd rfl h
  | case2 line => simp [Text.ofString]
  | case3 line rest more ih =>
      have hrest : rest ≠ [] := more
      rw [List.intercalate_cons_of_ne_nil (closeLast_ne_nil hrest),
        List.intercalate_cons_of_ne_nil hrest, ih hrest]
      simp

/-- What closes a list behind its last item. -/
def closing (indent : Int) (items : List SExpr) : Text :=
  match items.getLast? with
  | some (.comment _) => .char '\n' :: (margin indent ++ [.char ')'])
  | _ => [.char ')']

theorem joined_close (indent : Int) (items : List SExpr) (line : Text)
    (ls : List Text) : List.intercalate "\n" (close indent items (line :: ls)) =
      line ++ (linesBelow ls ++ closing indent items) := by
  unfold close closing
  cases items.getLast? with
  | none =>
      rw [joined_closeLast (List.cons_ne_nil _ _), joined_cons, List.append_assoc]
  | some last =>
      cases last with
      | comment text =>
          dsimp only
          rw [List.cons_append, joined_cons]
          simp [linesBelow, Text.ofString]
      | _ =>
          rw [joined_closeLast (List.cons_ne_nil _ _), joined_cons, List.append_assoc]

/-! ## Every layout spells the tokens -/

/-- The item ends in front of the text. -/
def EndsBefore (t : SExpr) (after : Text) : Prop :=
  if t.isComment then LineEnds after else Delimited after

theorem delimited_nil : Delimited [] := fun c hc => by cases hc

theorem lineEnds_line (text : Text) : LineEnds (.char '\n' :: text) := by
  intro c hc
  exact (Option.some.inj hc).symm

theorem LineEnds.delimited {after : Text} (h : LineEnds after) : Delimited after := by
  intro c hc
  exact .inl (h c hc)

theorem delimited_of_cons {c : CodePoint} (text : Text) (h : c = ' ' ∨ c = ')') :
    Delimited (c :: text) := by
  intro c' hc
  obtain rfl := Option.some.inj hc
  exact .inr h

theorem LineEnds.endsBefore {after : Text} (h : LineEnds after) (t : SExpr) :
    EndsBefore t after := by
  unfold EndsBefore
  split
  · exact h
  · exact h.delimited

theorem endsBefore_nil (t : SExpr) : EndsBefore t [] :=
  LineEnds.endsBefore (fun c hc => by cases hc) t

theorem lineEnds_linesBelow {ls : List Text} (h : ls ≠ []) (after : Text) :
    LineEnds (linesBelow ls ++ after) := by
  rw [linesBelow_eq h]
  exact lineEnds_line _

theorem endsBefore_closing (indent : Int) (items : List SExpr) (after : Text) :
    ∀ t ∈ items.getLast?, EndsBefore t (closing indent items ++ after) := by
  intro t last
  unfold closing
  rw [Option.mem_def.mp last]
  cases t with
  | comment text => exact lineEnds_line _
  | _ => exact delimited_of_cons _ (.inr rfl)

theorem closing_spells (indent : Int) (items : List SExpr) (after : Text) :
    Spells after [.closing] (closing indent items) := by
  have here : Spells after [.closing] [.char ')'] := Spells.single trivial
  unfold closing
  split
  · exact .blank (.inl rfl) (here.margin indent)
  · exact here

theorem atom_spells {t : SExpr} {s : Text} {after : Text} (h : atom t = .ok s)
    (ends : Delimited after) : Spells after t.tokens s := by
  cases t with
  | sym name =>
      cases h
      exact Spells.single ends
  | int value =>
      cases h
      exact Spells.single ends
  | str text =>
      cases h
      exact Spells.single trivial
  | comment text => cases h
  | list items => cases h
  | unwritable leaf => cases leaf <;> cases h

mutual

/-- The one line of a tree spells its tokens. -/
theorem inline_spells : ∀ {t : SExpr} {s : Text}, inline t = .ok s → ∀ {after : Text},
    Delimited after → Spells after t.tokens s
  | .list items, _, h, after, _ => by
      obtain ⟨parts, hparts, rfl⟩ := inline_list_eq_ok.mp h
      have inner : Spells (.char ')' :: after) (tokensAll items) (List.intercalate " " parts) :=
        inlineAll_spells hparts (delimited_of_cons _ (.inr rfl))
      have whole := Spells.token (k := .opening) trivial
        (Spells.append (y := [.char ')']) inner (Spells.single (k := .closing) trivial))
      exact whole
  | .sym _, _, h, _, ends => atom_spells h ends
  | .int _, _, h, _, ends => atom_spells h ends
  | .str _, _, h, _, ends => atom_spells h ends
  | .comment _, _, h, _, ends => atom_spells h ends
  | .unwritable _, _, h, _, ends => atom_spells h ends

theorem inlineAll_spells : ∀ {items : List SExpr} {parts : List Text},
    inlineAll items = .ok parts → ∀ {after : Text}, Delimited after →
    Spells after (tokensAll items) (List.intercalate " " parts)
  | [], _, h, _, _ => by
      cases h
      exact .nil
  | [x], _, h, _, ends => by
      obtain ⟨first, hfirst, _, hnil, rfl⟩ := inlineAll_cons_eq_ok.mp h
      cases hnil
      rw [List.intercalate_singleton, tokensAll_cons, tokensAll_nil, List.append_nil]
      exact inline_spells hfirst ends
  | x :: y :: rest, _, h, after, ends => by
      obtain ⟨first, hfirst, others, hothers, rfl⟩ := inlineAll_cons_eq_ok.mp h
      have tail := inlineAll_spells hothers ends
      obtain ⟨second, -, more, -, rfl⟩ := inlineAll_cons_eq_ok.mp hothers
      rw [List.intercalate_cons_cons, List.append_assoc]
      exact (inline_spells hfirst (delimited_of_cons _ (.inl rfl))).append (.blank (.inr rfl) tail)

end

/-- The items of a block between the parentheses of its list. -/
theorem close_spells (indent : Int) {items : List SExpr} {head body : List Text}
    {after : Text} (h : Spells (closing indent items ++ after) (tokensAll items)
      (List.intercalate " " head ++ linesBelow body)) :
    Spells after (tokens (.list items)) (List.intercalate "\n"
      (close indent items ((margin indent ++ "(" ++ List.intercalate " " head) :: body))) := by
  have whole := Spells.token (k := .opening) trivial
    (Spells.append h (closing_spells indent items after))
  rw [joined_close, List.append_assoc,
    List.append_assoc]
  simpa [tokens, Token.spelling, Text.ofString] using whole.margin indent

theorem leaf_spells {indent : Int} {t : SExpr} {ls : List Text} {after : Text}
    (comment : t.isComment = false) (list : t.isList = false) (h : lines indent t = .ok ls)
    (ends : EndsBefore t after) : Spells after t.tokens (List.intercalate "\n" ls) := by
  rw [lines_leaf comment list] at h
  obtain ⟨text, htext, rfl⟩ := except_map_eq_ok.mp h
  rw [EndsBefore, comment] at ends
  rw [List.intercalate_singleton]
  exact (atom_spells htext ends).margin indent

theorem allLines_ne_nil {indent : Int} {x : SExpr} {rest : List SExpr} {ls : List Text}
    (h : allLines indent (x :: rest) = .ok ls) : ls ≠ [] := by
  obtain ⟨first, hfirst, others, -, rfl⟩ := allLines_cons_eq_ok.mp h
  exact List.append_ne_nil_of_left_ne_nil (lines_ne_nil hfirst) others

/-- An item ends in front of the lines of the items behind it. -/
theorem endsBefore_others {indent : Int} {x : SExpr} {rest : List SExpr} {others : List Text}
    {after : Text} (h : allLines indent rest = .ok others)
    (ends : ∀ t ∈ (x :: rest).getLast?, EndsBefore t after) :
    EndsBefore x (linesBelow others ++ after) := by
  cases rest with
  | nil =>
      cases h
      exact ends x rfl
  | cons y rest => exact (lineEnds_linesBelow (allLines_ne_nil h) after).endsBefore x

theorem linesBelow_spells {x : SExpr} {rest : List SExpr} {first others : List Text}
    {after : Text} (hfirst : first ≠ [])
    (hx : Spells (linesBelow others ++ after) x.tokens (List.intercalate "\n" first))
    (hrest : Spells after (tokensAll rest) (linesBelow others)) :
    Spells after (tokensAll (x :: rest)) (linesBelow (first ++ others)) := by
  rw [linesBelow_append, linesBelow_eq hfirst]
  exact .blank (.inl rfl) (hx.append hrest)

/-- An atom ends in front of what stands behind it in a block. -/
theorem delimited_block {indent : Int} {y : SExpr} {rest : List SExpr} {body : List Text}
    (h : block indent (y :: rest) = .ok ([], body)) (after : Text) :
    Delimited (linesBelow body ++ after) := by
  have split := block_cons_eq_ok.mp h
  cases hy : y.isAtom with
  | true =>
      rw [hy, if_pos rfl] at split
      obtain ⟨first, -, head', -, more⟩ := split
      cases more
  | false =>
      rw [hy, if_neg Bool.false_ne_true] at split
      exact (lineEnds_linesBelow (allLines_ne_nil split.2) after).delimited

theorem isComment_of_isAtom {t : SExpr} (h : t.isAtom = true) : t.isComment = false := by
  cases t with
  | comment text => cases h
  | _ => rfl

mutual

/-- **Every layout spells the tokens of its tree.** -/
theorem lines_spells : ∀ {indent : Int} {t : SExpr} {ls : List Text}, lines indent t = .ok ls →
    ∀ {after : Text}, EndsBefore t after →
    Spells after t.tokens (List.intercalate "\n" ls)
  | indent, .comment text, _, h, after, ends => by
      cases h
      have line : Spells after [.comment text] (Token.comment text).spelling := Spells.single ends
      simpa [tokens, Token.spelling, Text.ofString] using line.margin indent
  | indent, .list items, _, h, after, ends => by
      obtain ⟨-, ⟨line, fits, rfl⟩ | ⟨-, head, body, hblock, rfl⟩⟩ := lines_list_eq_ok.mp h
      · obtain ⟨flat, hflat, rfl⟩ := oneLine?_eq_some fits
        rw [List.intercalate_singleton]
        exact (inline_spells hflat ends).margin indent
      · exact close_spells indent (block_spells hblock (endsBefore_closing indent items after))
  | indent, .sym name, _, h, _, ends => leaf_spells rfl rfl h ends
  | _, .int _, _, h, _, ends => leaf_spells rfl rfl h ends
  | _, .str _, _, h, _, ends => leaf_spells rfl rfl h ends
  | _, .unwritable _, _, h, _, ends => leaf_spells rfl rfl h ends

theorem block_spells : ∀ {indent : Int} {items : List SExpr} {head body : List Text},
    block indent items = .ok (head, body) → ∀ {after : Text},
    (∀ t ∈ items.getLast?, EndsBefore t after) →
    Spells after (tokensAll items) (List.intercalate " " head ++ linesBelow body)
  | _, [], _, _, h, _, _ => by
      cases h
      exact .nil
  | indent, x :: rest, head, body, h, after, ends => by
      have split := block_cons_eq_ok.mp h
      cases hx : x.isAtom with
      | false =>
          rw [hx, if_neg Bool.false_ne_true] at split
          obtain ⟨rfl, hlines⟩ := split
          obtain ⟨first, hfirst, others, hothers, rfl⟩ := allLines_cons_eq_ok.mp hlines
          have here := lines_spells hfirst (endsBefore_others hothers ends)
          have behind := allLines_spells hothers fun t last => ends t (List.mem_getLast?_cons last)
          exact linesBelow_spells (lines_ne_nil hfirst) here behind
      | true =>
          rw [hx, if_pos rfl] at split
          obtain ⟨first, hfirst, head', hrest, rfl⟩ := split
          have tail := block_spells hrest fun t last => ends t (List.mem_getLast?_cons last)
          cases head' with
          | cons second more =>
              have behind : Spells after (tokensAll rest)
                  (.char ' ' :: (List.intercalate " " (second :: more) ++ linesBelow body)) :=
                .blank (.inr rfl) tail
              have here := atom_spells hfirst (delimited_of_cons
                (List.intercalate " " (second :: more) ++ linesBelow body ++ after) (.inl rfl))
              rw [List.intercalate_cons_cons, List.append_assoc, List.append_assoc]
              exact here.append behind
          | nil =>
              have here : Spells (linesBelow body ++ after) x.tokens first := by
                refine atom_spells hfirst ?_
                cases rest with
                | nil =>
                    cases hrest
                    have last := ends x rfl
                    rwa [EndsBefore, isComment_of_isAtom hx] at last
                | cons y rest => exact delimited_block hrest after
              rw [List.intercalate_singleton]
              exact here.append tail

theorem allLines_spells : ∀ {indent : Int} {items : List SExpr} {ls : List Text},
    allLines indent items = .ok ls → ∀ {after : Text},
    (∀ t ∈ items.getLast?, EndsBefore t after) → Spells after (tokensAll items) (linesBelow ls)
  | _, [], _, h, _, _ => by
      cases h
      exact .nil
  | _, x :: rest, _, h, _, ends => by
      obtain ⟨first, hfirst, others, hothers, rfl⟩ := allLines_cons_eq_ok.mp h
      have here := lines_spells hfirst (endsBefore_others hothers ends)
      have behind := allLines_spells hothers fun t last => ends t (List.mem_getLast?_cons last)
      exact linesBelow_spells (lines_ne_nil hfirst) here behind

end

end HostGlue.SExpr

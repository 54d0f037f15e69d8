import HostGlue.Proofs.SExpr.Spelling

/-!
# Trees that have a layout

A tree is laid out unless something in it has no written form: a leaf without one, or a list
without items. The depth plays no part, since a list that is too wide for one line becomes a block.

`Written` also says of what sort the leaves are, so that whoever shows a tree to be written shows
what its tokens are: `tokens_of_written`.
-/

namespace HostGlue.SExpr

variable {leaf : SExpr → Prop}

mutual

/-- Every list has items, and every leaf has a written form and is of the given sort. -/
def Written (leaf : SExpr → Prop) : SExpr → Prop
  | .unwritable _ => False
  | .list items => items ≠ [] ∧ WrittenAll leaf items
  | t => leaf t

def WrittenAll (leaf : SExpr → Prop) : List SExpr → Prop
  | [] => True
  | x :: rest => Written leaf x ∧ WrittenAll leaf rest

end

theorem writtenAll_append {xs ys : List SExpr} : WrittenAll leaf (xs ++ ys) ↔
    WrittenAll leaf xs ∧ WrittenAll leaf ys := by
  induction xs with
  | nil => simp [WrittenAll]
  | cons x xs ih => rw [List.cons_append, WrittenAll, WrittenAll, ih, and_assoc]

theorem writtenAll_iff {xs : List SExpr} : WrittenAll leaf xs ↔ ∀ x ∈ xs, Written leaf x := by
  induction xs with
  | nil => simp [WrittenAll]
  | cons x xs ih => rw [WrittenAll, ih, List.forall_mem_cons]

section Tokens

variable (sort : Token → Prop)

mutual

/-- Parentheses apart, the tokens of a written tree are those of its leaves. -/
theorem tokens_of_written (opening : sort .opening) (closing : sort .closing)
    (leaves : ∀ t, leaf t → ∀ k ∈ t.tokens, sort k) :
    ∀ {t : SExpr}, Written leaf t → ∀ k ∈ t.tokens, sort k
  | .sym _, h, k, hk => leaves _ h k hk
  | .int _, h, k, hk => leaves _ h k hk
  | .str _, h, k, hk => leaves _ h k hk
  | .comment _, h, k, hk => leaves _ h k hk
  | .unwritable _, h, _, _ => h.elim
  | .list items, h, k, hk => by
      rw [tokens, List.mem_cons, List.mem_append, List.mem_singleton] at hk
      rcases hk with rfl | hk | rfl
      · exact opening
      · exact tokensAll_of_writtenAll opening closing leaves h.2 k hk
      · exact closing

theorem tokensAll_of_writtenAll (opening : sort .opening) (closing : sort .closing)
    (leaves : ∀ t, leaf t → ∀ k ∈ t.tokens, sort k) :
    ∀ {items : List SExpr}, WrittenAll leaf items → ∀ k ∈ tokensAll items, sort k
  | [], _, _, hk => by cases hk
  | _ :: _, h, k, hk => by
      rcases List.mem_append.mp hk with hk | hk
      · exact tokens_of_written opening closing leaves h.1 k hk
      · exact tokensAll_of_writtenAll opening closing leaves h.2 k hk

end

end Tokens

mutual

/-- A tree with legible leaves is legible. -/
theorem legible_of_written (leaves : ∀ t, leaf t → t.isLegible = true) :
    ∀ {t : SExpr}, Written leaf t → t.isLegible = true
  | .sym _, h => leaves _ h
  | .int _, h => leaves _ h
  | .str _, h => leaves _ h
  | .comment _, h => leaves _ h
  | .unwritable _, h => h.elim
  | .list _, h => allLegible_of_writtenAll leaves h.2

theorem allLegible_of_writtenAll (leaves : ∀ t, leaf t → t.isLegible = true) :
    ∀ {items : List SExpr}, WrittenAll leaf items → allLegible items = true
  | [], _ => rfl
  | _ :: _, h => by
      rw [allLegible, legible_of_written leaves h.1, allLegible_of_writtenAll leaves h.2]
      rfl

end

/-- An atom has a text. -/
theorem atom_ok {t : SExpr} (h : Written leaf t) (isAtom : t.isAtom = true) :
    ∃ s, atom t = .ok s := by
  cases t with
  | sym name => exact ⟨_, rfl⟩
  | int value => exact ⟨_, rfl⟩
  | str text => exact ⟨_, rfl⟩
  | comment text => cases isAtom
  | unwritable leaf => exact h.elim
  | list items => cases isAtom

mutual

/-- Without a comment a tree may be put on one line. -/
theorem inline_ok : ∀ {t : SExpr}, Written leaf t → t.hasComment = false → ∃ s, inline t = .ok s
  | .sym _, _, _ => ⟨_, rfl⟩
  | .int _, _, _ => ⟨_, rfl⟩
  | .str _, _, _ => ⟨_, rfl⟩
  | .comment _, _, h => by cases h
  | .unwritable _, h, _ => h.elim
  | .list items, h, free => by
      obtain ⟨parts, hparts⟩ := inlineAll_ok h.2 free
      exact ⟨_, inline_list_eq_ok.mpr ⟨parts, hparts, rfl⟩⟩

theorem inlineAll_ok : ∀ {items : List SExpr}, WrittenAll leaf items →
    anyComment items = false → ∃ parts, inlineAll items = .ok parts
  | [], _, _ => ⟨_, rfl⟩
  | x :: rest, h, free => by
      rw [anyComment_cons, Bool.or_eq_false_iff] at free
      obtain ⟨first, hfirst⟩ := inline_ok h.1 free.1
      obtain ⟨others, hothers⟩ := inlineAll_ok h.2 free.2
      exact ⟨_, inlineAll_cons_eq_ok.mpr ⟨first, hfirst, others, hothers, rfl⟩⟩

end

/-- Whether a list stands on one line is decided without a fault. -/
theorem oneLine?_ok {items : List SExpr} (h : Written leaf (.list items)) (indent : Int) :
    ∃ line?, oneLine? indent items = .ok line? := by
  unfold oneLine?
  cases free : anyComment items with
  | true => exact ⟨none, rfl⟩
  | false =>
      obtain ⟨flat, hflat⟩ := inline_ok h free
      simp only [Bool.false_eq_true, if_false, except_bind_eq_ok]
      by_cases fits : (margin indent).length + flat.length ≤ maxWidth ∨ ¬ items.any isList
      · exact ⟨_, flat, hflat, if_pos fits⟩
      · exact ⟨_, flat, hflat, if_neg fits⟩

mutual

/-- **Written trees have a layout**, at every depth. -/
theorem lines_ok : ∀ {t : SExpr}, Written leaf t → ∀ indent, ∃ ls, lines indent t = .ok ls
  | .sym _, _, _ => ⟨_, rfl⟩
  | .int _, _, _ => ⟨_, rfl⟩
  | .str _, _, _ => ⟨_, rfl⟩
  | .comment _, _, _ => ⟨_, rfl⟩
  | .unwritable _, h, _ => h.elim
  | .list items, h, indent => by
      obtain ⟨line?, fits⟩ := oneLine?_ok h indent
      cases line? with
      | some line => exact ⟨_, lines_list_eq_ok.mpr ⟨h.1, .inl ⟨line, fits, rfl⟩⟩⟩
      | none =>
          obtain ⟨head, body, hblock⟩ := block_ok h.2 (indent + 1)
          exact ⟨_, lines_list_eq_ok.mpr ⟨h.1, .inr ⟨fits, head, body, hblock, rfl⟩⟩⟩

theorem block_ok : ∀ {items : List SExpr}, WrittenAll leaf items → ∀ indent,
    ∃ head body, block indent items = .ok (head, body)
  | [], _, _ => ⟨[], [], rfl⟩
  | x :: rest, h, indent => by
      cases isAtom : x.isAtom with
      | true =>
          obtain ⟨first, hfirst⟩ := atom_ok h.1 isAtom
          obtain ⟨head, body, hrest⟩ := block_ok h.2 indent
          refine ⟨first :: head, body, block_cons_eq_ok.mpr ?_⟩
          rw [isAtom, if_pos rfl]
          exact ⟨first, hfirst, head, hrest, rfl⟩
      | false =>
          obtain ⟨first, hfirst⟩ := lines_ok h.1 indent
          obtain ⟨others, hothers⟩ := allLines_ok h.2 indent
          refine ⟨[], first ++ others, block_cons_eq_ok.mpr ?_⟩
          rw [isAtom, if_neg Bool.false_ne_true]
          exact ⟨rfl, allLines_cons_eq_ok.mpr ⟨first, hfirst, others, hothers, rfl⟩⟩

theorem allLines_ok : ∀ {items : List SExpr}, WrittenAll leaf items → ∀ indent,
    ∃ ls, allLines indent items = .ok ls
  | [], _, _ => ⟨_, rfl⟩
  | _ :: _, h, indent => by
      obtain ⟨first, hfirst⟩ := lines_ok h.1 indent
      obtain ⟨others, hothers⟩ := allLines_ok h.2 indent
      exact ⟨_, allLines_cons_eq_ok.mpr ⟨first, hfirst, others, hothers, rfl⟩⟩

end

/-- A written tree has a text, which spells its tokens. -/
theorem format_ok {t : SExpr} (h : Written leaf t) (indent : Int) :
    ∃ text, format indent t = .ok text ∧
      ∀ after, EndsBefore t after → Spells after t.tokens text := by
  obtain ⟨ls, hls⟩ := lines_ok h indent
  exact ⟨_, except_map_eq_ok.mpr ⟨ls, hls, rfl⟩, fun after ends => lines_spells hls ends⟩

end HostGlue.SExpr

import HostGlue.Proofs.SExpr.ReadBack

/-!
# Reading past comments

Whoever runs a text has no use for its comments. `expressions` drops them between the two stages of
the reader, so that a tree comes back without them.

A remark is a comment no further than its first line. What it holds behind that line is read as
text in its own right, and `strayTokens` are what it adds there: `codeTokens_remark`. A quote in it
takes the text below it along, which is then no text at all if it has no quote of its own.
-/

namespace HostGlue.SExpr

open Reading

/-! ## Trees without comments -/

mutual

/-- The tree without the comments in its lists. -/
def erase : SExpr → SExpr
  | .list items => .list (eraseAll items)
  | leaf => leaf

def eraseAll : List SExpr → List SExpr
  | [] => []
  | x :: rest => if x.isComment then eraseAll rest else erase x :: eraseAll rest

end

/-- The tokens that are no comments. -/
def code (ts : List Token) : List Token := ts.filter (!·.isComment)

theorem code_append (ts us : List Token) : code (ts ++ us) = code ts ++ code us :=
  List.filter_append ts us

mutual

theorem tokens_erase : ∀ {t : SExpr}, t.isComment = false → (erase t).tokens = code t.tokens
  | .sym _, _ => rfl
  | .int _, _ => rfl
  | .str _, _ => rfl
  | .comment _, h => by cases h
  | .unwritable _, _ => rfl
  | .list items, _ => by
      have split : code (.opening :: (tokensAll items ++ [.closing])) =
          .opening :: code (tokensAll items ++ [.closing]) := rfl
      rw [erase, tokens, tokens, tokensAll_eraseAll items, split, code_append]
      rfl

theorem tokensAll_eraseAll : ∀ items : List SExpr,
    tokensAll (eraseAll items) = code (tokensAll items)
  | [] => rfl
  | x :: rest => by
      rw [eraseAll, tokensAll_cons, code_append]
      cases h : x.isComment with
      | true =>
          obtain ⟨text, rfl⟩ : ∃ text, x = .comment text := by
            cases x <;> first | exact ⟨_, rfl⟩ | cases h
          rw [if_pos rfl, tokensAll_eraseAll rest]
          rfl
      | false =>
          rw [if_neg Bool.false_ne_true, tokensAll_cons, tokens_erase h, tokensAll_eraseAll rest]

end

mutual

theorem legible_erase : ∀ {t : SExpr}, t.isLegible = true → (erase t).isLegible = true
  | .sym _, h => h
  | .int _, h => h
  | .str _, h => h
  | .comment _, h => h
  | .unwritable _, h => h
  | .list items, h => @allLegible_eraseAll items h

theorem allLegible_eraseAll : ∀ {items : List SExpr}, allLegible items = true →
    allLegible (eraseAll items) = true
  | [], _ => rfl
  | x :: rest, h => by
      rw [allLegible, Bool.and_eq_true] at h
      rw [eraseAll]
      split
      · exact allLegible_eraseAll h.2
      · rw [allLegible, legible_erase h.1, allLegible_eraseAll h.2]
        rfl

end

mutual

theorem tokens_spelled : ∀ t : SExpr, (spelled t).tokens = t.tokens
  | .sym _ => rfl
  | .int _ => rfl
  | .str _ => rfl
  | .comment _ => rfl
  | .unwritable _ => rfl
  | .list items => by rw [spelled, tokens, tokens, tokensAll_spelledAll items]

theorem tokensAll_spelledAll : ∀ items : List SExpr, tokensAll (spelledAll items) = tokensAll items
  | [] => rfl
  | x :: rest => by
      rw [spelledAll, tokensAll_cons, tokensAll_cons, tokens_spelled x, tokensAll_spelledAll rest]

end

/-! ## The expressions of a text -/

/-- The tokens of a text, comments left out. -/
def codeTokens (text : Text) : Option (List Token) := (scan .between text).map code

/-- The trees in a text, comments left out. -/
def expressions (text : Text) : Option (List SExpr) := (codeTokens text).bind (build [] [])

/-- Trees that were read have the tokens of the text. -/
theorem codeTokens_of_expressions {text : Text} {trees : List SExpr}
    (h : expressions text = some trees) : codeTokens text = some (tokensAll trees) := by
  obtain ⟨ts, hts, built⟩ := Option.bind_eq_some_iff.mp h
  rw [hts, tokensAll_of_build built]
  rfl

/-- A text reads as a tree without its comments exactly if it has the tree's tokens and no other. -/
theorem expressions_eq_iff {text : Text} {t : SExpr} (legible : t.isLegible = true)
    (plain : t.isComment = false) :
    expressions text = some [t.erase.spelled] ↔ codeTokens text = some (code t.tokens) := by
  constructor
  · intro h
    rw [codeTokens_of_expressions h, tokensAll_cons, tokensAll_nil, List.append_nil, tokens_spelled,
      tokens_erase plain]
  · intro h
    have built := build_tokens (legible_erase legible) [] [] []
    rw [List.append_nil] at built
    rw [expressions, h, ← tokens_erase plain, Option.bind_some, built]
    rfl

/-- A text that spells a legible tree has its tokens. -/
theorem codeTokens_of_spells {t : SExpr} {text : Text} (legible : t.isLegible = true)
    (h : Spells [] t.tokens text) : codeTokens text = some (code t.tokens) := by
  rw [codeTokens, scan_of_spells h (legible_tokens legible)]
  rfl

/-! ## Atoms hold no line end -/

/-- The unfinished atom holds no line end. -/
def Reading.Unbroken : Reading → Prop
  | .atom read => CodePoint.char '\n' ∉ read
  | .semicolon read => CodePoint.char '\n' ∉ read
  | _ => True

/-- No atom among the tokens holds a line end. -/
def AtomsUnbroken (ts : List Token) : Prop := ∀ text, .atom text ∈ ts → CodePoint.char '\n' ∉ text

theorem atomsUnbroken_nil : AtomsUnbroken [] := by simp [AtomsUnbroken]

theorem atomsUnbroken_cons {read : Text} (h : CodePoint.char '\n' ∉ read) {ts : List Token}
    (hts : AtomsUnbroken ts) : AtomsUnbroken (.atom read :: ts) := by
  intro text mem
  rcases List.mem_cons.mp mem with same | mem
  · cases same
    exact h
  · exact hts text mem

theorem start_unbroken (c : CodePoint) : (start c).2.Unbroken ∧ AtomsUnbroken (start c).1 := by
  unfold start
  split
  · exact ⟨trivial, atomsUnbroken_nil⟩
  split
  · exact ⟨trivial, by simp [AtomsUnbroken]⟩
  split
  · exact ⟨trivial, by simp [AtomsUnbroken]⟩
  split
  · exact ⟨trivial, atomsUnbroken_nil⟩
  split
  · exact ⟨by simp [Unbroken], atomsUnbroken_nil⟩
  · next blank _ _ _ _ =>
      refine ⟨fun mem => blank ?_, atomsUnbroken_nil⟩
      rw [← List.mem_singleton.mp mem]
      rfl

theorem stepAtom_unbroken {read : Text} (h : CodePoint.char '\n' ∉ read) (c : CodePoint) :
    (stepAtom read c).2.Unbroken ∧ AtomsUnbroken (stepAtom read c).1 := by
  unfold stepAtom
  split
  · next run =>
      refine ⟨fun mem => ?_, atomsUnbroken_nil⟩
      rcases List.mem_append.mp mem with mem | mem
      · exact h mem
      · rw [← List.mem_singleton.mp mem] at run
        cases run
  split
  · exact ⟨h, atomsUnbroken_nil⟩
  · exact ⟨(start_unbroken c).1, atomsUnbroken_cons h (start_unbroken c).2⟩

theorem step_unbroken {s : Reading} (h : s.Unbroken) (c : CodePoint) :
    (s.step c).2.Unbroken ∧ AtomsUnbroken (s.step c).1 := by
  cases s with
  | between => exact start_unbroken c
  | atom read => exact stepAtom_unbroken h c
  | semicolon read =>
      rw [step]
      split
      · refine ⟨trivial, ?_⟩
        split
        · exact atomsUnbroken_nil
        · exact atomsUnbroken_cons h atomsUnbroken_nil
      · refine stepAtom_unbroken (fun mem => ?_) c
        rcases List.mem_append.mp mem with mem | mem
        · exact h mem
        · cases List.mem_singleton.mp mem
  | comment read =>
      rw [step]
      split
      · exact ⟨trivial, by simp [AtomsUnbroken]⟩
      · exact ⟨trivial, atomsUnbroken_nil⟩
  | string read =>
      rw [step]
      split
      · exact ⟨trivial, by simp [AtomsUnbroken]⟩
      split
      · exact ⟨trivial, atomsUnbroken_nil⟩
      · exact ⟨trivial, atomsUnbroken_nil⟩
  | escape read => exact ⟨trivial, atomsUnbroken_nil⟩

/-- No atom that was read holds a line end. -/
theorem scan_unbroken {s : Reading} {text : Text} {ts : List Token} (h : s.Unbroken)
    (hts : scan s text = some ts) : AtomsUnbroken ts := by
  induction text generalizing s ts with
  | nil =>
      cases s with
      | between => cases hts; exact atomsUnbroken_nil
      | atom read => cases hts; exact atomsUnbroken_cons h atomsUnbroken_nil
      | semicolon read =>
          cases hts
          refine atomsUnbroken_cons (fun mem => ?_) atomsUnbroken_nil
          rcases List.mem_append.mp mem with mem | mem
          · exact h mem
          · cases List.mem_singleton.mp mem
      | comment read => cases hts; simp [AtomsUnbroken]
      | string read => cases hts
      | escape read => cases hts
  | cons c text ih =>
      obtain ⟨here, before⟩ := step_unbroken h c
      obtain ⟨us, hus, rfl⟩ := Option.map_eq_some_iff.mp hts
      intro atom mem
      rcases List.mem_append.mp mem with mem | mem
      · exact before atom mem
      · exact ih here hus atom mem

theorem codeTokens_unbroken {text : Text} {ts : List Token} (h : codeTokens text = some ts) :
    AtomsUnbroken ts := by
  obtain ⟨us, hus, rfl⟩ := Option.map_eq_some_iff.mp h
  have between : Reading.between.Unbroken := trivial
  exact fun atom mem => scan_unbroken between hus atom (List.mem_of_mem_filter mem)

/-! ## Remarks of several lines -/

/-- Without a quote a string does not end. -/
theorem scan_open {text : Text} (free : CodePoint.char '"' ∉ text) (read : Text) :
    scan (.string read) text = none ∧ scan (.escape read) text = none := by
  induction text generalizing read with
  | nil => exact ⟨rfl, rfl⟩
  | cons c text ih =>
      rw [List.mem_cons, not_or] at free
      have later (more : Text) := ih free.2 more
      constructor
      · rw [scan_cons, step, if_neg (Ne.symm free.1)]
        split
        · rw [(later _).2]
          rfl
        · rw [(later _).1]
          rfl
      · rw [scan_cons, step, (later _).1]
        rfl

/-- Behind the end of a line the reader starts anew, unless a string is open. -/
theorem scan_line {s : Reading} {line rest : Text} (free : CodePoint.char '"' ∉ rest) :
    scan s (line ++ .char '\n' :: rest) =
      (scan s line).bind fun ts => (scan .between rest).map (ts ++ ·) := by
  induction line generalizing s with
  | nil =>
      cases s with
      | string read =>
          rw [List.nil_append, scan_silent rfl, (scan_open free _).1]
          rfl
      | escape read =>
          rw [List.nil_append, scan_silent rfl, (scan_open free _).1]
          rfl
      | _ => rfl
  | cons c line ih =>
      rw [List.cons_append, scan_cons, ih, scan_cons]
      cases scan (s.step c).2 line with
      | none => rfl
      | some ts =>
          simp only [Option.bind_some, Option.map_some, Option.map_map]
          congr 1
          funext us
          exact (List.append_assoc _ _ _).symm

/-- What stands behind the first line of a remark, from the line end on. -/
def spill : Text → Text
  | [] => []
  | c :: rest => if c = '\n' then c :: rest else spill rest

theorem spill_append {line : Text} (h : CodePoint.char '\n' ∉ line) (rest : Text) :
    spill (line ++ rest) = spill rest := by
  induction line with
  | nil => rfl
  | cons c line ih =>
      rw [List.mem_cons, not_or] at h
      rw [List.cons_append, spill, if_neg (Ne.symm h.1), ih h.2]

/-- A remark is its first line and what stands behind it. -/
theorem exists_line (remark : Text) :
    ∃ line, CodePoint.char '\n' ∉ line ∧ remark = line ++ spill remark ∧
      LineEnds (spill remark) := by
  induction remark with
  | nil => exact ⟨[], List.not_mem_nil, rfl, nofun⟩
  | cons c rest ih =>
      rw [spill]
      split
      · next ends =>
          refine ⟨[], List.not_mem_nil, rfl, fun d hd => ?_⟩
          rw [← Option.some.inj hd, ends]
      · next runs =>
          obtain ⟨line, plain, same, ends⟩ := ih
          refine ⟨c :: line, fun mem => ?_, by rw [List.cons_append, ← same], ends⟩
          rcases List.mem_cons.mp mem with rfl | mem
          · exact runs rfl
          · exact plain mem

/-- What a remark adds to a text: the tokens behind its first line. -/
def strayTokens (remark : Text) : Option (List Token) := codeTokens (spill remark)

/-- A remark of one line adds nothing, whatever stands below it. -/
theorem codeTokens_line {line text : Text} (h : CodePoint.char '\n' ∉ line) (ends : LineEnds text) :
    codeTokens (.char ';' :: .char ';' :: .char ' ' :: (line ++ text)) = codeTokens text := by
  rw [codeTokens, scan_comment h ends, Option.map_map]
  rfl

/-- **What a remark adds stands in front of the text below it**, if that text has no quote. -/
theorem codeTokens_remark {remark text : Text} (free : CodePoint.char '"' ∉ text) :
    codeTokens (.char ';' :: .char ';' :: .char ' ' :: (remark ++ .char '\n' :: text)) =
      (strayTokens remark).bind fun ts => (codeTokens text).map (ts ++ ·) := by
  obtain ⟨line, plain, same, ends⟩ := exists_line remark
  have behind : LineEnds (spill remark ++ .char '\n' :: text) := by
    cases h : spill remark with
    | nil => exact lineEnds_line text
    | cons c rest =>
        intro d hd
        exact ends d (by rwa [h])
  conv_lhs => rw [same, List.append_assoc]
  rw [codeTokens_line plain behind, strayTokens, codeTokens, scan_line free, codeTokens, codeTokens]
  cases scan .between (spill remark) with
  | none => rfl
  | some ts =>
      simp only [Option.bind_some, Option.map_some, Option.map_map]
      congr 1
      funext us
      exact code_append ts us

end HostGlue.SExpr

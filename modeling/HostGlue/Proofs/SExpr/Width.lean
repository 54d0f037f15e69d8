import HostGlue.Proofs.SExpr.Faults
import HostGlue.Proofs.SExpr.ReadBack

/-!
# The width of lines

A line of a layout shows one thing: a comment, the leading atoms that a list opens with, one atom, a
list as a whole, or nothing. What may follow are parentheses that close lists begun on lines above.
`Line` keeps the two apart, and `lines_shows` says of which lines a layout consists; it goes along
the recursion of the formatter, and carries that the last line of an item that is no comment can
take the parenthesis of the list around it.

The formatter measures a line without these parentheses. So a list with lists in it has its line
only if it ends there within the width, but the line may be wider: `lengthBinding_overflows`.
-/

namespace HostGlue.SExpr

/-! ## Lines -/

/-- What a line shows in front of the parentheses that close lists begun above it. -/
inductive Row where
  | comment (text : Text)
  /-- The beginning of a list whose other items stand below: its leading atoms. -/
  | opening (items : List SExpr)
  /-- Nothing, where a list ends behind a comment. -/
  | closing
  | atom (leaf : SExpr)
  /-- A whole list. -/
  | list (items : List SExpr)

namespace Row

def shown : Row → Except LayoutError Text
  | comment text => .ok (";; " ++ text)
  | opening items => ((items.takeWhile isAtom).mapM SExpr.atom).map fun atoms =>
      Text.ofString "(" ++ List.intercalate " " atoms
  | closing => .ok ""
  | atom leaf => SExpr.atom leaf
  | list items => inline (.list items)

/-- What the row shows is part of the tree. -/
def In (t : SExpr) : Row → Prop
  | comment text => .comment text ∈ t.parts
  | opening items => .list items ∈ t.parts
  | closing => ∃ items, .list items ∈ t.parts
  | atom leaf => leaf.isAtom = true ∧ leaf ∈ t.parts
  | list items => .list items ∈ t.parts

/-- A list stands here inside another one that begins on the same line. -/
def nests : Row → Bool
  | list items => items.any isList
  | _ => false

/-- The row may be followed by closing parentheses. -/
def takesClosers : Row → Bool
  | comment _ => false
  | opening _ => false
  | _ => true

/-- The parentheses that close a list begun at the depth of the row. -/
def ownClosers : Row → Nat
  | closing => 1
  | _ => 0

end Row

structure Line where
  depth : Int
  row : Row
  shown : Text
  /-- The number of closing parentheses at the end. -/
  closers : Nat := 0

namespace Line

/-- The line without the closing parentheses at its end. -/
def start (l : Line) : Text := margin l.depth ++ l.shown

def text (l : Line) : Text := l.start ++ List.replicate l.closers (.char ')')

/-- One more list ends on the line. -/
def close (l : Line) : Line := { l with closers := l.closers + 1 }

theorem text_close (l : Line) : l.close.text = l.text ++ ")" := by
  rw [text, text, List.append_assoc]
  congr 1
  simp [close, List.replicate_succ', Text.ofString]

/-- The line belongs to a layout of the tree that begins at the depth. -/
structure Of (t : SExpr) (indent : Int) (l : Line) : Prop where
  part : l.row.In t
  shows : l.row.shown = .ok l.shown
  /-- A line that nests lists is within the width where these lists end. -/
  fits : l.row.nests = true → l.start.length ≤ maxWidth
  ends : l.row.takesClosers = false → l.closers = 0
  closes : l.row.ownClosers ≤ l.closers
  /-- At each step of depth at most one list ends. -/
  begun : (l.closers : Int) ≤ l.depth - indent + l.row.ownClosers

end Line

/-- The lines are those of a layout of the tree, and the last can take a closing parenthesis. -/
def Shows (t : SExpr) (indent : Int) (ls : List Text) : Prop :=
  ∃ ps : List Line, ls = ps.map Line.text ∧ (∀ l ∈ ps, l.Of t indent) ∧
    (t.isComment = false → ∀ l ∈ ps.getLast?, l.row.takesClosers = true)

/-- The lines are those of layouts of the items, one below the other. -/
def ShowsAll (items : List SExpr) (indent : Int) (ls : List Text) : Prop :=
  ∃ ps : List Line, ls = ps.map Line.text ∧ (∀ l ∈ ps, ∃ x ∈ items, l.Of x indent) ∧
    ((∀ x ∈ items.getLast?, x.isComment = false) → ∀ l ∈ ps.getLast?, l.row.takesClosers = true)

/-! ## Items in a list -/

section Items

variable {x : SExpr} {items : List SExpr} {indent : Int} {l : Line}

theorem self_mem_parts (t : SExpr) : t ∈ t.parts := by
  cases t <;> simp [parts]

theorem parts_of_mem (mem : x ∈ items) : x.parts ⊆ parts (.list items) := by
  rw [parts_list]
  refine List.subset_cons_of_subset _ ?_
  induction items with
  | nil => cases mem
  | cons y rest ih =>
      rcases List.mem_cons.mp mem with rfl | mem
      · exact List.subset_append_left _ _
      · exact List.subset_append_of_subset_right _ (ih mem)

mutual

/-- What stands in a part stands in the whole. -/
theorem parts_trans : ∀ {t : SExpr}, x ∈ t.parts → x.parts ⊆ t.parts
  | .list items, mem => by
      rw [parts_list] at mem ⊢
      rcases List.mem_cons.mp mem with rfl | mem
      · exact List.Subset.refl _
      · exact List.subset_cons_of_subset _ (partsAll_trans mem)
  | .sym _, mem => by cases List.mem_singleton.mp mem; exact List.Subset.refl _
  | .int _, mem => by cases List.mem_singleton.mp mem; exact List.Subset.refl _
  | .str _, mem => by cases List.mem_singleton.mp mem; exact List.Subset.refl _
  | .comment _, mem => by cases List.mem_singleton.mp mem; exact List.Subset.refl _
  | .unwritable _, mem => by cases List.mem_singleton.mp mem; exact List.Subset.refl _

theorem partsAll_trans : ∀ {items : List SExpr}, x ∈ partsAll items → x.parts ⊆ partsAll items
  | [], mem => by cases mem
  | y :: rest, mem => by
      rw [partsAll_cons] at mem ⊢
      rcases List.mem_append.mp mem with mem | mem
      · exact List.subset_append_of_subset_left _ (parts_trans mem)
      · exact List.subset_append_of_subset_right _ (partsAll_trans mem)

end

theorem Row.In.mono {t u : SExpr} {row : Row} (h : row.In t) (sub : t.parts ⊆ u.parts) :
    row.In u := by
  cases row with
  | comment text => exact sub h
  | opening items => exact sub h
  | closing => exact h.imp fun items mem => sub mem
  | atom leaf => exact ⟨h.1, sub h.2⟩
  | list items => exact sub h

/-- A line of an item is a line of the list around it. -/
theorem Line.Of.item (h : l.Of x (indent + 1)) (mem : x ∈ items) : l.Of (.list items) indent where
  part := h.part.mono (parts_of_mem mem)
  shows := h.shows
  fits := h.fits
  ends := h.ends
  closes := h.closes
  begun := by
    have := h.begun
    omega

/-- The list around an item may end with the item. -/
theorem Line.Of.item_close (h : l.Of x (indent + 1)) (mem : x ∈ items)
    (takes : l.row.takesClosers = true) : l.close.Of (.list items) indent where
  part := h.part.mono (parts_of_mem mem)
  shows := h.shows
  fits := h.fits
  ends := fun refuses => absurd (takes.symm.trans refuses) (by decide)
  closes := Nat.le_succ_of_le h.closes
  begun := by
    have := h.begun
    simp only [Line.close]
    omega

end Items

/-! ## Layouts line by line -/

theorem closeLast_concat (front : List Text) (line : Text) :
    closeLast (front ++ [line]) = front ++ [line ++ ")"] := by
  induction front with
  | nil => rfl
  | cons first front ih =>
      rw [List.cons_append, closeLast, ih]
      · rfl
      · simp

/-- A block ends on the last line of its items, or on a line of its own behind a comment. -/
theorem close_cases (indent : Int) {items : List SExpr} (ne : items ≠ []) (opened : List Text) :
    (∃ text, items.getLast? = some (.comment text) ∧
      close indent items opened = opened ++ [margin indent ++ ")"]) ∨
    (∀ x ∈ items.getLast?, x.isComment = false) ∧
      close indent items opened = closeLast opened := by
  unfold close
  cases last : items.getLast? with
  | none => exact absurd (List.getLast?_eq_none_iff.mp last) ne
  | some x =>
      cases x with
      | comment text => exact .inl ⟨text, rfl, rfl⟩
      | _ => exact .inr ⟨by simp [isComment], rfl⟩

theorem block_ne_nil {indent : Int} {items : List SExpr} {head body : List Text}
    (h : block indent items = .ok (head, body)) (behind : ∃ x ∈ items, x.isAtom = false) :
    body ≠ [] := by
  induction items generalizing head with
  | nil => simp at behind
  | cons x rest ih =>
      have split := block_cons_eq_ok.mp h
      cases hx : x.isAtom with
      | true =>
          rw [hx, if_pos rfl] at split
          obtain ⟨first, -, head', hrest, rfl⟩ := split
          simp only [List.mem_cons, exists_eq_or_imp, hx, Bool.true_eq_false, false_or] at behind
          exact ih hrest behind
      | false =>
          rw [hx, if_neg Bool.false_ne_true] at split
          exact allLines_ne_nil split.2

/-- The opening line of a block. -/
def openingLine (indent : Int) (items : List SExpr) (head : List Text) : Line where
  depth := indent
  row := .opening items
  shown := "(" ++ List.intercalate " " head

theorem openingLine_of {indent : Int} {items : List SExpr} {head : List Text}
    (h : (items.takeWhile isAtom).mapM SExpr.atom = .ok head) :
    (openingLine indent items head).Of (.list items) indent where
  part := self_mem_parts _
  shows := by
    show Except.map _ _ = _
    rw [h]
    rfl
  fits := nofun
  ends := fun _ => rfl
  closes := Nat.le_refl _
  begun := by simp [openingLine, Row.ownClosers]

theorem openingLine_text (indent : Int) (items : List SExpr) (head : List Text) :
    (openingLine indent items head).text = margin indent ++ "(" ++ List.intercalate " " head := by
  simp [openingLine, Line.text, Line.start, List.append_assoc]

/-- The lines of a block are its opening line, the lines of the items below, and the line behind a
comment at the end. -/
theorem shows_block {indent : Int} {items : List SExpr} {head body : List Text}
    (opens : (items.takeWhile isAtom).mapM SExpr.atom = .ok head)
    (shows : ShowsAll items (indent + 1) body) (ne : body ≠ []) (filled : items ≠ []) :
    Shows (.list items) indent
      (close indent items ((margin indent ++ "(" ++ List.intercalate " " head) :: body)) := by
  obtain ⟨ps, rfl, each, last⟩ := shows
  have first : (openingLine indent items head).Of (.list items) indent := openingLine_of opens
  have item (l : Line) (mem : l ∈ ps) : l.Of (.list items) indent := by
    obtain ⟨x, hx, h⟩ := each l mem
    exact h.item hx
  rw [← openingLine_text indent items head]
  rcases close_cases indent filled _ with ⟨text, -, closed⟩ | ⟨plain, closed⟩
  · let final : Line := { depth := indent, row := .closing, shown := "", closers := 1 }
    have ends : final.Of (.list items) indent :=
      ⟨⟨items, self_mem_parts _⟩, rfl, nofun, nofun, Nat.le_refl _, by simp [final, Row.ownClosers]⟩
    refine ⟨openingLine indent items head :: (ps ++ [final]), ?_, ?_, fun _ => ?_⟩
    · rw [closed]
      simp [final, Line.text, Line.start, Text.ofString]
    · intro l mem
      simp only [List.mem_cons, List.mem_append, List.not_mem_nil, or_false] at mem
      rcases mem with rfl | mem | rfl
      · exact first
      · exact item l mem
      · exact ends
    · rw [← List.cons_append, List.getLast?_concat]
      rintro l ⟨⟩
      rfl
  · have some : ps ≠ [] := by
      rintro rfl
      exact ne rfl
    obtain ⟨front, l, rfl⟩ := (List.eq_nil_or_concat' ps).resolve_left some
    have takes := last plain l (by simp)
    obtain ⟨x, hx, h⟩ := each l (by simp)
    refine ⟨openingLine indent items head :: (front ++ [l.close]), ?_, ?_, fun _ => ?_⟩
    · rw [closed, List.map_append, List.map_singleton, ← List.cons_append, closeLast_concat]
      simp [Line.text_close]
    · intro k mem
      simp only [List.mem_cons, List.mem_append, List.not_mem_nil, or_false] at mem
      rcases mem with rfl | mem | rfl
      · exact first
      · exact item k (List.mem_append_left _ mem)
      · exact h.item_close hx takes
    · rw [← List.cons_append, List.getLast?_concat]
      rintro k ⟨⟩
      exact takes

/-- A layout of one line, at whose end no list closes that begins above. -/
theorem shows_single {t : SExpr} {indent : Int} {row : Row} {shown : Text} (part : row.In t)
    (shows : row.shown = .ok shown)
    (fits : row.nests = true → (margin indent ++ shown).length ≤ maxWidth)
    (own : row.ownClosers = 0) (takes : t.isComment = false → row.takesClosers = true) :
    Shows t indent [margin indent ++ shown] := by
  refine ⟨[{ depth := indent, row, shown }], ?_, ?_, ?_⟩
  · simp [Line.text, Line.start]
  · intro l mem
    obtain rfl := List.mem_singleton.mp mem
    exact ⟨part, shows, fits, fun _ => rfl, Nat.le_of_eq own, by simp [own]⟩
  · rintro plain l ⟨⟩
    exact takes plain

theorem shows_leaf {indent : Int} {leaf : SExpr} {ls : List Text} (isAtom : leaf.isAtom = true)
    (h : (atom leaf).map (fun text => [margin indent ++ text]) = .ok ls) :
    Shows leaf indent ls := by
  obtain ⟨text, htext, rfl⟩ := except_map_eq_ok.mp h
  have part : (Row.atom leaf).In leaf := ⟨isAtom, self_mem_parts leaf⟩
  exact shows_single part htext nofun rfl fun _ => rfl

/-- The line of a list that is put on one is within the width if lists are nested on it. -/
theorem oneLine?_fits {indent : Int} {items : List SExpr} {flat line : Text}
    (hflat : inline (.list items) = .ok flat) (h : oneLine? indent items = .ok (some line))
    (nests : items.any isList = true) : (margin indent ++ flat).length ≤ maxWidth := by
  cases comment : anyComment items with
  | true =>
      rw [oneLine?_of_comment comment] at h
      cases h
  | false =>
      rw [oneLine?_of_free comment, hflat] at h
      change Except.ok (if _ then _ else _) = _ at h
      split at h
      · next fits =>
          rw [List.length_append]
          exact fits.resolve_right (not_not.mpr nests)
      · cases h

theorem shows_oneLine {indent : Int} {items : List SExpr} {line : Text}
    (h : oneLine? indent items = .ok (some line)) : Shows (.list items) indent [line] := by
  obtain ⟨flat, hflat, rfl⟩ := oneLine?_eq_some h
  have part : (Row.list items).In (.list items) := self_mem_parts _
  exact shows_single part hflat (oneLine?_fits hflat h) rfl fun _ => rfl

theorem shows_cons {indent : Int} {x : SExpr} {rest : List SExpr} {first others : List Text}
    (hx : Shows x indent first) (hrest : ShowsAll rest indent others)
    (more : rest ≠ [] → others ≠ []) : ShowsAll (x :: rest) indent (first ++ others) := by
  obtain ⟨ps, rfl, each, last⟩ := hx
  obtain ⟨qs, rfl, eachRest, lastRest⟩ := hrest
  refine ⟨ps ++ qs, List.map_append.symm, ?_, fun plain => ?_⟩
  · intro l mem
    rcases List.mem_append.mp mem with mem | mem
    · exact ⟨x, List.mem_cons_self, each l mem⟩
    · obtain ⟨y, hy, h⟩ := eachRest l mem
      exact ⟨y, List.mem_cons_of_mem _ hy, h⟩
  · cases rest with
    | nil =>
        have none : qs = [] := by
          refine List.eq_nil_iff_forall_not_mem.mpr fun l mem => ?_
          obtain ⟨y, hy, -⟩ := eachRest l mem
          cases hy
        rw [none, List.append_nil]
        exact last (plain x rfl)
    | cons y rest =>
        have some : qs ≠ [] := by
          rintro rfl
          exact more (List.cons_ne_nil _ _) rfl
        rw [List.getLast?_append_of_ne_nil _ some]
        exact lastRest fun z hz => plain z (List.mem_getLast?_cons hz)

mutual

/-- **The lines of a layout**, at every depth. -/
theorem lines_shows : ∀ {indent : Int} {t : SExpr} {ls : List Text},
    lines indent t = .ok ls → Shows t indent ls
  | indent, .comment text, _, h => by
      cases h
      have part : (Row.comment text).In (.comment text) := self_mem_parts _
      rw [List.append_assoc]
      exact shows_single part rfl nofun rfl nofun
  | indent, .list items, _, h => by
      obtain ⟨ne, ⟨line, fits, rfl⟩ | ⟨fits, head, body, hblock, rfl⟩⟩ := lines_list_eq_ok.mp h
      · exact shows_oneLine fits
      · obtain ⟨opens, shows⟩ := block_shows hblock
        exact shows_block opens shows (block_ne_nil hblock (exists_behind_atoms fits)) ne
  | _, .sym _, _, h => shows_leaf rfl (by rwa [lines_leaf rfl rfl] at h)
  | _, .int _, _, h => shows_leaf rfl (by rwa [lines_leaf rfl rfl] at h)
  | _, .str _, _, h => shows_leaf rfl (by rwa [lines_leaf rfl rfl] at h)
  | _, .unwritable _, _, h => shows_leaf rfl (by rwa [lines_leaf rfl rfl] at h)

theorem block_shows : ∀ {indent : Int} {items : List SExpr} {head body : List Text},
    block indent items = .ok (head, body) →
    (items.takeWhile isAtom).mapM SExpr.atom = .ok head ∧ ShowsAll items indent body
  | _, [], _, _, h => by
      cases h
      exact ⟨rfl, [], rfl, by simp, by simp⟩
  | _, x :: rest, _, _, h => by
      have split := block_cons_eq_ok.mp h
      cases hx : x.isAtom with
      | true =>
          rw [hx, if_pos rfl] at split
          obtain ⟨first, hfirst, head', hrest, rfl⟩ := split
          obtain ⟨opens, ps, rfl, each, last⟩ := block_shows hrest
          refine ⟨?_, ps, rfl, ?_, fun plain => ?_⟩
          · rw [List.takeWhile_cons_of_pos hx, List.mapM_cons, hfirst, opens]
            rfl
          · intro l mem
            obtain ⟨y, hy, h⟩ := each l mem
            exact ⟨y, List.mem_cons_of_mem _ hy, h⟩
          · exact last fun y hy => plain y (List.mem_getLast?_cons hy)
      | false =>
          rw [hx, if_neg Bool.false_ne_true] at split
          obtain ⟨rfl, hlines⟩ := split
          refine ⟨?_, allLines_shows hlines⟩
          rw [List.takeWhile_cons_of_neg (by simp [hx])]
          rfl

theorem allLines_shows : ∀ {indent : Int} {items : List SExpr} {ls : List Text},
    allLines indent items = .ok ls → ShowsAll items indent ls
  | _, [], _, h => by
      cases h
      exact ⟨[], rfl, by simp, by simp⟩
  | _, x :: rest, _, h => by
      obtain ⟨first, hfirst, others, hothers, rfl⟩ := allLines_cons_eq_ok.mp h
      refine shows_cons (lines_shows hfirst) (allLines_shows hothers) fun filled => ?_
      obtain ⟨y, more, rfl⟩ := List.exists_cons_of_ne_nil filled
      exact allLines_ne_nil hothers

end

/-! ## Line ends -/

/-- No line end stands in the leaf. -/
def isUnbroken : SExpr → Bool
  | .sym name => CodePoint.char '\n' ∉ name
  | .str text => CodePoint.char '\n' ∉ text
  | .comment text => CodePoint.char '\n' ∉ text
  | _ => true

/-- No line end stands in the leaves. -/
def SingleLine (t : SExpr) : Prop := ∀ x ∈ t.parts, x.isUnbroken = true

instance (t : SExpr) : Decidable t.SingleLine :=
  inferInstanceAs (Decidable (∀ x ∈ t.parts, x.isUnbroken = true))

theorem SingleLine.part {t x : SExpr} (single : t.SingleLine) (h : x ∈ t.parts) : x.SingleLine :=
  fun y mem => single y (parts_trans h mem)

theorem encode_unbroken {text : Text} (h : CodePoint.char '\n' ∉ text) :
    CodePoint.char '\n' ∉ Text.Quoted.encode text := by
  induction text with
  | nil => exact h
  | cons c rest ih =>
      rw [List.mem_cons, not_or] at h
      rw [Text.Quoted.encode]
      split <;> simp [h.1, ih h.2]

theorem atom_unbroken {leaf : SExpr} {text : Text} (unbroken : leaf.isUnbroken = true)
    (h : atom leaf = .ok text) : CodePoint.char '\n' ∉ text := by
  cases leaf with
  | sym name =>
      cases h
      exact of_decide_eq_true unbroken
  | int value =>
      cases h
      intro mem
      have chars := (token_isLegible_atom.mp (token_isLegible_int value)).2 _ mem
      exact absurd chars (by decide)
  | str text =>
      cases h
      have inside := encode_unbroken (of_decide_eq_true unbroken)
      simp [Text.Quoted.quote, inside]
  | comment text => cases h
  | unwritable leaf => cases leaf <;> cases h
  | list items => cases h

theorem spaced_unbroken {texts : List Text} (h : ∀ text ∈ texts, CodePoint.char '\n' ∉ text) :
    CodePoint.char '\n' ∉ [CodePoint.char ' '].intercalate texts := by
  induction texts with
  | nil => simp
  | cons first rest ih =>
      rw [List.forall_mem_cons] at h
      cases rest with
      | nil => simpa using h.1
      | cons second rest =>
          rw [List.intercalate_cons_cons]
          simp only [List.mem_append, not_or]
          exact ⟨⟨h.1, by decide⟩, ih h.2⟩

mutual

theorem inline_unbroken : ∀ {t : SExpr} {text : Text}, inline t = .ok text →
    t.SingleLine → CodePoint.char '\n' ∉ text
  | .list items, _, h, single => by
      obtain ⟨texts, htexts, rfl⟩ := inline_list_eq_ok.mp h
      have inside := spaced_unbroken
        (inlineAll_unbroken htexts fun x mem => single x (List.mem_cons_of_mem _ mem))
      simp [inside, Text.ofString]
  | .sym name, _, h, single => atom_unbroken (single _ (self_mem_parts (.sym name))) h
  | .int value, _, h, single => atom_unbroken (single _ (self_mem_parts (.int value))) h
  | .str text, _, h, single => atom_unbroken (single _ (self_mem_parts (.str text))) h
  | .comment _, _, h, _ => by cases h
  | .unwritable leaf, _, h, _ => by cases leaf <;> cases h

theorem inlineAll_unbroken : ∀ {items : List SExpr} {texts : List Text},
    inlineAll items = .ok texts → (∀ x ∈ partsAll items, x.isUnbroken = true) →
    ∀ text ∈ texts, CodePoint.char '\n' ∉ text
  | [], _, h, _ => by
      cases h
      simp
  | x :: rest, _, h, single => by
      obtain ⟨first, hfirst, others, hothers, rfl⟩ := inlineAll_cons_eq_ok.mp h
      rw [partsAll_cons, List.forall_mem_append] at single
      exact List.forall_mem_cons.mpr
        ⟨inline_unbroken hfirst single.1, inlineAll_unbroken hothers single.2⟩

end

theorem atoms_unbroken {items : List SExpr} {texts : List Text}
    (h : items.mapM atom = .ok texts) (single : ∀ x ∈ items, x.isUnbroken = true) :
    ∀ text ∈ texts, CodePoint.char '\n' ∉ text := by
  induction items generalizing texts with
  | nil =>
      cases h
      simp
  | cons x rest ih =>
      rw [List.forall_mem_cons] at single
      rw [List.mapM_cons] at h
      obtain ⟨first, hfirst, h⟩ := except_bind_eq_ok.mp h
      obtain ⟨others, hothers, h⟩ := except_bind_eq_ok.mp h
      cases h
      exact List.forall_mem_cons.mpr ⟨atom_unbroken single.1 hfirst, ih hothers single.2⟩

theorem Row.shown_unbroken {t : SExpr} {row : Row} {text : Text} (h : row.shown = .ok text)
    (part : row.In t) (single : t.SingleLine) : CodePoint.char '\n' ∉ text := by
  cases row with
  | comment remark =>
      cases h
      have plain : CodePoint.char '\n' ∉ remark := of_decide_eq_true (single _ part)
      simp [plain, Text.ofString]
  | opening items =>
      obtain ⟨texts, htexts, rfl⟩ := except_map_eq_ok.mp h
      have atoms := atoms_unbroken htexts fun x mem =>
        (single.part part) x (parts_of_mem (List.takeWhile_subset _ mem) (self_mem_parts x))
      simp [spaced_unbroken atoms, Text.ofString]
  | closing =>
      cases h
      simp [Text.ofString]
  | atom leaf => exact atom_unbroken (single leaf part.2) h
  | list items => exact inline_unbroken h (single.part part)

theorem Line.Of.unbroken {t : SExpr} {indent : Int} {l : Line} (h : l.Of t indent)
    (single : t.SingleLine) : CodePoint.char '\n' ∉ l.text := by
  have shown := Row.shown_unbroken h.shows h.part single
  simp [Line.text, Line.start, margin, shown]

/-! ## The width of a line -/

theorem Line.length_text (l : Line) : l.text.length = l.start.length + l.closers := by
  simp [Line.text]

/-- **The width of lines.** The text of a tree whose leaves hold no line end consists of such lines.
A line that nests lists is within the width where these end, and is wider exactly if the parentheses
behind them, one for each list begun above that ends here, are more than the columns left. -/
theorem lines_measured {t : SExpr} {indent : Int} {text : Text} (single : t.SingleLine)
    (h : format indent t = .ok text) :
    ∃ ps : List Line, text.splitOn (CodePoint.char '\n') = ps.map Line.text ∧
      ∀ l ∈ ps, l.Of t indent ∧ (l.row.nests = true →
        (maxWidth < l.text.length ↔ maxWidth - l.start.length < l.closers)) := by
  obtain ⟨ls, hlines, rfl⟩ := except_map_eq_ok.mp h
  obtain ⟨ps, rfl, each, -⟩ := lines_shows hlines
  refine ⟨ps, ?_, fun l mem => ⟨each l mem, fun nests => ?_⟩⟩
  · refine List.splitOn_intercalate (CodePoint.char '\n') ?_ ?_
    · intro line mem
      obtain ⟨l, hl, rfl⟩ := List.mem_map.mp mem
      exact (each l hl).unbroken single
    · rintro none
      exact lines_ne_nil hlines (by simpa using none)
  · have fits := (each l mem).fits nests
    rw [Line.length_text]
    omega

/-- The check of a length that is read from the second slot, as the items of a list. -/
def checkedLength : List SExpr :=
  [.sym "call", .sym "$check_overflow", .list [.sym "i64.load", .list [.sym "i32.add",
    .list [.sym "get_global", .sym "$sp"], .list [.sym "i32.const", .int (-32)]]]]

/-- The length is bound once it is checked. -/
def lengthBinding : SExpr := .list [.sym "set_local", .sym "$length0", .list checkedLength]

def lengthBindingText : Text :=
  "  (set_local $length0\n" ++
  "    (call $check_overflow (i64.load (i32.add (get_global $sp) (i32.const -32)))))"

/-- The line of the check, where the binding ends too. -/
def checkedLengthLine : Line where
  depth := 2
  row := .list checkedLength
  shown := "(call $check_overflow (i64.load (i32.add (get_global $sp) (i32.const -32))))"
  closers := 1

theorem lengthBinding_singleLine : lengthBinding.SingleLine := by decide

theorem lengthBinding_format : format 1 lengthBinding = .ok lengthBindingText := by decide +kernel

theorem lengthBinding_measured : lengthBinding.SingleLine ∧
    format 1 lengthBinding = .ok lengthBindingText ∧
    ∃ ps : List Line, lengthBindingText.splitOn (CodePoint.char '\n') = ps.map Line.text ∧
      ∀ l ∈ ps, l.Of lengthBinding 1 ∧ (l.row.nests = true →
        (maxWidth < l.text.length ↔ maxWidth - l.start.length < l.closers)) :=
  ⟨lengthBinding_singleLine, lengthBinding_format,
    lines_measured lengthBinding_singleLine lengthBinding_format⟩

/-- **A line that nests lists may be too wide**: it is measured before the binding ends on it. -/
theorem lengthBinding_overflows : lengthBinding.SingleLine ∧
    format 1 lengthBinding = .ok lengthBindingText ∧
    checkedLengthLine.text ∈ lengthBindingText.splitOn (CodePoint.char '\n') ∧
    checkedLengthLine.Of lengthBinding 1 ∧ checkedLengthLine.row.nests = true ∧
    checkedLengthLine.start.length = maxWidth ∧ maxWidth < checkedLengthLine.text.length := by
  have line : checkedLengthLine.text ∈ lengthBindingText.splitOn (CodePoint.char '\n') := by
    decide +kernel
  have width : checkedLengthLine.start.length = maxWidth := by decide +kernel
  have wide : maxWidth < checkedLengthLine.text.length := by
    rw [Line.length_text, width]
    decide
  have part : checkedLengthLine.row.In lengthBinding :=
    parts_of_mem (List.mem_of_getLast? rfl) (self_mem_parts _)
  refine ⟨lengthBinding_singleLine, lengthBinding_format, line, ?_, rfl, width, wide⟩
  exact ⟨part, rfl, fun _ => Nat.le_of_eq width, nofun, by decide, by decide⟩

end HostGlue.SExpr

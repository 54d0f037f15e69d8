import HostGlue.SExpr.Layout

/-!
# Reading S-expressions

A reader of the text format in two stages. `scan` goes over the code points one at a time and cuts
them into tokens: parentheses, quoted strings, comments up to the end of the line, and atoms, which
are the longest runs of other code points. `build` matches the parentheses.

The reader knows nothing of layout. Comments keep their places among the items of a list. A number
is an atom like any other, so what comes back of a tree is the tree `spelled`.

Matching accepts the tokens of trees and nothing else: `build_tokensAll` and `tokensAll_of_build`.
-/

namespace HostGlue.SExpr

/-! ## Tokens -/

inductive Token where
  | opening
  | closing
  | atom (text : Text)
  | str (text : Text)
  | comment (text : Text)
  deriving Repr, DecidableEq

/-- The code points of a token. -/
def Token.spelling : Token → Text
  | .opening => ['(']
  | .closing => [')']
  | .atom text => text
  | .str text => Text.Quoted.quote text
  | .comment text => .char ';' :: .char ';' :: .char ' ' :: text

def Token.isComment : Token → Bool
  | .comment _ => true
  | _ => false

mutual

/-- The tokens of a tree, in the order in which every layout shows them. -/
def tokens : SExpr → List Token
  | .sym name => [.atom name]
  | .int value => [.atom (toString value)]
  | .str text => [.str text]
  | .comment text => [.comment text]
  | .unwritable _ => []
  | .list items => .opening :: (tokensAll items ++ [.closing])

def tokensAll : List SExpr → List Token
  | [] => []
  | x :: rest => tokens x ++ tokensAll rest

end

@[simp] theorem tokensAll_nil : tokensAll [] = [] := rfl

@[simp] theorem tokensAll_cons (x : SExpr) (rest : List SExpr) :
    tokensAll (x :: rest) = tokens x ++ tokensAll rest := rfl

@[simp] theorem tokensAll_append (xs ys : List SExpr) :
    tokensAll (xs ++ ys) = tokensAll xs ++ tokensAll ys := by
  induction xs with
  | nil => rfl
  | cons x xs ih => rw [List.cons_append, tokensAll_cons, tokensAll_cons, ih, List.append_assoc]

mutual

/-- The tree with every integer as the symbol that it is spelled by. -/
def spelled : SExpr → SExpr
  | .int value => .sym (toString value)
  | .list items => .list (spelledAll items)
  | leaf => leaf

def spelledAll : List SExpr → List SExpr
  | [] => []
  | x :: rest => spelled x :: spelledAll rest

end

/-! ## Cutting a text into tokens -/

def isBlank (p : CodePoint) : Bool := p = ' ' || p = '\t' || p = '\n' || p = '\r'

/-- A code point that runs on in an atom. -/
def isAtomChar (p : CodePoint) : Bool := !isBlank p && p ≠ '(' && p ≠ ')' && p ≠ '"' && p ≠ ';'

/-- Where the reader stands between two code points, with what it has read of an unfinished
token. -/
inductive Reading where
  | between
  | atom (read : Text)
  /-- Behind a semicolon that stands alone so far, with the atom in front of it, if any. -/
  | semicolon (read : Text)
  | comment (read : Text)
  | string (read : Text)
  /-- Behind a backslash in a string. -/
  | escape (read : Text)
  deriving Repr, DecidableEq

namespace Reading

/-- The text of a comment: the blank behind the semicolons does not belong to it. -/
def commentText : Text → Text
  | .char ' ' :: text => text
  | text => text

/-- The tokens that a code point completes, and where the reader stands behind it. -/
def start (c : CodePoint) : List Token × Reading :=
  if isBlank c then ([], .between)
  else if c = '(' then ([.opening], .between)
  else if c = ')' then ([.closing], .between)
  else if c = '"' then ([], .string [])
  else if c = ';' then ([], .semicolon [])
  else ([], .atom [c])

def stepAtom (read : Text) (c : CodePoint) : List Token × Reading :=
  if isAtomChar c then ([], .atom (read ++ [c]))
  else if c = ';' then ([], .semicolon read)
  else (.atom read :: (start c).1, (start c).2)

def step : Reading → CodePoint → List Token × Reading
  | .between, c => start c
  | .atom read, c => stepAtom read c
  | .semicolon read, c =>
    if c = ';' then (if read = [] then [] else [.atom read], .comment [])
    else stepAtom (read ++ [.char ';']) c
  | .comment read, c =>
    if c = '\n' then ([.comment (commentText read)], .between) else ([], .comment (read ++ [c]))
  | .string read, c =>
    if c = '"' then ([.str read], .between)
    else if c = '\\' then ([], .escape read)
    else ([], .string (read ++ [c]))
  | .escape read, c => ([], .string (read ++ [c]))

/-- The token that the end of the text completes; a string has to end before. -/
def finish : Reading → Option (List Token)
  | .between => some []
  | .atom read => some [.atom read]
  | .semicolon read => some [.atom (read ++ [.char ';'])]
  | .comment read => some [.comment (commentText read)]
  | .string _ => none
  | .escape _ => none

end Reading

/-- The tokens of a text, read on from a place. -/
def scan (s : Reading) : Text → Option (List Token)
  | [] => s.finish
  | c :: rest => (scan (s.step c).2 rest).map ((s.step c).1 ++ ·)

/-! ## Matching parentheses -/

/-- The trees that tokens make up. `done` holds the items of the innermost open list so far, `above`
those of the lists around it, from the inside out. -/
def build (above : List (List SExpr)) (done : List SExpr) : List Token → Option (List SExpr)
  | [] => match above with
    | [] => some done
    | _ :: _ => none
  | .opening :: rest => build (done :: above) [] rest
  | .closing :: rest => match above with
    | [] => none
    | outer :: above => build above (outer ++ [.list done]) rest
  | .atom text :: rest => build above (done ++ [.sym text]) rest
  | .str text :: rest => build above (done ++ [.str text]) rest
  | .comment text :: rest => build above (done ++ [.comment text]) rest

/-- The trees in a text. -/
def read (text : Text) : Option (List SExpr) := (scan .between text).bind (build [] [])

/-- The number of lists that are open behind the tokens, unless one is closed that was not open. -/
def openAfter (opened : Nat) : List Token → Option Nat
  | [] => some opened
  | .opening :: rest => openAfter (opened + 1) rest
  | .closing :: rest => match opened with
    | 0 => none
    | opened + 1 => openAfter opened rest
  | _ :: rest => openAfter opened rest

/-- The parentheses of a text balance, those in strings and comments left aside. -/
def Balanced (text : Text) : Prop := (scan .between text).bind (openAfter 0) = some 0

/-! ## Legible trees -/

mutual

/-- Every symbol is an atom that ends where the symbol ends, every comment fits on a line, and every
leaf has a written form. -/
def isLegible : SExpr → Bool
  | .sym name => !name.isEmpty && name.all isAtomChar
  | .comment text => CodePoint.char '\n' ∉ text
  | .unwritable _ => false
  | .list items => allLegible items
  | _ => true

def allLegible : List SExpr → Bool
  | [] => true
  | x :: rest => isLegible x && allLegible rest

end

def Token.isLegible : Token → Bool
  | .atom text => !text.isEmpty && text.all isAtomChar
  | .comment text => CodePoint.char '\n' ∉ text
  | _ => true

/-! ## Matching is undone by listing the tokens -/

mutual

theorem build_tokens : ∀ {t : SExpr}, t.isLegible → ∀ (above : List (List SExpr))
    (done : List SExpr) (rest : List Token),
    build above done (tokens t ++ rest) = build above (done ++ [t.spelled]) rest
  | .sym _, _, _, _, _ => rfl
  | .int _, _, _, _, _ => rfl
  | .str _, _, _, _, _ => rfl
  | .comment _, _, _, _, _ => rfl
  | .list items, h, above, done, rest => by
      have inner := build_tokensAll (t := items) h (done :: above) [] (.closing :: rest)
      rw [List.nil_append] at inner
      rw [tokens, List.cons_append, List.append_assoc, List.singleton_append, build, inner, build]
      rfl

theorem build_tokensAll : ∀ {t : List SExpr}, allLegible t → ∀ (above : List (List SExpr))
    (done : List SExpr) (rest : List Token),
    build above done (tokensAll t ++ rest) = build above (done ++ spelledAll t) rest
  | [], _, above, done, rest => by rw [spelledAll, List.append_nil]; rfl
  | x :: xs, h, above, done, rest => by
      rw [allLegible, Bool.and_eq_true] at h
      obtain ⟨hx, hxs⟩ := h
      rw [tokensAll_cons, List.append_assoc, build_tokens hx, build_tokensAll hxs,
        List.append_assoc]
      rfl

end

/-- The tokens of the lists that are still open, each up to the parenthesis of the next. -/
def tokensAbove : List (List SExpr) → List Token
  | [] => []
  | outer :: above => tokensAbove above ++ (tokensAll outer ++ [.opening])

/-- Trees that were built have the tokens that they were built from. -/
theorem tokensAll_of_build {ts : List Token} {above : List (List SExpr)} {done trees : List SExpr}
    (h : build above done ts = some trees) :
    tokensAll trees = tokensAbove above ++ (tokensAll done ++ ts) := by
  induction ts generalizing above done with
  | nil =>
      cases above with
      | nil =>
          cases h
          rw [List.append_nil]
          rfl
      | cons outer above => cases h
  | cons k ts ih =>
      cases k with
      | opening =>
          rw [ih h]
          simp [tokensAbove]
      | closing =>
          cases above with
          | nil => cases h
          | cons outer above =>
              rw [ih h]
              simp [tokensAbove, tokens]
      | atom text =>
          rw [ih h]
          simp [tokens]
      | str text =>
          rw [ih h]
          simp [tokens]
      | comment text =>
          rw [ih h]
          simp [tokens]

mutual

theorem openAfter_tokens : ∀ (t : SExpr) (opened : Nat) (rest : List Token),
    openAfter opened (tokens t ++ rest) = openAfter opened rest
  | .sym _, _, _ => rfl
  | .int _, _, _ => rfl
  | .str _, _, _ => rfl
  | .comment _, _, _ => rfl
  | .unwritable _, _, _ => rfl
  | .list items, opened, rest => by
      have inner := openAfter_tokensAll items (opened + 1) (.closing :: rest)
      rw [tokens, List.cons_append, List.append_assoc, List.singleton_append, openAfter, inner,
        openAfter]

theorem openAfter_tokensAll : ∀ (t : List SExpr) (opened : Nat) (rest : List Token),
    openAfter opened (tokensAll t ++ rest) = openAfter opened rest
  | [], _, _ => rfl
  | x :: xs, opened, rest => by
      rw [tokensAll_cons, List.append_assoc, openAfter_tokens, openAfter_tokensAll]

end

/-- A text with the tokens of legible trees is read as these trees. -/
theorem read_of_scan {text : Text} {t : List SExpr} (legible : allLegible t)
    (h : scan .between text = some (tokensAll t)) : read text = some (spelledAll t) := by
  have all := build_tokensAll legible [] [] []
  rw [List.append_nil, List.nil_append] at all
  rw [read, h, Option.bind_some, all, build]

theorem balanced_of_scan {text : Text} {t : List SExpr}
    (h : scan .between text = some (tokensAll t)) : Balanced text := by
  have all := openAfter_tokensAll t 0 []
  rw [List.append_nil] at all
  rw [Balanced, h, Option.bind_some, all, openAfter]

end HostGlue.SExpr

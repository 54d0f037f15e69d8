import HostGlue.SExpr.Basic
import HostGlue.Text.Quoted

/-!
# Layout of S-expressions

A tree becomes lines of text. A list without comments stands on one line if that line is at most
`maxWidth` columns wide or if the list has no list among its items. Any other list is opened by its
leading atoms; each further item begins on a line of its own, one step deeper, and the closing
parenthesis ends the last of these lines. A comment line cannot take it, so after a comment the
parenthesis has a line to itself.

The width test does not count closing parentheses that an enclosing list adds later.
-/

namespace HostGlue.SExpr

/-- The greatest width of a list on one line. -/
def maxWidth : Nat := 80

/-- The blank start of a line: two columns for each step, none at a negative depth. -/
def margin (indent : Int) : Text := List.replicate (2 * indent.toNat) ' '

/-- What stands where an atom is expected and is no atom. -/
inductive NonAtom where
  | other (typeName : String)
  | comment
  | list
  deriving Repr, DecidableEq

/-- Why a tree has no text. -/
inductive LayoutError where
  | boolean
  | unsupported (found : NonAtom)
  | emptyList
  deriving Repr, DecidableEq

def NonAtom.text : NonAtom → String
  | .other typeName => typeName
  | .comment => "<class 'wastgen.ir.Comment'>"
  | .list => "<class 'list'>"

def LayoutError.message : LayoutError → String
  | .boolean => "bool is not a WAT atom"
  | .unsupported found => "Unsupported S-expression node type: " ++ found.text
  | .emptyList => "empty S-expression"

/-- The text of an atom: a symbol by its name, an integer in decimal, a string in quotes. -/
def atom : SExpr → Except LayoutError Text
  | .sym name => .ok name
  | .int value => .ok (toString value)
  | .str text => .ok (Text.Quoted.quote text)
  | .unwritable .boolean => .error .boolean
  | .unwritable (.other typeName) => .error (.unsupported (.other typeName))
  | .comment _ => .error (.unsupported .comment)
  | .list _ => .error (.unsupported .list)

mutual

/-- The tree on one line. -/
def inline : SExpr → Except LayoutError Text
  | .list items => do
    let parts ← inlineAll items
    return "(" ++ List.intercalate " " parts ++ ")"
  | leaf => atom leaf

/-- Each of the trees on one line. -/
def inlineAll : List SExpr → Except LayoutError (List Text)
  | [] => return []
  | x :: rest => do
    let first ← inline x
    let others ← inlineAll rest
    return first :: others

end

/-- The line that holds the whole list, if the list may stand on one line at this depth. -/
def oneLine? (indent : Int) (items : List SExpr) : Except LayoutError (Option Text) :=
  if anyComment items then .ok none
  else do
    let flat ← inline (.list items)
    if (margin indent).length + flat.length ≤ maxWidth ∨ ¬ items.any isList then
      return some (margin indent ++ flat)
    else
      return none

/-- The lines with a closing parenthesis at the end of the last. -/
def closeLast : List Text → List Text
  | [] => []
  | [line] => [line ++ ")"]
  | line :: rest => line :: closeLast rest

/-- The lines of a list that was opened at this depth, closed behind its last item. -/
def close (indent : Int) (items : List SExpr) (opened : List Text) : List Text :=
  match items.getLast? with
  | some (.comment _) => opened ++ [margin indent ++ ")"]
  | _ => closeLast opened

mutual

/-- The lines of a tree at the given depth. -/
def lines : Int → SExpr → Except LayoutError (List Text)
  | indent, .comment text => .ok [margin indent ++ ";; " ++ text]
  | _, .list [] => .error .emptyList
  | indent, .list (x :: rest) => do
    match ← oneLine? indent (x :: rest) with
    | some line => return [line]
    | none =>
      let (head, body) ← block (indent + 1) (x :: rest)
      return close indent (x :: rest) ((margin indent ++ "(" ++ List.intercalate " " head) :: body)
  | indent, leaf => do
    let text ← atom leaf
    return [margin indent ++ text]

/-- The leading atoms of the items, and the lines of the items behind them. -/
def block : Int → List SExpr → Except LayoutError (List Text × List Text)
  | _, [] => return ([], [])
  | indent, x :: rest =>
    if x.isAtom then do
      let first ← atom x
      let (head, body) ← block indent rest
      return (first :: head, body)
    else do
      let first ← lines indent x
      let others ← allLines indent rest
      return ([], first ++ others)

/-- The lines of the items, one item after the other. -/
def allLines : Int → List SExpr → Except LayoutError (List Text)
  | _, [] => return []
  | indent, x :: rest => do
    let first ← lines indent x
    let others ← allLines indent rest
    return first ++ others

end

/-- The text of a tree at the given depth. -/
def format (indent : Int) (tree : SExpr) : Except LayoutError Text :=
  (lines indent tree).map (List.intercalate "\n" ·)

end HostGlue.SExpr

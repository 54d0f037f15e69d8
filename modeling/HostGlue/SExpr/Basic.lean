import HostGlue.Text.CodePoint

/-!
# S-expressions

The trees that generated text is laid out from. A list holds symbols, integers, strings, comment
lines and further lists. A tree that was not built by this library may also hold leaves that have
no written form; they are kept apart as `Unwritable`, so that refusing them is a rule of the
formatter and not of the tree.
-/

namespace HostGlue

/-- Leaves without a written form: truth values, and what is no leaf of this format at all, by the
name of its type. -/
inductive Unwritable where
  | boolean
  | other (typeName : String)
  deriving Repr, DecidableEq

inductive SExpr where
  | sym (name : Text)
  | int (value : Int)
  | str (text : Text)
  | comment (text : Text)
  | unwritable (leaf : Unwritable)
  | list (items : List SExpr)
  deriving Repr

namespace SExpr

/-- A leaf that may stand on the opening line of a list. -/
def isAtom : SExpr → Bool
  | .comment _ => false
  | .list _ => false
  | _ => true

def isList : SExpr → Bool
  | .list _ => true
  | _ => false

def isComment : SExpr → Bool
  | .comment _ => true
  | _ => false

mutual

/-- A comment stands somewhere in the tree. -/
def hasComment : SExpr → Bool
  | .comment _ => true
  | .list items => anyComment items
  | _ => false

/-- A comment stands somewhere in one of the trees. -/
def anyComment : List SExpr → Bool
  | [] => false
  | x :: rest => hasComment x || anyComment rest

end

@[simp] theorem anyComment_nil : anyComment [] = false := rfl

@[simp] theorem anyComment_cons (x : SExpr) (rest : List SExpr) :
    anyComment (x :: rest) = (hasComment x || anyComment rest) := rfl

@[simp] theorem hasComment_list (items : List SExpr) :
    hasComment (.list items) = anyComment items := rfl

theorem anyComment_eq_any (items : List SExpr) : anyComment items = items.any hasComment := by
  induction items with
  | nil => rfl
  | cons x rest ih => simp [ih]

end SExpr

end HostGlue

/-!
# Paths

A path as it is written: where it starts and the components that follow. Empty components and single
dots are dropped when a path is read. Double dots are kept, since what they mean depends on the tree
that the path is followed in.
-/

namespace HostGlue.Files

/-- Where a path starts: at the working directory, at the root, or at a root written with exactly
two slashes, which is the same place and keeps its spelling. -/
inductive Anchor where
  | relative
  | root
  | doubleRoot
  deriving Repr, DecidableEq

def Anchor.text : Anchor → String
  | relative => ""
  | root => "/"
  | doubleRoot => "//"

structure Path where
  anchor : Anchor
  parts : List String
  deriving Repr, DecidableEq

/-- The pieces between the slashes. -/
def splitSlashes : List Char → List (List Char)
  | [] => [[]]
  | c :: rest =>
    if c = '/' then [] :: splitSlashes rest
    else match splitSlashes rest with
      | [] => [[c]]
      | first :: others => (c :: first) :: others

def anchorOf : List Char → Anchor
  | '/' :: '/' :: '/' :: _ => .root
  | '/' :: '/' :: _ => .doubleRoot
  | '/' :: _ => .root
  | _ => .relative

namespace Path

/-- Reads a path. -/
def ofString (s : String) : Path where
  anchor := anchorOf s.toList
  parts := ((splitSlashes s.toList).map String.ofList).filter fun p => p ≠ "" ∧ p ≠ "."

/-- The path's text; the working directory is a dot. -/
def text (p : Path) : String :=
  if p.anchor = .relative ∧ p.parts = [] then "."
  else p.anchor.text ++ "/".intercalate p.parts

/-- The system cannot be asked for the path, since a null character ends what it is told. -/
def hasNull (p : Path) : Bool := p.parts.any fun part => part.toList.contains '\x00'

/-- The entry of the given name below the path. -/
def child (p : Path) (name : String) : Path := { p with parts := p.parts ++ [name] }

/-- The last component. -/
def name (p : Path) : String := p.parts.getLast?.getD ""

def parent (p : Path) : Path := { p with parts := p.parts.dropLast }

/-- The path next to this one whose name has the given ending more. -/
def withEnding (p : Path) (ending : String) : Path := p.parent.child (p.name ++ ending)

/-- One component followed without a look at the tree: double dots take the last component back. -/
def follow (parts : List String) (part : String) : List String :=
  if part = ".." then parts.dropLast else parts ++ [part]

theorem parent_child (p : Path) (name : String) : (p.child name).parent = p := by
  simp [child, parent]

theorem name_child (p : Path) (name : String) : (p.child name).name = name := by
  simp [child, Path.name]

end Path

end HostGlue.Files

import HostGlue.Text.CodePoint

/-!
# Nodes of generated code

The vocabulary of the generated functions: constants, accesses to globals and locals, plain
instructions with operands, loads, stores and calls, and around them comment lines, sequences,
functions and host imports. Names and value types are kept as they are spelled. The value of a
constant is an integer and never a truth value, which has no written form.

A sequence groups nodes without a trace in the output: it is dissolved where it stands at the top
or directly in a function body, and it has no meaning as an operand.
-/

namespace HostGlue.Wat

/-- The import of a host function under a local name. -/
structure Import where
  module : Text
  field : Text
  name : String
  params : List String
  result : Option String
  deriving Repr, DecidableEq

inductive Node where
  | const (valtype : String) (value : Int)
  | getGlobal (name : String)
  | getLocal (name : String)
  | setLocal (name : String) (value : Node)
  | instr (op : String) (args : List Node)
  | load (valtype : String) (addr : Node)
  | store (valtype : String) (addr value : Node)
  | call (target : String) (args : List Node)
  | note (text : Text)
  | seq (items : List Node)
  | func (name : String) (params locals : List (String × String)) (body : List Node)
  | hostImport (spec : Import)
  /-- A node of no kind, for which there is no code. -/
  | blank
  deriving Repr

/-- The nodes with every sequence among them replaced by its items, repeatedly. -/
def flatten : List Node → List Node
  | [] => []
  | .seq items :: rest => flatten items ++ flatten rest
  | node :: rest => node :: flatten rest

end HostGlue.Wat

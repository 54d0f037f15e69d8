import HostGlue.SExpr.Layout
import HostGlue.Wat.Node

/-!
# From nodes to text

A node is lowered to one S-expression, and the formatter turns that into text. Top-level nodes are
taken one at a time: the first is lowered and formatted before the second is looked at, so of two
faults the one in the earlier node is reported.
-/

namespace HostGlue.Wat

/-- Why nodes have no text. -/
inductive RenderError where
  | blankNode
  | sequenceAsOperand
  | layout (cause : SExpr.LayoutError)
  deriving Repr, DecidableEq

def RenderError.message : RenderError → String
  | .blankNode => ""
  | .sequenceAsOperand => "Seq has no single S-expression; use flatten()"
  | .layout cause => cause.message

/-- A named and typed parameter or local. -/
def declaration (head : String) (d : String × String) : SExpr :=
  .list [.sym head, .sym d.1, .sym d.2]

/-- The tree of an import. -/
def Import.lower (i : Import) : SExpr :=
  let params := if i.params.isEmpty then [] else
    [.list (.sym "param" :: i.params.map fun (valtype : String) => .sym valtype)]
  let result := match i.result with
    | some valtype => [.list [.sym "result", .sym valtype]]
    | none => []
  .list [.sym "import", .str i.module, .str i.field,
    .list (.sym "func" :: .sym i.name :: (params ++ result))]

mutual

/-- The tree of a node. -/
def lower : Node → Except RenderError SExpr
  | .const valtype value => return .list [.sym ↑(valtype ++ ".const"), .int value]
  | .getGlobal name => return .list [.sym "get_global", .sym name]
  | .getLocal name => return .list [.sym "get_local", .sym name]
  | .setLocal name value => do
    let v ← lower value
    return .list [.sym "set_local", .sym name, v]
  | .instr op args => do
    let operands ← lowerAll args
    return .list (.sym op :: operands)
  | .load valtype addr => do
    let a ← lower addr
    return .list [.sym ↑(valtype ++ ".load"), a]
  | .store valtype addr value => do
    let a ← lower addr
    let v ← lower value
    return .list [.sym ↑(valtype ++ ".store"), a, v]
  | .call target args => do
    let operands ← lowerAll args
    return .list (.sym "call" :: .sym target :: operands)
  | .note text => return .comment text
  | .seq _ => .error .sequenceAsOperand
  | .func name params locals body => do
    let statements ← lowerBody body
    return .list (.sym "func" :: .sym name ::
      (params.map (declaration "param") ++ locals.map (declaration "local") ++ statements))
  | .hostImport spec => return spec.lower
  | .blank => .error .blankNode

/-- The trees of operands, each node one tree. -/
def lowerAll : List Node → Except RenderError (List SExpr)
  | [] => return []
  | node :: rest => do
    let first ← lower node
    let others ← lowerAll rest
    return first :: others

/-- The trees of a function body, in which sequences are dissolved. -/
def lowerBody : List Node → Except RenderError (List SExpr)
  | [] => return []
  | .seq items :: rest => do
    let first ← lowerBody items
    let others ← lowerBody rest
    return first ++ others
  | node :: rest => do
    let first ← lower node
    let others ← lowerBody rest
    return first :: others

end

/-- The text of one node that is no sequence. -/
def renderNode (node : Node) : Except RenderError Text := do
  let tree ← lower node
  (tree.format 0).mapError .layout

/-- The text of top-level nodes, sequences dissolved, one node below the other. -/
def render (nodes : List Node) : Except RenderError Text := do
  let texts ← (flatten nodes).mapM renderNode
  return List.intercalate "\n" texts

end HostGlue.Wat

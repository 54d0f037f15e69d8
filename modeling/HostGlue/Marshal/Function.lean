import HostGlue.Marshal.Result
import HostGlue.Wat.Lowering

/-!
# Generated functions

The function of one opcode in one mode: the operands' prelude, the host call and the code behind it,
under a header of comment lines. With it goes the import of the host function it calls.
-/

namespace HostGlue

/-- An entry of a generated document: code, and the import it needs if it was generated. -/
structure Artifact where
  code : Text
  imports : Option Text := none
  deriving Repr, DecidableEq

namespace Marshal

open Machine Wat Interface

/-- Why an opcode has no function. -/
inductive CompileError where
  | operand (cause : OperandError)
  | slot (cause : SlotError)
  | render (cause : RenderError)
  deriving Repr, DecidableEq

def CompileError.message : CompileError → String
  | .operand cause => cause.message
  | .slot cause => cause.message
  | .render cause => cause.message

/-- The comment lines above a function. -/
def header (d : Descriptor) (ctx : Context) : List Node :=
  .note ctx.banner :: match d.note with
    | some text => if text.isEmpty then [] else [.note ("known defect: " ++ text)]
    | none => []

/-- The function as a tree. -/
def buildFunction (opcode : String) (d : Descriptor) (mode : Mode) (ctx : Context) :
    Except CompileError Node := do
  let plan ← (planOperands opcode d ctx).mapError .operand
  let result ← (marshalResult opcode d mode plan ctx).mapError .slot
  let params := if takesCallback d mode then [(ctx.callbackLocal, "i32")] else []
  return .func ("$" ++ opcode) params plan.locals (.seq plan.prelude :: result)

/-- The function and its import as text. -/
def compileFunction (opcode : String) (d : Descriptor) (mode : Mode) (ctx : Context) :
    Except CompileError Artifact := do
  let func ← buildFunction opcode d mode ctx
  let code ← (render (header d ctx ++ [func])).mapError .render
  let imports ← (render [.hostImport (hostImport d mode ctx)]).mapError .render
  return { code, imports := some imports }

end Marshal

end HostGlue

import HostGlue.Document.Basic
import HostGlue.Interface.Bundled

/-!
# Generation

Both documents are generated from one manifest and one set of fragments, the synchronous one first.
Their names have to agree, since a machine looks an opcode up under the same name in either.
-/

namespace HostGlue

open Interface Machine Marshal

/-- The documents of both modes. -/
structure Documents where
  sync : Document
  async : Document

namespace Documents

def get (docs : Documents) : Mode → Document
  | .sync => docs.sync
  | .async => docs.async

end Documents

inductive GenerationError where
  | compile (cause : CompileError)
  | keyedDifferently
  deriving Repr, DecidableEq

def GenerationError.message : GenerationError → String
  | .compile cause => cause.message
  | .keyedDifferently => "sync and async documents are keyed differently"

/-- Adds the functions of the opcodes to a document. -/
def compileOpcodes (mode : Mode) (ctx : Context) (doc : Document) :
    List (String × Descriptor) → Except CompileError Document
  | [] => return doc
  | (opcode, d) :: rest => do
    let artifact ← compileFunction opcode d mode ctx
    compileOpcodes mode ctx (doc.insert opcode artifact) rest

/-- The generated document of a mode. -/
def generateDocument (m : Manifest) (mode : Mode) (ctx : Context) : Except CompileError Document :=
  compileOpcodes mode ctx NameMap.empty m.opcodes

/-- The module that host functions are imported from: the given one, unless it is empty. -/
def chooseHostModule (m : Manifest) : Option Text → Text
  | some module => if module.isEmpty then m.hostModule else module
  | none => m.hostModule

/-- Both documents, fragments merged. -/
def generateDocuments (m : Manifest) (fragments : Fragments) (ctx : Context)
    (hostModule : Option Text) : Except GenerationError Documents := do
  let ctx := ctx.withHostModule (chooseHostModule m hostModule)
  let sync ← (generateDocument m .sync ctx).mapError .compile
  let async ← (generateDocument m .async ctx).mapError .compile
  let docs : Documents := ⟨Document.merge sync fragments, Document.merge async fragments⟩
  if NameMap.sameNames docs.sync docs.async then return docs
  else throw .keyedDifferently

end HostGlue

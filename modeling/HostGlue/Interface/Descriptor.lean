import HostGlue.Interface.Kind
import HostGlue.Text.CodePoint

/-!
# Interface descriptors

One entry of the host interface: the host function an opcode calls, its parameters in stack order,
its results, and whether the host answers through a continuation. A descriptor in use has at most
one result, but the type does not ask for it; the manifest reader does.
-/

namespace HostGlue.Interface

structure Descriptor where
  name : String
  isAsync : Bool := false
  inputs : List ParamKind := []
  outputs : List ReturnKind := []
  note : Option Text := none
  deriving Repr, DecidableEq

/-- The kind of the result, if there is one. -/
def Descriptor.result (d : Descriptor) : Option ReturnKind := d.outputs.head?

/-- The host interface: the module its functions are imported from, and the entry of each opcode in
the order of declaration. -/
structure Manifest where
  hostModule : Text
  opcodes : List (String × Descriptor)
  deriving Repr, DecidableEq

namespace Manifest

def names (m : Manifest) : List String := m.opcodes.map (·.1)

def get? (m : Manifest) (opcode : String) : Option Descriptor := m.opcodes.lookup opcode

end Manifest

end HostGlue.Interface

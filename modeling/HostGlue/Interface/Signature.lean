import HostGlue.Interface.Descriptor
import HostGlue.Machine.Context
import HostGlue.Wat.Node

/-!
# Import signatures

The type under which a host function is imported. Every parameter is an `i32` except a 64-bit value;
a result wider than 64 bits comes back through one further `i32`, the location to write to; in the
asynchronous variant of an asynchronous function the continuation is the last parameter.
-/

namespace HostGlue.Interface

/-- The function is handed a continuation. -/
def takesCallback (d : Descriptor) (mode : Mode) : Bool := mode = .async && d.isAsync

def ParamKind.valtype (k : ParamKind) : String := if k = .i64 then "i64" else "i32"

def importParams (d : Descriptor) (mode : Mode) : List String :=
  d.inputs.map (·.valtype)
    ++ (d.outputs.filter (¬ ·.byValue)).map (fun _ => "i32")
    ++ (if takesCallback d mode then ["i32"] else [])

/-- The value type of a result that the host returns. -/
def importResult (d : Descriptor) : Option String :=
  match d.result with
  | some .i32 => some "i32"
  | some .i64 => some "i64"
  | _ => none

/-- The import of the descriptor's function. -/
def hostImport (d : Descriptor) (mode : Mode) (ctx : Machine.Context) : Wat.Import where
  module := ctx.hostModule
  field := d.name
  name := "$" ++ d.name
  params := importParams d mode
  result := importResult d

end HostGlue.Interface

import HostGlue.Interface.Descriptor
import HostGlue.Marshal.Slot

/-!
# Operands of a host call

The inputs of a descriptor are read off the operand stack from left to right. A cursor holds the
slot of the next operand, which moves down by one slot with each operand, and the memory offset that
still waits for its length. What the walk leaves behind is a plan: the arguments of the host call,
the locals they use, and the code that has to run before the call.

An output pointer takes no operand: it points at the slot above the next operand, for the host to
fill, and leaves the cursor where it was. In a reconciled opcode each length is followed by two
operands that the host call does not take; the plan lists their slots.
-/

namespace HostGlue.Marshal

open Machine Wat Interface

/-- Why a descriptor's inputs have no plan. -/
inductive OperandError where
  | slot (cause : SlotError)
  | lengthWithoutOffset (opcode : String)
  deriving Repr, DecidableEq

def OperandError.message : OperandError → String
  | .slot cause => cause.message
  | .lengthWithoutOffset opcode => opcode ++ ": length without a preceding offset"

structure OperandPlan where
  args : List Node
  locals : List (String × String) := []
  prelude : List Node := []
  /-- The slot of the cursor behind the last input. -/
  offset : Int
  reconciledSlots : List Int := []
  deriving Repr

/-- The slot of the result: one above the slot behind the last input. -/
def OperandPlan.resultSlot (p : OperandPlan) : Int := p.offset + 1

structure Cursor where
  offset : Int := 0
  /-- The number of offset and length pairs completed. -/
  pairs : Nat := 0
  /-- The local of the offset that has no length yet. -/
  pending : Option String := none
  args : List Node := []
  locals : List (String × String) := []
  prelude : List Node := []
  reconciled : List Int := []
  deriving Repr

namespace Cursor

def toPlan (cur : Cursor) : OperandPlan where
  args := cur.args
  locals := cur.locals
  prelude := cur.prelude
  offset := cur.offset
  reconciledSlots := cur.reconciled

def pass (cur : Cursor) (arg : Node) : Cursor := { cur with args := cur.args ++ [arg] }

/-- Moves on to the operand below. -/
def descend (cur : Cursor) : Cursor := { cur with offset := cur.offset - 1 }

/-- Skips an operand that the host call does not take. -/
def drop (cur : Cursor) : Cursor :=
  { cur with offset := cur.offset - 1, reconciled := cur.reconciled ++ [cur.offset - 1] }

def byReference (ctx : Context) (cur : Cursor) : Cursor := cur.pass (slotAddr ctx cur.offset 0)

/-- Points at the slot above the cursor and leaves the cursor on it. -/
def outputPointer (ctx : Context) (cur : Cursor) : Cursor :=
  { cur with offset := cur.offset + 1 }.byReference ctx

def scalar (ctx : Context) (checker : String) (cur : Cursor) : Except OperandError Cursor := do
  let value ← (narrow ctx checker cur.offset).mapError .slot
  return cur.pass value

def offsetName (pair : Nat) : String := "$offset" ++ toString pair

def lengthName (pair : Nat) : String := "$length" ++ toString pair

/-- Binds a memory offset to a local, to be charged and rebased when its length is known. -/
def memoryOffset (ctx : Context) (cur : Cursor) : Except OperandError Cursor := do
  let name := offsetName cur.pairs
  let value ← (narrow ctx ctx.checkI32 cur.offset).mapError .slot
  return { cur with
    locals := cur.locals ++ [(name, "i32")]
    prelude := cur.prelude ++ [.setLocal name value]
    args := cur.args ++ [.getLocal name]
    pending := some name }

/-- Binds a length, charges for the memory and rebases the offset that waited for it. -/
def memoryLength (opcode : String) (ctx : Context) (cur : Cursor) : Except OperandError Cursor :=
  match cur.pending with
  | none => .error (.lengthWithoutOffset opcode)
  | some offset => do
    let name := lengthName cur.pairs
    let value ← (narrow ctx ctx.checkI32 cur.offset).mapError .slot
    let bound : Cursor := { cur with
      locals := cur.locals ++ [(name, "i32")]
      prelude := cur.prelude ++
        [.setLocal name value,
         .call ctx.chargeMemory [.getLocal offset, .getLocal name],
         .setLocal offset (.instr "i32.add" [.getGlobal ctx.memoryBase, .getLocal offset])]
      args := cur.args ++ [.getLocal name]
      pending := none
      pairs := cur.pairs + 1 }
    return if ctx.reconciled.contains opcode then bound.drop.drop else bound

/-- Passes one input, without moving on to the next operand. -/
def marshal (opcode : String) (ctx : Context) (kind : ParamKind) (cur : Cursor) :
    Except OperandError Cursor :=
  match kind with
  | .i32 => cur.scalar ctx ctx.checkI32
  | .i64 => cur.scalar ctx ctx.checkI64
  | .i128 => .ok (cur.byReference ctx)
  | .address => .ok (cur.byReference ctx)
  | .pointer => .ok (cur.byReference ctx)
  | .ipointer => .ok (cur.byReference ctx)
  | .opointer => .ok (cur.outputPointer ctx)
  | .readOffset => cur.memoryOffset ctx
  | .writeOffset => cur.memoryOffset ctx
  | .length => cur.memoryLength opcode ctx

/-- Passes one input and moves on. -/
def consume (opcode : String) (ctx : Context) (cur : Cursor) (kind : ParamKind) :
    Except OperandError Cursor :=
  (cur.marshal opcode ctx kind).map descend

end Cursor

/-- The plan for the inputs of a descriptor. -/
def planOperands (opcode : String) (d : Descriptor) (ctx : Context) :
    Except OperandError OperandPlan :=
  (d.inputs.foldlM (Cursor.consume opcode ctx) {}).map Cursor.toPlan

end HostGlue.Marshal

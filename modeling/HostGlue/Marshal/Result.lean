import HostGlue.Interface.Signature
import HostGlue.Marshal.Operands

/-!
# The result of a host call

The host call itself and the code that leaves its answer in the result slot. A value that the host
returns is stored into the lowest word; a wider one the host writes itself, through the address of
the slot. The words above the value are cleared, so that nothing of an earlier operand is left in
the slot. An address ends in the middle of a word, so the upper half of that word is cleared apart.
A 256-bit value fills the slot and only has its bytes reversed.
-/

namespace HostGlue.Marshal

open Machine Wat Interface

/-- A host call with its arguments, and the slot its result goes to. -/
structure HostCall where
  target : String
  args : List Node
  callback : Option String
  slot : Int

namespace HostCall

def ofPlan (d : Descriptor) (mode : Mode) (plan : OperandPlan) (ctx : Context) : HostCall where
  target := "$" ++ d.name
  args := plan.args
  callback := if takesCallback d mode then some ctx.callbackLocal else none
  slot := plan.resultSlot

/-- The call with the output handles behind its arguments, and the continuation last. -/
def emit (c : HostCall) (handles : List Node) : Node :=
  .call c.target (c.args ++ (handles ++ (c.callback.map .getLocal).toList))

def handle (c : HostCall) (ctx : Context) : Node := slotAddr ctx c.slot 0

/-- Clears the words of the result slot from `start` on. -/
def pad (c : HostCall) (ctx : Context) (start : Int) : Except SlotError (List Node) := do
  let words ← ctx.wordsPerSlot
  return .note "zero out mem" :: zeroWords ctx c.slot (span start words)

/-- Stores the returned status or number, the status turned round where the opcode asks for it. -/
def storeI32 (c : HostCall) (opcode : String) (ctx : Context) : Except SlotError (List Node) := do
  let padding ← c.pad ctx 1
  let inverted := ctx.statusInverted.contains opcode
  let value := if inverted then .instr "i32.eqz" [c.emit []] else c.emit []
  let notes := if inverted then
    [.note "flip call status from host convention (0 = success) to EVM (1 = success)"] else []
  return notes ++ [.store "i64" (c.handle ctx) (.instr "i64.extend_u/i32" [value])] ++ padding

def storeI64 (c : HostCall) (ctx : Context) : Except SlotError (List Node) := do
  let padding ← c.pad ctx 1
  return .store "i64" (c.handle ctx) (c.emit []) :: padding

def receiveI128 (c : HostCall) (ctx : Context) : Except SlotError (List Node) := do
  let padding ← c.pad ctx 2
  return c.emit [c.handle ctx] :: padding

def receiveAddress (c : HostCall) (ctx : Context) : Except SlotError (List Node) := do
  let padding ← c.pad ctx 3
  return c.emit [c.handle ctx] :: padding ++
    [.store "i32" (slotAddr ctx c.slot (2 * ctx.wordBytes + 4)) (.const "i32" 0)]

def receiveI256 (c : HostCall) (ctx : Context) : List Node :=
  [c.emit [c.handle ctx], .instr "drop" [.call ctx.reverseBytes [c.handle ctx]]]

/-- The call and the code behind it, for a result of the given kind. -/
def marshal (c : HostCall) (opcode : String) (ctx : Context) :
    Option ReturnKind → Except SlotError (List Node)
  | none => .ok [c.emit []]
  | some .i32 => c.storeI32 opcode ctx
  | some .i64 => c.storeI64 ctx
  | some .i128 => c.receiveI128 ctx
  | some .address => c.receiveAddress ctx
  | some .i256 => .ok (c.receiveI256 ctx)

end HostCall

/-- Clears the slots of the operands that were dropped, except the result slot. -/
def clearReconciled (ctx : Context) (resultSlot : Int) :
    List Int → Except SlotError (List Node)
  | [] => return []
  | slot :: rest =>
    if slot = resultSlot then clearReconciled ctx resultSlot rest
    else do
      let words ← ctx.wordsPerSlot
      let others ← clearReconciled ctx resultSlot rest
      return .note "zero out dropped call operand" :: zeroWords ctx slot (span 0 words) ++ others

/-- The host call under a plan, and the code that completes the stack behind it. -/
def marshalResult (opcode : String) (d : Descriptor) (mode : Mode) (plan : OperandPlan)
    (ctx : Context) : Except SlotError (List Node) := do
  let body ← (HostCall.ofPlan d mode plan ctx).marshal opcode ctx d.result
  let cleared ← clearReconciled ctx plan.resultSlot plan.reconciledSlots
  return body ++ cleared

end HostGlue.Marshal

import HostGlue.Text.CodePoint

/-!
# The machine context

What the generated code calls the parts of the machine it runs on, and how wide they are. Operands
lie on a stack of slots below a stack pointer; a slot is a whole number of words wide. Offsets into
linear memory are taken from a memory base. Two checkers narrow a slot to 32 or 64 bits, one routine
charges for memory, and one reverses the bytes of a whole slot.
-/

namespace HostGlue.Machine

/-- The word size of a context is zero, so a slot has no number of words. -/
inductive SlotError where
  | zeroWordBytes
  deriving Repr, DecidableEq

def SlotError.message : SlotError → String
  | .zeroWordBytes => "integer division or modulo by zero"

structure Context where
  stackPointer : String := "$sp"
  memoryBase : String := "$memstart"
  slotBytes : Int := 32
  wordBytes : Int := 8
  hostModule : Text := "ethereum"
  checkI32 : String := "$check_overflow"
  checkI64 : String := "$check_overflow_i64"
  chargeMemory : String := "$memusegas"
  reverseBytes : String := "$bswap_m256"
  callbackLocal : String := "$callback"
  /-- Opcodes whose stack operands outnumber the arguments of the host call by two. -/
  reconciled : List String := ["CALL", "CALLCODE"]
  /-- Opcodes for which the host answers 0 on success and the machine expects 1. -/
  statusInverted : List String := ["CALL", "CALLCODE", "DELEGATECALL"]
  banner : Text := "generated by wastgen"
  deriving Repr, DecidableEq

namespace Context

/-- The number of whole words in a slot, rounded down. -/
def wordsPerSlot (ctx : Context) : Except SlotError Int :=
  if ctx.wordBytes = 0 then .error .zeroWordBytes else .ok (ctx.slotBytes.fdiv ctx.wordBytes)

/-- The distance of a byte of a slot from the stack pointer. -/
def slotByteOffset (ctx : Context) (slot : Int) (byte : Int) : Int := slot * ctx.slotBytes + byte

def withHostModule (ctx : Context) (module : Text) : Context := { ctx with hostModule := module }

end Context

/-- The names in order of their characters, each once. -/
def sortedNames (names : List String) : List String := names.eraseDups.mergeSort (· ≤ ·)

end HostGlue.Machine

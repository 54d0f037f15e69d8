import HostGlue.Machine.Context
import HostGlue.Wat.Node

/-!
# Access to slots

Code that addresses an operand slot relative to the stack pointer, reads its words, narrows it
through a checker and clears some of its words. Words are numbered from the least significant one.
-/

namespace HostGlue.Marshal

open Machine Wat

/-- The integers from `start` up to and without `stop`. -/
def span (start stop : Int) : List Int :=
  (List.range (stop - start).toNat).map fun (n : Nat) => start + (n : Int)

/-- The address of a byte of a slot; the top slot is at the stack pointer itself. -/
def slotAddr (ctx : Context) (slot : Int) (byte : Int) : Node :=
  let offset := ctx.slotByteOffset slot byte
  if offset = 0 then .getGlobal ctx.stackPointer
  else .instr "i32.add" [.getGlobal ctx.stackPointer, .const "i32" offset]

/-- Loads of the slot's words. -/
def slotWords (ctx : Context) (slot : Int) : Except SlotError (List Node) := do
  let words ← ctx.wordsPerSlot
  return (span 0 words).map fun w => .load "i64" (slotAddr ctx slot (w * ctx.wordBytes))

/-- The slot's value as the checker lets it through. -/
def narrow (ctx : Context) (checker : String) (slot : Int) : Except SlotError Node := do
  let words ← slotWords ctx slot
  return .call checker words

/-- Stores of zero into the given words of the slot. -/
def zeroWords (ctx : Context) (slot : Int) (words : List Int) : List Node :=
  words.map fun w => .store "i64" (slotAddr ctx slot (w * ctx.wordBytes)) (.const "i64" 0)

theorem mem_span {start stop n : Int} : n ∈ span start stop ↔ start ≤ n ∧ n < stop := by
  simp only [span, List.mem_map, List.mem_range]
  constructor
  · rintro ⟨k, hk, rfl⟩
    omega
  · rintro ⟨h₁, h₂⟩
    exact ⟨(n - start).toNat, by omega, by omega⟩

theorem length_span (start stop : Int) : (span start stop).length = (stop - start).toNat := by
  simp [span]

end HostGlue.Marshal

import HostGlue.Proofs.Marshal.Stores

/-!
# The result slot

What the nodes of the result stage leave in the memory. For each kind of result `filled` is the
memory that the host leaves with the value completed to a whole slot; it reads as the value and
differs from the host's memory in the result slot only. The nodes around the host call bring it
about, and the clearing behind them touches other slots.
-/

namespace HostGlue.Marshal

open Machine Wat Interface

/-! ## What the slot is to hold -/

/-- A slot of `k` words takes a result of the kind; a 256-bit result fills a slot of four. -/
def FitsIn (k : Nat) : ReturnKind → Prop
  | .i32 | .i64 => 1 ≤ k
  | .i128 => 2 ≤ k
  | .address => 3 ≤ k
  | .i256 => k = 4

/-- The number the result slot is to hold, given the host's answer and the memory it leaves. The
host writes a wide result at the base of the slot, a 256-bit one most significant byte first. There
is none if the answer is not of the kind. -/
def resultValue (inverted : Bool) (after : Memory) (base : Nat) :
    ReturnKind → Option Value → Option Nat
  | .i32, some (.i32 r) => some (if inverted then if r = 0 then 1 else 0 else r.toNat)
  | .i64, some (.i64 r) => some r.toNat
  | .i128, none => some (after.read base 16)
  | .address, none => some (after.read base 20)
  | .i256, none => some (after.readBig base 32)
  | _, _ => none

/-- The number of words that a result takes. -/
def resultWords : ReturnKind → Nat
  | .i32 | .i64 => 1
  | .i128 => 2
  | .address => 3
  | .i256 => 4

theorem FitsIn.words {k : Nat} {kind : ReturnKind} (h : FitsIn k kind) : resultWords kind ≤ k := by
  cases kind with
  | i256 => exact ge_of_eq h
  | _ => exact h

/-- The memory with the result completed to a slot of `k` words. However small the slot, a stored
value takes eight bytes, and the half word above an address is cleared. -/
def filled (after : Memory) (base k v : Nat) : ReturnKind → Memory
  | .i32 | .i64 => after.write base (8 + 8 * (k - 1)) v
  | .i128 => after.write (base + 16) (8 * (k - 2)) 0
  | .address => after.write (base + 20) (4 + 8 * (k - 3)) 0
  | .i256 => after.reverse base 32

section Filled

variable {inverted : Bool} {after : Memory} {base k v : Nat} {kind : ReturnKind}
  {answer : Option Value}

@[simp] theorem filled_size : (filled after base k v kind).size = after.size := by
  cases kind <;> rfl

theorem resultValue_i32 (h : resultValue inverted after base .i32 answer = some v) :
    ∃ r, answer = some (.i32 r) ∧ v = if inverted then if r = 0 then 1 else 0 else r.toNat := by
  rcases answer with _ | r | r
  · cases h
  · exact ⟨r, rfl, (Option.some.inj h).symm⟩
  · cases h

theorem resultValue_i64 (h : resultValue inverted after base .i64 answer = some v) :
    ∃ r, answer = some (.i64 r) ∧ v = r.toNat := by
  rcases answer with _ | r | r
  · cases h
  · cases h
  · exact ⟨r, rfl, (Option.some.inj h).symm⟩

theorem resultValue_wide (wide : kind.byValue = false)
    (h : resultValue inverted after base kind answer = some v) : answer = none := by
  cases answer with
  | none => rfl
  | some w =>
      cases kind with
      | i32 => cases wide
      | i64 => cases wide
      | i128 => cases h
      | address => cases h
      | i256 => cases h

theorem resultValue_lt (h : resultValue inverted after base kind answer = some v) :
    v < 256 ^ (8 * resultWords kind) := by
  cases kind with
  | i32 =>
      obtain ⟨r, -, rfl⟩ := resultValue_i32 h
      have small : r.toNat < 256 ^ 8 := lt_trans r.isLt (by decide)
      split
      · split <;> decide
      · exact small
  | i64 =>
      obtain ⟨r, -, rfl⟩ := resultValue_i64 h
      exact r.isLt
  | i128 =>
      obtain rfl := resultValue_wide rfl h
      rw [← Option.some.inj h]
      exact after.read_lt base 16
  | address =>
      obtain rfl := resultValue_wide rfl h
      rw [← Option.some.inj h]
      exact lt_trans (after.read_lt base 20) (by decide)
  | i256 =>
      obtain rfl := resultValue_wide rfl h
      rw [← Option.some.inj h, ← Memory.read_reverse]
      exact Memory.read_lt _ base 32

/-- Whether the completed slot reads as the value is a matter of width: the value has to fit, and
nothing may stand above a 256-bit one. -/
theorem read_filled_iff (h : resultValue inverted after base kind answer = some v) :
    (filled after base k v kind).read base (8 * k) = v ↔
      v < 256 ^ (8 * k) ∧ (kind = .i256 → after.read (base + 32) (8 * k - 32) = 0) := by
  -- short of a 256-bit value, the slot reads as the low bytes of the value
  have cut (other : kind ≠ .i256)
      (low : (filled after base k v kind).read base (8 * k) = v % 256 ^ (8 * k)) :
      (filled after base k v kind).read base (8 * k) = v ↔
        v < 256 ^ (8 * k) ∧ (kind = .i256 → after.read (base + 32) (8 * k - 32) = 0) := by
    rw [low, Nat.mod_eq_iff_lt (pow_ne_zero _ (by decide))]
    exact (and_iff_left fun same => absurd same other).symm
  cases kind with
  | i32 => exact cut (by decide) (Memory.read_write (by omega))
  | i64 => exact cut (by decide) (Memory.read_write (by omega))
  | i128 =>
      obtain rfl := resultValue_wide rfl h
      refine cut (by decide) ?_
      rw [← Option.some.inj h]
      exact Memory.read_write_zero_above (by omega)
  | address =>
      obtain rfl := resultValue_wide rfl h
      refine cut (by decide) ?_
      rw [← Option.some.inj h]
      exact Memory.read_write_zero_above (by omega)
  | i256 =>
      have small := resultValue_lt h
      obtain rfl := resultValue_wide rfl h
      have turned : (after.reverse base 32).read base 32 = v :=
        (Memory.read_reverse ..).trans (Option.some.inj h)
      rw [filled]
      rcases Nat.le_total (8 * k) 32 with le | le
      · rw [← Memory.read_mod le, turned, Nat.mod_eq_iff_lt (pow_ne_zero _ (by decide)),
          Nat.sub_eq_zero_of_le le]
        exact (and_iff_left fun _ => rfl).symm
      · obtain ⟨j, hj⟩ := Nat.exists_eq_add_of_le le
        have above : (after.reverse base 32).read (base + 32) j = after.read (base + 32) j :=
          Memory.read_congr fun i hi => if_neg (by omega)
        have fits : v < 256 ^ (32 + j) :=
          lt_of_lt_of_le small (Nat.pow_le_pow_right (by decide) (Nat.le_add_right 32 j))
        rw [hj, Memory.read_add, turned, above, Nat.add_sub_cancel_left]
        simp [fits]

/-- The completed slot reads as the value. -/
theorem read_filled (fits : FitsIn k kind)
    (h : resultValue inverted after base kind answer = some v) :
    (filled after base k v kind).read base (8 * k) = v := by
  refine (read_filled_iff h).mpr ⟨?_, ?_⟩
  · exact lt_of_lt_of_le (resultValue_lt h)
      (Nat.pow_le_pow_right (by decide) (Nat.mul_le_mul_left 8 fits.words))
  · rintro rfl
    obtain rfl : k = 4 := fits
    rfl

/-- Outside the slot nothing is changed. -/
theorem filled_byte (fits : FitsIn k kind) {p : Nat} (outside : ¬ (base ≤ p ∧ p < base + 8 * k)) :
    (filled after base k v kind).byte p = after.byte p := by
  have words := fits.words
  cases kind with
  | i32 =>
      have one : 1 ≤ k := words
      exact Memory.write_byte_of_not_mem (by omega)
  | i64 =>
      have one : 1 ≤ k := words
      exact Memory.write_byte_of_not_mem (by omega)
  | i128 => exact Memory.write_byte_of_not_mem (by omega)
  | address =>
      have three : 3 ≤ k := words
      exact Memory.write_byte_of_not_mem (by omega)
  | i256 =>
      have four : k = 4 := fits
      exact if_neg (by omega)

end Filled

/-! ## Completing the slot -/

/-- The routine reverses the 32 bytes at its argument and changes nothing else. -/
def Reverses (reverse : BitVec 32 → Memory → Option (BitVec 32 × Memory)) : Prop :=
  ∀ a m, a.toNat + 32 ≤ m.size → ∃ r, reverse a m = some (r, m.reverse a.toNat 32)

section Completing

variable {Γ : Instance} {ctx : Context} {inverted : Bool} {k v : Nat} {slot : Int}
  {kind : ReturnKind} {call : Node} {answer : Option Value} {σ τ : State}

theorem eval_instr_ok {op : String} {n : Node} {w : Value} {results : List Value}
    (hn : eval Γ n σ = .ok [w] τ) (hop : operate op [w] τ = .ok results τ) :
    eval Γ (.instr op [n]) σ = .ok results τ := by
  rw [eval, bind_ok (evalAll_cons_ok hn evalAll_nil)]
  exact hop

/-- A value that the host returns is stored into the lowest word. -/
theorem received_byValue (inside : SlotInside Γ ctx τ.memory slot)
    (room : slotBase Γ ctx slot + 8 ≤ τ.memory.size) (byValue : kind.byValue = true)
    (hcall : eval Γ call σ = .ok answer.toList τ)
    (hv : resultValue inverted τ.memory (slotBase Γ ctx slot) kind answer = some v) :
    eval Γ (received ctx inverted slot call (some kind)) σ =
      .ok [] { τ with memory := τ.memory.write (slotBase Γ ctx slot) 8 v } := by
  have fits := τ.memory.size_le
  have base : (addressOf Γ ctx slot 0).toNat = slotBase Γ ctx slot :=
    addressOf_eq (b := 0) inside.1 (by omega)
  cases kind with
  | i32 =>
      obtain ⟨r, rfl, rfl⟩ := resultValue_i32 hv
      have status : eval Γ (if inverted then .instr "i32.eqz" [call] else call) σ =
          .ok [.i32 (if inverted then if r = 0 then 1 else 0 else r)] τ := by
        cases inverted with
        | false => exact hcall
        | true => exact eval_instr_ok hcall rfl
      have extended : eval Γ (.instr "i64.extend_u/i32"
          [if inverted then .instr "i32.eqz" [call] else call]) σ =
          .ok [.i64 ((if inverted then if r = 0 then 1 else 0 else r : BitVec 32).setWidth 64)] τ :=
        eval_instr_ok status rfl
      have number :
          ((if inverted then if r = 0 then 1 else 0 else r : BitVec 32).setWidth 64).toNat =
            if inverted then if r = 0 then 1 else 0 else r.toNat := by
        rw [BitVec.toNat_setWidth_of_le (by decide)]
        split
        · split <;> rfl
        · rfl
      rw [← number]
      exact eval_store_ok rfl extended rfl base room
  | i64 =>
      obtain ⟨r, rfl, rfl⟩ := resultValue_i64 hv
      exact eval_store_ok rfl hcall rfl base room
  | i128 => cases byValue
  | address => cases byValue
  | i256 => cases byValue

/-- Behind an address, the words above it and the upper half of its last word are cleared. -/
theorem evalAll_completion_address (hw : ctx.wordBytes = 8)
    (geometry : ctx.slotBytes = 8 * (k : Int)) (inside : SlotInside Γ ctx τ.memory slot)
    (room : slotBase Γ ctx slot + 24 ≤ τ.memory.size) :
    evalAll Γ (completion ctx slot (some .address)) τ = .ok [] { τ with
      memory := τ.memory.write (slotBase Γ ctx slot + 20) (4 + 8 * (k - 3)) 0 } := by
  have fits := τ.memory.size_le
  obtain ⟨m, hm⟩ : ∃ m, m = τ.memory.write (slotBase Γ ctx slot + 8 * 3) (8 * (k - 3)) 0 :=
    ⟨_, rfl⟩
  have words := evalAll_padding 3 hw geometry inside
  rw [← hm] at words
  have middle : (addressOf Γ ctx slot (2 * ctx.wordBytes + 4)).toNat =
      slotBase Γ ctx slot + 20 := by
    rw [hw]
    exact addressOf_eq (b := 20) inside.1 (by omega)
  have half : eval Γ (.store "i32" (slotAddr ctx slot (2 * ctx.wordBytes + 4)) (.const "i32" 0))
      { τ with memory := m } =
      .ok [] { τ with memory := m.write (slotBase Γ ctx slot + 20) 4 0 } := by
    have zero : eval Γ (.const "i32" 0) { τ with memory := m } =
        .ok [.i32 0] { τ with memory := m } := rfl
    have covered : slotBase Γ ctx slot + 20 + ValType.i32.width ≤ m.size := by
      rw [hm]
      exact room
    exact eval_store_ok rfl zero rfl middle covered
  have joined := Memory.write_zero_prepend τ.memory (slotBase Γ ctx slot + 20) 4 (8 * (k - 3))
  rw [show slotBase Γ ctx slot + 20 + 4 = slotBase Γ ctx slot + 8 * 3 by omega, ← hm] at joined
  rw [← joined]
  exact evalAll_append_ok words (evalAll_cons_ok half evalAll_nil)

/-- Behind a 256-bit number, its bytes are reversed. -/
theorem evalAll_completion_i256 {reverse : BitVec 32 → Memory → Option (BitVec 32 × Memory)}
    (linked : Γ.routine ctx.reverseBytes = some (reverseRoutine reverse))
    (reverses : Reverses reverse) (inside : SlotInside Γ ctx τ.memory slot)
    (room : slotBase Γ ctx slot + 32 ≤ τ.memory.size) :
    ∃ log, evalAll Γ (completion ctx slot (some .i256)) τ =
      .ok [] ⟨τ.locals, τ.memory.reverse (slotBase Γ ctx slot) 32, log⟩ := by
  have fits := τ.memory.size_le
  have base : (addressOf Γ ctx slot 0).toNat = slotBase Γ ctx slot :=
    addressOf_eq (b := 0) inside.1 (by omega)
  obtain ⟨r, hr⟩ := reverses (addressOf Γ ctx slot 0) τ.memory (by omega)
  rw [base] at hr
  have turned : eval Γ (.call ctx.reverseBytes [slotAddr ctx slot 0]) τ =
      .ok [.i32 r] ⟨τ.locals, τ.memory.reverse (slotBase Γ ctx slot) 32,
        τ.calls ++ [⟨ctx.reverseBytes, [.i32 (addressOf Γ ctx slot 0)], τ.memory⟩]⟩ := by
    rw [eval, bind_ok (evalAll_cons_ok (eval_slotAddr Γ ctx slot 0 τ) evalAll_nil), invoke,
      linked]
    simp only [reverseRoutine, List.cons_append, List.nil_append, hr]
  have dropped : eval Γ (.instr "drop" [.call ctx.reverseBytes [slotAddr ctx slot 0]]) τ =
      .ok [] _ := eval_instr_ok turned rfl
  exact ⟨_, evalAll_cons_ok dropped evalAll_nil⟩

/-- The nodes around a host call that has answered complete the slot, however small it is, as long
as the words of the result are in the memory. -/
theorem evalAll_completed {reverse : BitVec 32 → Memory → Option (BitVec 32 × Memory)}
    (hw : ctx.wordBytes = 8) (geometry : ctx.slotBytes = 8 * (k : Int))
    (inside : SlotInside Γ ctx τ.memory slot)
    (room : slotBase Γ ctx slot + 8 * resultWords kind ≤ τ.memory.size)
    (linked : kind = .i256 → Γ.routine ctx.reverseBytes = some (reverseRoutine reverse))
    (reverses : Reverses reverse) (hcall : eval Γ call σ = .ok answer.toList τ)
    (hv : resultValue inverted τ.memory (slotBase Γ ctx slot) kind answer = some v) :
    ∃ log, evalAll Γ (received ctx inverted slot call (some kind) ::
        completion ctx slot (some kind)) σ =
      .ok [] ⟨τ.locals, filled τ.memory (slotBase Γ ctx slot) k v kind, log⟩ := by
  have byValue (h : kind.byValue = true) (one : resultWords kind = 1) : ∃ log, evalAll Γ
      (received ctx inverted slot call (some kind) :: padding ctx slot 1) σ =
      .ok [] ⟨τ.locals, τ.memory.write (slotBase Γ ctx slot) (8 + 8 * (k - 1)) v, log⟩ := by
    rw [one] at room
    have small := resultValue_lt hv
    rw [one] at small
    refine ⟨τ.calls, ?_⟩
    rw [← Memory.write_append_zero small]
    exact evalAll_cons_ok (received_byValue inside room h hcall hv)
      (evalAll_padding 1 hw geometry inside)
  have written (h : kind.byValue = false) : eval Γ call σ = .ok [] τ := by
    rw [hcall, resultValue_wide h hv]
    rfl
  cases kind with
  | i32 => exact byValue rfl rfl
  | i64 => exact byValue rfl rfl
  | i128 => exact ⟨τ.calls, evalAll_cons_ok (written rfl) (evalAll_padding 2 hw geometry inside)⟩
  | address => exact ⟨τ.calls, evalAll_cons_ok (written rfl)
      (evalAll_completion_address hw geometry inside room)⟩
  | i256 =>
      obtain ⟨log, reversed⟩ := evalAll_completion_i256 (linked rfl) reverses inside room
      exact ⟨log, evalAll_cons_ok (written rfl) reversed⟩

theorem mem_others {plan : OperandPlan} {slot : Int} :
    slot ∈ plan.reconciledSlots.filter (· ≠ plan.resultSlot) ↔
      slot ∈ plan.reconciledSlots ∧ slot ≠ plan.resultSlot := by
  simp [List.mem_filter]

/-- The bytes of the result slot are in none of the slots that are cleared. -/
theorem others_disjoint {plan : OperandPlan} {m : Memory}
    (inside : ∀ slot ∈ plan.resultSlot :: plan.reconciledSlots, SlotInside Γ ctx m slot) {p : Nat}
    (hp : InSlot Γ ctx plan.resultSlot p) :
    ∀ slot ∈ plan.reconciledSlots, slot ≠ plan.resultSlot → ¬ InSlot Γ ctx slot p := by
  intro slot known ne
  exact InSlot.disjoint (inside plan.resultSlot List.mem_cons_self)
    (inside slot (List.mem_cons_of_mem _ known)) (Ne.symm ne) hp

/-- When the host has answered, the nodes of the result stage run to their end: they complete the
result slot, clear the other slots of dropped operands and change no other byte. -/
theorem evalAll_resultNodes {opcode : String} {d : Descriptor} {mode : Mode} {plan : OperandPlan}
    {reverse : BitVec 32 → Memory → Option (BitVec 32 × Memory)} (result : d.result = some kind)
    (hw : ctx.wordBytes = 8) (geometry : ctx.slotBytes = 8 * (k : Int))
    (linked : kind = .i256 → Γ.routine ctx.reverseBytes = some (reverseRoutine reverse))
    (reverses : Reverses reverse)
    (hcall : eval Γ (hostCall ctx d mode plan) σ = .ok answer.toList τ)
    (hv : resultValue (ctx.statusInverted.contains opcode) τ.memory
      (slotBase Γ ctx plan.resultSlot) kind answer = some v)
    (inside : ∀ slot ∈ plan.resultSlot :: plan.reconciledSlots, SlotInside Γ ctx τ.memory slot)
    (room : slotBase Γ ctx plan.resultSlot + 8 * resultWords kind ≤ τ.memory.size) :
    ∃ m log, evalAll Γ (resultNodes ctx opcode d mode plan) σ = .ok [] ⟨τ.locals, m, log⟩ ∧
      (∀ slot ∈ plan.reconciledSlots, slot ≠ plan.resultSlot →
        ∀ p, InSlot Γ ctx slot p → m.byte p = 0) ∧
      ∀ p, (∀ slot ∈ plan.reconciledSlots, slot ≠ plan.resultSlot → ¬ InSlot Γ ctx slot p) →
        m.byte p = (filled τ.memory (slotBase Γ ctx plan.resultSlot) k v kind).byte p := by
  obtain ⟨log, completed⟩ := evalAll_completed hw geometry (inside plan.resultSlot
    List.mem_cons_self) room linked reverses hcall hv
  have insideOthers : ∀ slot ∈ plan.reconciledSlots.filter (· ≠ plan.resultSlot),
      SlotInside Γ ctx (filled τ.memory (slotBase Γ ctx plan.resultSlot) k v kind) slot := by
    intro slot h
    have known := inside slot (List.mem_cons_of_mem _ (mem_others.mp h).1)
    rwa [SlotInside, filled_size]
  obtain ⟨m, cleared, size, zeros, frame⟩ := evalAll_clearing
    (σ := ⟨τ.locals, filled τ.memory (slotBase Γ ctx plan.resultSlot) k v kind, log⟩)
    hw geometry insideOthers
  refine ⟨m, log, ?_, ?_, ?_⟩
  · rw [resultNodes, result, ← List.cons_append]
    exact evalAll_append_ok evalAll_remarks (evalAll_append_ok completed cleared)
  · exact fun slot known ne => zeros slot (mem_others.mpr ⟨known, ne⟩)
  · intro p outside
    refine frame p fun slot h => ?_
    obtain ⟨known, ne⟩ := mem_others.mp h
    exact outside slot known ne

theorem invoke_host {M : Helpers} {globals : String → BitVec 32} {host : String}
    {args : List Value} {after : Memory} (h : M.host args τ.memory = some (answer, after)) :
    invoke (M.around ctx host globals) host args τ =
      .ok answer.toList ⟨τ.locals, after, τ.calls ++ [⟨host, args, τ.memory⟩]⟩ := by
  rw [invoke, show (M.around ctx host globals).routine host = some (hostRoutine M.host) from
    link_host]
  simp only [hostRoutine, h]

end Completing

/-- **The result slot is filled and nothing else is disturbed.** When the host has answered, the
nodes of the result stage run to their end under any plan. The result slot then reads as the result,
every other slot of a dropped operand is zero, and all other bytes are as the host left them. -/
theorem result_slot_filled (opcode : String) (d : Descriptor) (mode : Mode) (ctx : Context)
    (plan : OperandPlan) (M : Helpers) (globals : String → BitVec 32) (callback : Value)
    {kind : ReturnKind} {k v : Nat} {σ τ : State} {vs : List Value} {answer : Option Value}
    {after : Memory} (single : d.outputs = [kind]) (hw : ctx.wordBytes = 8)
    (geometry : ctx.slotBytes = 8 * (k : Int)) (fits : FitsIn k kind)
    (apart : ctx.reverseBytes ≠ "$" ++ d.name) (reverses : Reverses M.reverseBytes) :
    let Γ := M.around ctx ("$" ++ d.name) globals
    let base := slotBase Γ ctx plan.resultSlot
    evalAll Γ plan.args σ = .ok vs τ →
    (takesCallback d mode = true → τ.locals ctx.callbackLocal = some callback) →
    M.host (vs ++ (handleValues Γ ctx plan.resultSlot d.result ++
      if takesCallback d mode then [callback] else [])) τ.memory = some (answer, after) →
    resultValue (ctx.statusInverted.contains opcode) after base kind answer = some v →
    (∀ slot ∈ plan.resultSlot :: plan.reconciledSlots, SlotInside Γ ctx after slot) →
    ∃ nodes σ', marshalResult opcode d mode plan ctx = .ok nodes ∧
      evalAll Γ nodes σ = .ok [] σ' ∧
      σ'.memory.read base (8 * k) = v ∧
      (∀ slot ∈ plan.reconciledSlots, slot ≠ plan.resultSlot →
        ∀ p, InSlot Γ ctx slot p → σ'.memory.byte p = 0) ∧
      ∀ p, (∀ slot ∈ plan.resultSlot :: plan.reconciledSlots, ¬ InSlot Γ ctx slot p) →
        σ'.memory.byte p = after.byte p := by
  intro Γ base hargs hcallback hhost hv inside
  have result : d.result = some kind := by rw [Descriptor.result, single]; rfl
  have called : eval Γ (hostCall ctx d mode plan) σ = .ok answer.toList
      ⟨τ.locals, after, τ.calls ++ [⟨"$" ++ d.name, _, τ.memory⟩]⟩ :=
    (eval_hostCall hargs hcallback).trans (invoke_host hhost)
  have width : ctx.slotBytes.toNat = 8 * k := by omega
  have room : base + 8 * resultWords kind ≤ after.size := by
    have top := slotBase_le (inside plan.resultSlot List.mem_cons_self)
    have words := fits.words
    omega
  obtain ⟨m, log, run, zeros, frame⟩ := evalAll_resultNodes result hw geometry
    (fun _ => link_reverseBytes apart) reverses called hv inside room
  refine ⟨_, _, marshalResult_eq (by omega) opcode d mode plan, run, ?_, zeros, ?_⟩
  · rw [← read_filled fits hv]
    refine Memory.read_congr fun i hi => frame _ (others_disjoint inside ?_)
    exact ⟨by omega, by omega⟩
  · intro p outside
    rw [frame p fun slot known _ => outside slot (List.mem_cons_of_mem _ known)]
    refine filled_byte fits fun hp => outside plan.resultSlot List.mem_cons_self ?_
    rw [InSlot, width]
    exact hp

theorem reverses_plain (answer : Option Value) : Reverses (Helpers.plain answer).reverseBytes :=
  fun a _ h => ⟨a, if_pos h⟩

/-- A function that takes nothing and answers with an address. -/
def callerLookup : Descriptor where
  name := "getCaller"
  outputs := [.address]

/-- An address of 20 bytes at 96, and no zero anywhere else. -/
def callerMemory : Memory :=
  .page fun p => if 96 ≤ p ∧ p < 116 then BitVec.ofNat 8 (p - 95) else 255

def callerState : State := ⟨fun _ => none, callerMemory, []⟩

theorem callerLookup_filled :
    ∃ nodes σ',
      marshalResult "CALLER" callerLookup .sync { args := [], offset := 0 } {} = .ok nodes ∧
      evalAll ((Helpers.plain none).around {} "$getCaller" fun _ => 64) nodes callerState =
        .ok [] σ' ∧
      σ'.memory.read 96 32 = callerMemory.read 96 20 ∧ σ'.memory.byte 128 = 255 := by
  have inside : ∀ slot ∈ ([1] : List Int), SlotInside
      ((Helpers.plain none).around {} "$getCaller" fun _ => 64) {} callerMemory slot := by
    intro slot h
    obtain rfl := List.mem_singleton.mp h
    exact ⟨by decide, by decide⟩
  obtain ⟨nodes, σ', built, run, value, -, frame⟩ := result_slot_filled "CALLER" callerLookup
    .sync {} { args := [], offset := 0 } (Helpers.plain none) (fun _ => 64) (.i32 0) (k := 4) rfl
    rfl rfl (show 3 ≤ 4 by decide) (by decide) (reverses_plain none) (τ := callerState) rfl
    (by decide) rfl rfl inside
  refine ⟨nodes, σ', built, run, value, (frame 128 ?_).trans (by decide)⟩
  intro slot h
  obtain rfl := List.mem_singleton.mp h
  exact fun hp => absurd hp.2 (by decide)

end HostGlue.Marshal

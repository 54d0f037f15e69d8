import HostGlue.Proofs.Marshal.OffsetAccounting
import HostGlue.Proofs.Marshal.OutputLocations

/-!
# Operands by their positions

The walk carries a slot, a number of pairs and a waiting offset from input to input, and each kind
of input moves them in its own way. What an input is passed as can be said without the walk: it
depends on the kind and on two counts over the inputs in front, the operands they have and the
lengths among them. `plan_by_position` says so for the whole plan.

A walk is split in front of an input, so no induction goes over the arguments. The slots are
compared by an induction over the inputs from any start: each input takes a run of slots right below
those of the inputs in front, so the slots taken are a run from the top.
-/

namespace HostGlue.Marshal

open Machine Wat Interface

/-! ## Positions -/

/-- The slot at which the input at the position is passed. -/
def slotAt (dropping : Bool) (kinds : List ParamKind) (k : Nat) : Int :=
  -(stackDepth dropping (kinds.take k) : Int)

/-- The number of pairs completed in front of the position. -/
def pairAt (kinds : List ParamKind) (k : Nat) : Nat := (kinds.take k).count .length

/-- What an input of the kind is passed as, from its slot and its pair. -/
def argumentFor (ctx : Context) (slot : Int) (pair : Nat) : ParamKind → Except SlotError Node
  | .i32 => narrow ctx ctx.checkI32 slot
  | .i64 => narrow ctx ctx.checkI64 slot
  | .i128 | .address | .pointer | .ipointer => .ok (slotAddr ctx slot 0)
  | .opointer => .ok (slotAddr ctx (slot + 1) 0)
  | .readOffset | .writeOffset => .ok (.getLocal (Cursor.offsetName pair))
  | .length => .ok (.getLocal (Cursor.lengthName pair))

/-- The positions of the inputs whose kind has the property. -/
def positions (kinds : List ParamKind) (select : ParamKind → Bool) : List Nat :=
  (List.range kinds.length).filter fun k => kinds[k]?.any select

/-- The slots of the inputs that take an operand. -/
def operandSlots (dropping : Bool) (kinds : List ParamKind) : List Int :=
  (positions kinds (· ≠ .opointer)).map (slotAt dropping kinds)

/-- The two slots below each length, if operands are dropped. -/
def slotsBelowLengths (dropping : Bool) (kinds : List ParamKind) : List Int :=
  (positions kinds (· = .length)).flatMap fun k => droppedBehind dropping (slotAt dropping kinds k)

/-! ## Arguments -/

section Arguments

variable {opcode : String} {ctx : Context} {p q : Place} {kind : ParamKind}
  {kinds : List ParamKind} {e : Passed} {k : Nat}

theorem Step.argument (step : Step opcode ctx p kind e q) :
    ∃ arg, e.args = [arg] ∧ argumentFor ctx p.slot p.pairs kind = .ok arg := by
  cases step with
  | reference h => cases kind <;> simp_all [isReference, argumentFor]
  | outputPointer => exact ⟨_, rfl, rfl⟩
  | scalar hw h =>
      refine ⟨_, rfl, ?_⟩
      cases kind <;> simp [scalarChecker?] at h <;> subst h <;> exact narrow_of_ne hw _ _
  | offset hw h => cases kind <;> simp_all [ParamKind.isOffset, argumentFor]
  | length hw h => exact ⟨_, rfl, rfl⟩

/-- **An input is passed by what stands in front of it.** -/
theorem Walk.argument_at (w : Walk opcode ctx p kinds e q) (hk : kinds[k]? = some kind) :
    ∃ arg, e.args[k]? = some arg ∧
      argumentFor ctx (p.slot - stackDepth (dropsOperands opcode ctx) (kinds.take k))
        (p.pairs + (kinds.take k).count .length) kind = .ok arg := by
  obtain ⟨inside, rfl⟩ := List.getElem?_eq_some_iff.mp hk
  have split : kinds = kinds.take k ++ kinds[k] :: kinds.drop (k + 1) := by
    rw [List.getElem_cons_drop, List.take_append_drop]
  rw [split] at w
  obtain ⟨r, front, rest, before, after, rfl⟩ := w.of_append
  obtain ⟨⟩ | ⟨step, tail⟩ := after
  obtain ⟨arg, one, passed⟩ := step.argument
  have size : front.args.length = k := by
    rw [before.length_args, List.length_take, Nat.min_eq_left (Nat.le_of_lt inside)]
  refine ⟨arg, ?_, ?_⟩
  · simp [Passed.append, one, size]
  · rw [← before.slot_eq, ← before.place_eq.1]
    exact passed

end Arguments

/-! ## Slots -/

section Slots

variable {dropping : Bool} {kind : ParamKind} {kinds rest : List ParamKind}

theorem positions_cons (select : ParamKind → Bool) :
    positions (kind :: rest) select =
      (if select kind then [0] else []) ++ (positions rest select).map (· + 1) := by
  have later : (List.map Nat.succ (List.range rest.length)).filter
      (fun k => (kind :: rest)[k]?.any select) = (positions rest select).map (· + 1) := by
    rw [positions, List.filter_map]
    rfl
  rw [positions, List.length_cons, List.range_succ_eq_map, List.filter_cons, later]
  cases h : select kind <;> simp [h]

theorem slotAt_zero : slotAt dropping kinds 0 = 0 := by simp [slotAt]

theorem slotAt_succ (k : Nat) :
    slotAt dropping (kind :: rest) (k + 1) = slotAt dropping rest k - operandsOf dropping kind := by
  rw [slotAt, slotAt, List.take_succ_cons, stackDepth_cons]
  omega

theorem operandSlots_cons :
    operandSlots dropping (kind :: rest) = (if kind = .opointer then [] else [0]) ++
      (operandSlots dropping rest).map (· - (operandsOf dropping kind : Int)) := by
  have later (k : Nat) : slotAt dropping (kind :: rest) (k + 1) =
      slotAt dropping rest k - operandsOf dropping kind := slotAt_succ k
  rw [operandSlots, positions_cons, List.map_append, List.map_map]
  congr 1
  · by_cases h : kind = .opointer <;> simp [h, slotAt_zero]
  · rw [operandSlots, List.map_map]
    exact List.map_congr_left fun k _ => later k

theorem droppedBehind_add (slot n : Int) :
    droppedBehind dropping (slot + n) = (droppedBehind dropping slot).map (· + n) := by
  unfold droppedBehind
  split
  · simp only [List.map_cons, List.map_nil, List.cons.injEq, and_true]
    omega
  · rfl

theorem slotsBelowLengths_cons :
    slotsBelowLengths dropping (kind :: rest) =
      (if kind = .length then droppedBehind dropping 0 else []) ++
        (slotsBelowLengths dropping rest).map (· - (operandsOf dropping kind : Int)) := by
  rw [slotsBelowLengths, positions_cons, List.flatMap_append, List.flatMap_map]
  congr 1
  · by_cases h : kind = .length <;> simp [h, slotAt_zero]
  · rw [slotsBelowLengths, List.map_flatMap]
    simp only [slotAt_succ, Int.sub_eq_add_neg, droppedBehind_add]

/-- The slots dropped along the inputs, from any start. -/
theorem droppedSlots_eq (dropping : Bool) (slot : Int) (kinds : List ParamKind) :
    droppedSlots dropping slot kinds = (slotsBelowLengths dropping kinds).map (· + slot) := by
  induction kinds generalizing slot with
  | nil => rfl
  | cons kind rest ih =>
      rw [droppedSlots, slotsBelowLengths_cons, ih, List.map_append, List.map_map]
      congr 1
      · split
        · rw [← droppedBehind_add, Int.zero_add]
        · rfl
      · exact List.map_congr_left fun s _ => by simp only [Function.comp]; omega

/-- The slots that one input takes are a run from its own slot down. -/
theorem slots_of_input (dropping : Bool) (kind : ParamKind) :
    (if kind = .opointer then [] else [0]) ++
        (if kind = .length then droppedBehind dropping 0 else []) =
      (List.range (operandsOf dropping kind)).map fun i : Nat => -(i : Int) := by
  cases dropping <;> cases kind <;> rfl

/-- **Every slot is taken once.** The operands that are passed and those that are dropped lie in the
slots from the top down, one in each. -/
theorem slots_perm (dropping : Bool) (kinds : List ParamKind) :
    (operandSlots dropping kinds ++ slotsBelowLengths dropping kinds).Perm
      ((List.range (stackDepth dropping kinds)).map fun i : Nat => -(i : Int)) := by
  induction kinds with
  | nil => simp [operandSlots, slotsBelowLengths, positions]
  | cons kind rest ih =>
      have run : (List.range (stackDepth dropping (kind :: rest))).map (fun i : Nat => -(i : Int)) =
          (List.range (operandsOf dropping kind)).map (fun i : Nat => -(i : Int)) ++
            ((List.range (stackDepth dropping rest)).map fun i : Nat => -(i : Int)).map
              (· - (operandsOf dropping kind : Int)) := by
        rw [stackDepth_cons, List.range_add, List.map_append, List.map_map, List.map_map]
        congr 1
        exact List.map_congr_left fun i _ => by simp only [Function.comp]; omega
      rw [run, ← slots_of_input, operandSlots_cons, slotsBelowLengths_cons, List.append_assoc,
        List.append_assoc]
      refine List.Perm.append_left _ ?_
      -- the slots dropped behind this input change places with those of the inputs that follow
      rw [← List.append_assoc]
      refine (List.perm_append_comm.append_right _).trans ?_
      rw [List.append_assoc, ← List.map_append]
      exact (ih.map _).append_left _

end Slots

/-! ## Plans -/

/-- **Plans go by position.** Every input is passed as one argument, which depends on its kind, on
the operands in front of it and on the pairs completed there. The walk ends below all operands, with
the result slot right above. Two slots are dropped below each length if operands are dropped, and
these and the slots of the inputs that take an operand are the slots from the top down to the result
slot, each once. -/
theorem plan_by_position {opcode : String} {d : Descriptor} {ctx : Context} {plan : OperandPlan}
    (hplan : planOperands opcode d ctx = .ok plan) :
    plan.args.length = d.inputs.length ∧
      (∀ k kind, d.inputs[k]? = some kind → ∃ arg, plan.args[k]? = some arg ∧
        argumentFor ctx (slotAt (dropsOperands opcode ctx) d.inputs k) (pairAt d.inputs k) kind =
          .ok arg) ∧
      plan.offset = -(stackDepth (dropsOperands opcode ctx) d.inputs : Int) ∧
      plan.resultSlot = 1 - (stackDepth (dropsOperands opcode ctx) d.inputs : Int) ∧
      plan.reconciledSlots = slotsBelowLengths (dropsOperands opcode ctx) d.inputs ∧
      (operandSlots (dropsOperands opcode ctx) d.inputs ++ plan.reconciledSlots).Perm
        ((List.range (stackDepth (dropsOperands opcode ctx) d.inputs)).map
          fun i : Nat => -(i : Int)) := by
  obtain ⟨e, q, w, rfl⟩ := planOperands_eq_ok_iff.mp hplan
  have offset : q.slot = -(stackDepth (dropsOperands opcode ctx) d.inputs : Int) := by
    rw [w.slot_eq]
    exact Int.zero_sub _
  have reconciled : e.reconciled = slotsBelowLengths (dropsOperands opcode ctx) d.inputs := by
    rw [w.reconciled_eq, droppedSlots_eq]
    simp
  refine ⟨w.length_args, fun k kind hk => ?_, offset, ?_, reconciled, ?_⟩
  · obtain ⟨arg, passed, built⟩ := w.argument_at hk
    refine ⟨arg, passed, ?_⟩
    rwa [slotAt, pairAt, ← Int.zero_sub, ← Nat.zero_add (List.count _ _)]
  · show q.slot + 1 = _
    omega
  · show (_ ++ e.reconciled).Perm _
    rw [reconciled]
    exact slots_perm _ _

/-- A call with an output pointer between a length and a value. -/
def forwardedCall : Descriptor where
  name := "callForwarded"
  inputs := [.i64, .readOffset, .length, .opointer, .i32, .writeOffset, .length]
  outputs := [.i32]

/-- Its output pointer gets the slot of an operand dropped behind the first length. -/
theorem forwardedCall_by_position : ∃ plan, planOperands "CALL" forwardedCall {} = .ok plan ∧
    plan.args.length = 7 ∧ plan.args[3]? = some (slotAddr {} (-4) 0) ∧
    plan.args[6]? = some (.getLocal "$length1") ∧
    plan.offset = -10 ∧ plan.resultSlot = -9 ∧ plan.reconciledSlots = [-3, -4, -8, -9] ∧
    ([0, -1, -2, -5, -6, -7] ++ plan.reconciledSlots).Perm
      [0, -1, -2, -3, -4, -5, -6, -7, -8, -9] := by
  obtain ⟨plan, hplan⟩ : ∃ plan, planOperands "CALL" forwardedCall {} = .ok plan := ⟨_, rfl⟩
  obtain ⟨size, args, offset, result, reconciled, slots⟩ := plan_by_position hplan
  obtain ⟨pointer, atPointer, pointed⟩ := args 3 .opointer rfl
  obtain ⟨length, atLength, bound⟩ := args 6 .length rfl
  cases pointed
  cases bound
  exact ⟨plan, hplan, size, atPointer, atLength, offset, result, reconciled, slots⟩

end HostGlue.Marshal

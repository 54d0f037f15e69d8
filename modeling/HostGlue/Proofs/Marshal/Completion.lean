import HostGlue.Marshal.Function
import HostGlue.Proofs.Marshal.Access

/-!
# The code behind the operands

The nodes of the result stage as one list, for every kind of result: remarks, the instruction around
the host call, the code that completes the result slot, and the code that clears the slots of
dropped operands. Nothing but the host call and the reversal of bytes is called there, and whatever
the instruction around the host call does, it calls the host once.
-/

namespace HostGlue.Marshal

open Machine Wat Interface

/-! ## The nodes -/

section Nodes

variable (ctx : Context)

/-- Clears the words of a slot from `start` on. -/
def padding (slot start : Int) : List Node :=
  .note "zero out mem" :: zeroWords ctx slot (span start (ctx.slotBytes.fdiv ctx.wordBytes))

/-- Clears whole slots. -/
def clearing (slots : List Int) : List Node :=
  slots.flatMap fun slot => .note "zero out dropped call operand" ::
    zeroWords ctx slot (span 0 (ctx.slotBytes.fdiv ctx.wordBytes))

/-- The location for a result that the host writes itself. -/
def handles (slot : Int) : Option ReturnKind → List Node
  | some .i128 | some .address | some .i256 => [slotAddr ctx slot 0]
  | _ => []

/-- The host call with its answer put into the slot. -/
def received (inverted : Bool) (slot : Int) (call : Node) : Option ReturnKind → Node
  | some .i32 => .store "i64" (slotAddr ctx slot 0)
      (.instr "i64.extend_u/i32" [if inverted then .instr "i32.eqz" [call] else call])
  | some .i64 => .store "i64" (slotAddr ctx slot 0) call
  | _ => call

def remarks (inverted : Bool) : Option ReturnKind → List Node
  | some .i32 => if inverted then
      [.note "flip call status from host convention (0 = success) to EVM (1 = success)"] else []
  | _ => []

/-- What completes the slot after the host has answered. -/
def completion (slot : Int) : Option ReturnKind → List Node
  | none => []
  | some .i32 | some .i64 => padding ctx slot 1
  | some .i128 => padding ctx slot 2
  | some .address => padding ctx slot 3 ++
      [.store "i32" (slotAddr ctx slot (2 * ctx.wordBytes + 4)) (.const "i32" 0)]
  | some .i256 => [.instr "drop" [.call ctx.reverseBytes [slotAddr ctx slot 0]]]

def hostCall (d : Descriptor) (mode : Mode) (plan : OperandPlan) : Node :=
  (HostCall.ofPlan d mode plan ctx).emit (handles ctx plan.resultSlot d.result)

/-- The nodes of the result stage. -/
def resultNodes (opcode : String) (d : Descriptor) (mode : Mode) (plan : OperandPlan) : List Node :=
  remarks (ctx.statusInverted.contains opcode) d.result ++
    received ctx (ctx.statusInverted.contains opcode) plan.resultSlot
      (hostCall ctx d mode plan) d.result ::
    (completion ctx plan.resultSlot d.result ++
      clearing ctx (plan.reconciledSlots.filter (· ≠ plan.resultSlot)))

end Nodes

variable {ctx : Context}

theorem clearReconciled_eq (hw : ctx.wordBytes ≠ 0) (resultSlot : Int) (slots : List Int) :
    clearReconciled ctx resultSlot slots =
      .ok (clearing ctx (slots.filter (· ≠ resultSlot))) := by
  induction slots with
  | nil => rfl
  | cons slot rest ih =>
      unfold clearReconciled
      by_cases h : slot = resultSlot
      · rw [if_pos h, ih, List.filter_cons_of_neg (by simpa using h)]
      · rw [if_neg h, ih, List.filter_cons_of_pos (by simpa using h), Context.wordsPerSlot,
          if_neg hw]
        rfl

/-- **The shape of the result stage.** -/
theorem marshalResult_eq (hw : ctx.wordBytes ≠ 0) (opcode : String) (d : Descriptor) (mode : Mode)
    (plan : OperandPlan) :
    marshalResult opcode d mode plan ctx = .ok (resultNodes ctx opcode d mode plan) := by
  have pad (c : HostCall) (start : Int) : c.pad ctx start = .ok (padding ctx c.slot start) := by
    rw [HostCall.pad, Context.wordsPerSlot, if_neg hw]
    rfl
  have body : (HostCall.ofPlan d mode plan ctx).marshal opcode ctx d.result =
      .ok (remarks (ctx.statusInverted.contains opcode) d.result ++
        received ctx (ctx.statusInverted.contains opcode) plan.resultSlot
          (hostCall ctx d mode plan) d.result :: completion ctx plan.resultSlot d.result) := by
    unfold hostCall
    cases d.result with
    | none => rfl
    | some kind =>
        cases kind with
        | i32 =>
            rw [HostCall.marshal, HostCall.storeI32, pad]
            cases ctx.statusInverted.contains opcode <;> rfl
        | i64 =>
            rw [HostCall.marshal, HostCall.storeI64, pad]
            rfl
        | i128 =>
            rw [HostCall.marshal, HostCall.receiveI128, pad]
            rfl
        | address =>
            rw [HostCall.marshal, HostCall.receiveAddress, pad]
            rfl
        | i256 => rfl
  rw [marshalResult, body, clearReconciled_eq hw, resultNodes, ← List.cons_append,
    ← List.append_assoc]
  rfl

/-- The function of a descriptor that has a plan. -/
theorem buildFunction_eq {opcode : String} {d : Descriptor} {mode : Mode} {plan : OperandPlan}
    (hw : ctx.wordBytes ≠ 0) (hplan : planOperands opcode d ctx = .ok plan) :
    buildFunction opcode d mode ctx = .ok (.func ("$" ++ opcode)
      (if takesCallback d mode then [(ctx.callbackLocal, "i32")] else []) plan.locals
      (.seq plan.prelude :: resultNodes ctx opcode d mode plan)) := by
  have result := marshalResult_eq hw opcode d mode plan
  unfold buildFunction
  rw [hplan]
  show Except.bind ((marshalResult opcode d mode plan ctx).mapError CompileError.slot) _ = _
  rw [result]
  rfl

/-! ## The calls behind the operands -/

theorem callees_zeroWords (slot : Int) (words : List Int) :
    calleesAll (zeroWords ctx slot words) = [] := by
  induction words with
  | nil => rfl
  | cons w words ih =>
      rw [zeroWords, List.map_cons, calleesAll_cons]
      rw [zeroWords] at ih
      rw [ih]
      simp [callees]

theorem callees_padding (slot start : Int) : calleesAll (padding ctx slot start) = [] := by
  rw [padding, calleesAll_cons, callees_zeroWords]
  rfl

theorem callees_clearing (slots : List Int) : calleesAll (clearing ctx slots) = [] := by
  induction slots with
  | nil => rfl
  | cons slot slots ih =>
      rw [clearing, List.flatMap_cons, calleesAll_append, ← clearing, ih, calleesAll_cons,
        callees_zeroWords]
      rfl

/-- Behind the host call only bytes are reversed. -/
theorem callees_completion {slot : Int} {kind : Option ReturnKind} {f : String}
    (h : f ∈ calleesAll (completion ctx slot kind)) : f = ctx.reverseBytes := by
  unfold completion at h
  split at h
  · simp at h
  · simp [callees_padding] at h
  · simp [callees_padding] at h
  · simp [callees_padding] at h
  · simp [calleesAll_append, callees_padding, callees] at h
  · simpa [callees] using h

section Received

variable {Γ : Instance} {σ τ : State} {inverted : Bool} {slot : Int} {kind : Option ReturnKind}
  {call : Node} {e : Fault}

theorem evalAll_remarks : evalAll Γ (remarks inverted kind) σ = .ok [] σ := by
  unfold remarks
  split
  · cases inverted <;> rfl
  · rfl

theorem instr_error {op : String} {n : Node} (h : eval Γ n σ = .error e τ) :
    eval Γ (.instr op [n]) σ = .error e τ := by
  rw [eval, bind_error (evalAll_cons_error h)]

theorem store_error {valtype : String} {byte : Int} {n : Node} (h : eval Γ n σ = .error e τ) :
    eval Γ (.store valtype (slotAddr ctx slot byte) n) σ = .error e τ := by
  rw [eval, bind_ok (eval_slotAddr Γ ctx slot byte σ), bind_error h]

/-- The instruction around the host call fails where the call fails. -/
theorem received_error (h : eval Γ call σ = .error e τ) :
    eval Γ (received ctx inverted slot call kind) σ = .error e τ := by
  unfold received
  split
  · refine store_error (instr_error ?_)
    cases inverted
    · exact h
    · exact instr_error h
  · exact store_error h
  · exact h

theorem calls_instr {op : String} {n : Node} :
    (endState (eval Γ (.instr op [n]) σ)).calls = (endState (eval Γ n σ)).calls := by
  rw [eval, calls_bind_silent (operate_logs op), evalAll, calls_bind_silent]
  exact fun vs => (evalAll_logs Γ []).bind_silent fun ws => logs_pure _

theorem calls_store {byte : Int} {n : Node} :
    (endState (eval Γ (.store "i64" (slotAddr ctx slot byte) n) σ)).calls =
      (endState (eval Γ n σ)).calls := by
  rw [eval, bind_ok (eval_slotAddr Γ ctx slot byte σ)]
  exact calls_bind_silent fun ws => storeTo_logs _ _

/-- The instruction around the host call makes the calls that the host call makes. -/
theorem calls_received :
    (endState (eval Γ (received ctx inverted slot call kind) σ)).calls =
      (endState (eval Γ call σ)).calls := by
  unfold received
  split
  · rw [calls_store, calls_instr]
    cases inverted
    · rfl
    · exact calls_instr
  · exact calls_store
  · rfl

end Received

/-! ## The host call -/

/-- The locations handed to the host. -/
def handleValues (Γ : Instance) (ctx : Context) (slot : Int) : Option ReturnKind → List Value
  | some .i128 | some .address | some .i256 => [.i32 (addressOf Γ ctx slot 0)]
  | _ => []

section HostCall

variable {Γ : Instance} {σ τ : State} {d : Descriptor} {mode : Mode} {plan : OperandPlan}

theorem evalAll_handles (slot : Int) (kind : Option ReturnKind) :
    evalAll Γ (handles ctx slot kind) σ = .ok (handleValues Γ ctx slot kind) σ := by
  unfold handles handleValues
  split
  case h_4 => rfl
  all_goals exact evalAll_cons_ok (eval_slotAddr Γ ctx slot 0 σ) evalAll_nil

theorem eval_hostCall {vs : List Value} {callback : Value}
    (hargs : evalAll Γ plan.args σ = .ok vs τ)
    (hcallback : takesCallback d mode = true → τ.locals ctx.callbackLocal = some callback) :
    eval Γ (hostCall ctx d mode plan) σ =
      invoke Γ ("$" ++ d.name) (vs ++ (handleValues Γ ctx plan.resultSlot d.result ++
        if takesCallback d mode then [callback] else [])) τ := by
  have last : evalAll Γ
      ((if takesCallback d mode then some ctx.callbackLocal else none).map Node.getLocal).toList τ =
      .ok (if takesCallback d mode then [callback] else []) τ := by
    cases h : takesCallback d mode with
    | false => rfl
    | true =>
        have read : eval Γ (.getLocal ctx.callbackLocal) τ = .ok [callback] τ := by
          simp only [eval, hcallback h]
        exact evalAll_cons_ok read evalAll_nil
  rw [hostCall, HostCall.emit, eval]
  exact bind_ok (evalAll_append_ok hargs (evalAll_append_ok (evalAll_handles _ _) last))

theorem eval_hostCall_error {e : Fault} (hargs : evalAll Γ plan.args σ = .error e τ) :
    eval Γ (hostCall ctx d mode plan) σ = .error e τ := by
  rw [hostCall, HostCall.emit, eval]
  exact bind_error (evalAll_append_error hargs)

end HostCall

end HostGlue.Marshal

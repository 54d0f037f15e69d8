import HostGlue.Proofs.Marshal.ResultSlot

/-!
# Slots of dropped operands

An opcode with operands that its host call does not take leaves them on the stack, and the code
behind the call clears their slots: all of them but the result slot, which the code for the result
is trusted to complete. A descriptor with an output has such code. One without an output has none,
so if its last operand is a dropped one, that operand stays where it was.

`dropped_operands_cleared_iff` says for every run which of the two happens.
-/

namespace HostGlue.Marshal

open Machine Wat Interface

/-! ## Which result slots are dropped operands -/

/-- The last operand of the opcode is one that its host call does not take. -/
def DropsLast (opcode : String) (ctx : Context) (kinds : List ParamKind) : Prop :=
  dropsOperands opcode ctx = true ∧ (kinds.filter (· ≠ .opointer)).getLast? = some .length

instance (opcode : String) (ctx : Context) (kinds : List ParamKind) :
    Decidable (DropsLast opcode ctx kinds) := inferInstanceAs (Decidable (_ ∧ _))

section Walk

variable {opcode : String} {ctx : Context} {p q : Place} {kinds : List ParamKind} {e : Passed}

theorem stackDepth_eq_zero (dropping : Bool) (h : kinds.filter (· ≠ .opointer) = []) :
    stackDepth dropping kinds = 0 := by
  induction kinds with
  | nil => exact stackDepth_nil dropping
  | cons kind rest ih =>
      rw [List.filter_eq_nil_iff] at h
      have pointer : kind = .opointer := by simpa using h kind List.mem_cons_self
      subst pointer
      have none : rest.filter (· ≠ .opointer) = [] :=
        List.filter_eq_nil_iff.mpr fun k hk => h k (List.mem_cons_of_mem _ hk)
      rw [stackDepth_cons, ih none]
      rfl

theorem stackDepth_pos (dropping : Bool) (h : kinds.filter (· ≠ .opointer) ≠ []) :
    0 < stackDepth dropping kinds := by
  have counted : 0 < kinds.countP (· ≠ .opointer) := by
    rw [List.countP_eq_length_filter]
    exact List.length_pos_iff.mpr h
  exact Nat.lt_of_lt_of_le counted (Nat.le_add_right _ _)

/-- A step lists the slot above those still to come only for a length with nothing behind it. -/
theorem Step.mem_reconciled {kind : ParamKind} (step : Step opcode ctx p kind e q) (depth : Nat) :
    q.slot - depth + 1 ∈ e.reconciled ↔
      dropsOperands opcode ctx = true ∧ kind = .length ∧ depth = 0 := by
  cases step with
  | reference h => cases kind <;> simp_all [isReference]
  | outputPointer => simp
  | scalar hw h => cases kind <;> simp_all [scalarChecker?]
  | offset hw h => cases kind <;> simp_all [ParamKind.isOffset]
  | length hw h =>
      cases hd : dropsOperands opcode ctx with
      | false => simp [droppedBehind]
      | true =>
          simp only [droppedBehind, operandsOf, if_true, List.mem_cons, List.not_mem_nil, or_false,
            true_and]
          omega

/-- The result slot is one of a dropped operand if the last operand is dropped, and only then. -/
theorem Walk.mem_reconciled (w : Walk opcode ctx p kinds e q) :
    q.slot + 1 ∈ e.reconciled ↔ DropsLast opcode ctx kinds := by
  induction w with
  | nil => simp [DropsLast]
  | @cons p q r kind rest e e' step tail ih =>
      have first := step.mem_reconciled (stackDepth (dropsOperands opcode ctx) rest)
      rw [← tail.slot_eq] at first
      rw [Passed.append, List.mem_append, first, ih, DropsLast, DropsLast]
      by_cases h : rest.filter (· ≠ .opointer) = []
      -- behind the last operand the walk stands still
      · by_cases hk : kind = .opointer
        · subst hk
          simp
        · rw [List.filter_cons_of_pos (by simpa using hk), h, stackDepth_eq_zero _ h]
          simp
      · have later := stackDepth_pos (dropsOperands opcode ctx) h
        have last : ((kind :: rest).filter (· ≠ .opointer)).getLast? =
            (rest.filter (· ≠ .opointer)).getLast? := by
          by_cases hk : kind = .opointer
          · rw [List.filter_cons_of_neg (by simpa using hk)]
          · rw [List.filter_cons_of_pos (by simpa using hk), List.getLast?_cons,
              List.getLast?_eq_some_getLast h, Option.getD_some]
        rw [last]
        exact or_iff_right fun now => absurd now.2.2 (by omega)

theorem resultSlot_mem_iff {d : Descriptor} {plan : OperandPlan}
    (h : planOperands opcode d ctx = .ok plan) :
    plan.resultSlot ∈ plan.reconciledSlots ↔ DropsLast opcode ctx d.inputs := by
  obtain ⟨e, q, w, rfl⟩ := planOperands_eq_ok_iff.mp h
  exact w.mem_reconciled

end Walk

/-! ## What is promised -/

/-- The host answers with a value of the type that its import declares. -/
def Answers (d : Descriptor) (answer : Option Value) : Prop :=
  answer.map Value.type = (importResult d).bind ValType.ofName?

theorem Answers.resultValue {d : Descriptor} {answer : Option Value} {kind : ReturnKind}
    (h : Answers d answer) (result : d.result = some kind) (inverted : Bool) (after : Memory)
    (base : Nat) : ∃ v, resultValue inverted after base kind answer = some v := by
  rw [Answers, importResult, result] at h
  cases kind <;> rcases answer with _ | r | r <;> cases h <;> exact ⟨_, rfl⟩

/-- The slots of dropped operands are zero, except that a result slot holds the output. -/
structure DroppedCleared (Γ : Instance) (ctx : Context) (plan : OperandPlan) (k : Nat)
    (output : Option Nat) (m : Memory) : Prop where
  others : ∀ slot ∈ plan.reconciledSlots, slot ≠ plan.resultSlot ∨ output = none →
    Cleared Γ ctx m slot
  result : plan.resultSlot ∈ plan.reconciledSlots → ∀ v, output = some v →
    m.read (slotBase Γ ctx plan.resultSlot) (8 * k) = v

/-- What the result slot depends on when the host has answered. Without an output it has to be zero
already; an output has to fit into it, and nothing may stand above a 256-bit one. -/
def ResultInOrder (Γ : Instance) (ctx : Context) (slot : Int) (k : Nat) (after : Memory)
    (output : Option Nat) : Option ReturnKind → Prop
  | none => Cleared Γ ctx after slot
  | some kind => ∀ v, output = some v → v < 256 ^ (8 * k) ∧
      (kind = .i256 → after.read (slotBase Γ ctx slot + 32) (8 * k - 32) = 0)

/-! ## Runs to the end -/

section Runs

variable {M : Helpers} {globals : String → BitVec 32} {host opcode : String} {ctx : Context}
  {d : Descriptor} {mode : Mode} {plan : OperandPlan} {k : Nat} {σ τ : State} {vs : List Value}

theorem invoke_host_eq_ok {args : List Value}
    (h : invoke (M.around ctx host globals) host args σ = .ok vs τ) :
    ∃ answer after, M.host args σ.memory = some (answer, after) ∧ vs = answer.toList ∧
      τ = ⟨σ.locals, after, σ.calls ++ [⟨host, args, σ.memory⟩]⟩ := by
  cases hm : M.host args σ.memory with
  | none =>
      rw [invoke, show (M.around ctx host globals).routine host = some (hostRoutine M.host) from
        link_host] at h
      simp only [hostRoutine, hm] at h
      cases h
  | some result =>
      obtain ⟨answer, after⟩ := result
      rw [invoke_host hm] at h
      cases h
      exact ⟨answer, after, rfl, rfl, rfl⟩

/-- If the nodes of the result stage end well, the host was called and has answered. -/
theorem hostCall_of_resultNodes {Γ : Instance} (around : Γ = M.around ctx ("$" ++ d.name) globals)
    (run : evalAll Γ (resultNodes ctx opcode d mode plan) σ = .ok vs τ) :
    ∃ c ∈ τ.calls, ∃ answer after υ, c.target = "$" ++ d.name ∧
      M.host c.args c.memory = some (answer, after) ∧ υ.memory = after ∧
      eval Γ (hostCall ctx d mode plan) σ = .ok answer.toList υ := by
  have start : evalAll Γ (resultNodes ctx opcode d mode plan) σ =
      evalAll Γ (received ctx (ctx.statusInverted.contains opcode) plan.resultSlot
        (hostCall ctx d mode plan) d.result :: _) σ := evalAll_append_of_ok evalAll_remarks
  rw [start] at run
  obtain ⟨new, calls, -⟩ := calls_evalAll_cons Γ
    (received ctx (ctx.statusInverted.contains opcode) plan.resultSlot
      (hostCall ctx d mode plan) d.result)
    (completion ctx plan.resultSlot d.result ++
      clearing ctx (plan.reconciledSlots.filter (· ≠ plan.resultSlot))) σ
  rw [run, calls_received] at calls
  cases hcall : eval Γ (hostCall ctx d mode plan) σ with
  | error fault υ =>
      -- no instruction around the host call would have ended well
      rw [evalAll_cons_error (received_error hcall)] at run
      cases run
  | ok us υ =>
      rw [hcall] at calls
      rw [hostCall, HostCall.emit, eval] at hcall
      obtain ⟨args, ρ, -, invoked⟩ := bind_eq_ok hcall
      subst around
      obtain ⟨answer, after, answered, rfl, rfl⟩ := invoke_host_eq_ok invoked
      refine ⟨⟨"$" ++ d.name, args, ρ.memory⟩, ?_, answer, after, _, rfl, answered, rfl, rfl⟩
      rw [show τ.calls = _ from calls]
      exact List.mem_append_left _ (List.mem_append_right _ (List.mem_singleton_self _))

/-- Whatever the result, and wherever the slots lie, the other dropped operands are cleared. -/
theorem others_cleared {Γ : Instance} (hw : ctx.wordBytes = 8)
    (geometry : ctx.slotBytes = 8 * (k : Int))
    (run : evalAll Γ (resultNodes ctx opcode d mode plan) σ = .ok vs τ) :
    ∀ slot ∈ plan.reconciledSlots, slot ≠ plan.resultSlot → Cleared Γ ctx τ.memory slot := by
  obtain ⟨_, σ₁, _, -, run, -⟩ := evalAll_append_eq_ok run
  obtain ⟨_, σ₂, _, -, run, -⟩ := evalAll_cons_eq_ok run
  obtain ⟨_, σ₃, _, -, run, -⟩ := evalAll_append_eq_ok run
  intro slot known ne
  exact cleared_of_clearing hw geometry run slot (mem_others.mpr ⟨known, ne⟩)

/-- Without an output nothing is written into the result slot behind the host call. -/
theorem evalAll_resultNodes_none {Γ : Instance} (opcode : String) (result : d.result = none)
    (hw : ctx.wordBytes = 8) (geometry : ctx.slotBytes = 8 * (k : Int)) {υ : State}
    (hcall : eval Γ (hostCall ctx d mode plan) σ = .ok vs υ)
    (inside : ∀ slot ∈ plan.resultSlot :: plan.reconciledSlots, SlotInside Γ ctx υ.memory slot) :
    ∃ m, evalAll Γ (resultNodes ctx opcode d mode plan) σ = .ok (vs ++ []) { υ with memory := m } ∧
      ∀ p, InSlot Γ ctx plan.resultSlot p → m.byte p = υ.memory.byte p := by
  obtain ⟨m, cleared, -, -, frame⟩ := evalAll_clearing hw geometry fun slot h =>
    inside slot (List.mem_cons_of_mem _ (mem_others.mp h).1)
  refine ⟨m, ?_, fun p hp => frame p fun slot h => ?_⟩
  · rw [resultNodes, result]
    exact (evalAll_append_of_ok evalAll_remarks).trans (evalAll_cons_ok hcall cleared)
  · obtain ⟨known, ne⟩ := mem_others.mp h
    exact others_disjoint inside hp slot known ne

/-- Without an output the promise rests on what the host leaves in the result slot. -/
theorem droppedCleared_iff_of_none {Γ : Instance} (result : d.result = none)
    (hw : ctx.wordBytes = 8) (geometry : ctx.slotBytes = 8 * (k : Int)) {us : List Value}
    {υ : State} (hcall : eval Γ (hostCall ctx d mode plan) σ = .ok us υ)
    (inside : ∀ slot ∈ plan.resultSlot :: plan.reconciledSlots, SlotInside Γ ctx υ.memory slot)
    (run : evalAll Γ (resultNodes ctx opcode d mode plan) σ = .ok vs τ) :
    DroppedCleared Γ ctx plan k none τ.memory ↔
      (plan.resultSlot ∈ plan.reconciledSlots → Cleared Γ ctx υ.memory plan.resultSlot) := by
  have others := others_cleared hw geometry run
  obtain ⟨m, run', frame⟩ := evalAll_resultNodes_none opcode result hw geometry hcall inside
  obtain rfl : τ = { υ with memory := m } := by
    rw [run] at run'
    cases run'
    rfl
  have same : Cleared Γ ctx m plan.resultSlot ↔ Cleared Γ ctx υ.memory plan.resultSlot := by
    have here := inside plan.resultSlot List.mem_cons_self
    rw [cleared_iff here, cleared_iff here]
    exact forall₂_congr fun p hp => by rw [frame p hp]
  constructor
  · intro h known
    exact same.mp (h.others plan.resultSlot known (.inr rfl))
  · intro h
    refine ⟨fun slot known _ => ?_, fun _ v hv => by cases hv⟩
    by_cases top : slot = plan.resultSlot
    · subst top
      exact same.mpr (h known)
    · exact others slot known top

/-- With an output it rests on the width of the slot. -/
theorem droppedCleared_iff_of_some {Γ : Instance} {kind : ReturnKind} {v : Nat}
    {answer : Option Value} {reverse : BitVec 32 → Memory → Option (BitVec 32 × Memory)}
    (result : d.result = some kind) (hw : ctx.wordBytes = 8)
    (geometry : ctx.slotBytes = 8 * (k : Int))
    (linked : kind = .i256 → Γ.routine ctx.reverseBytes = some (reverseRoutine reverse))
    (reverses : Reverses reverse) {υ : State}
    (hcall : eval Γ (hostCall ctx d mode plan) σ = .ok answer.toList υ)
    (hv : resultValue (ctx.statusInverted.contains opcode) υ.memory
      (slotBase Γ ctx plan.resultSlot) kind answer = some v)
    (inside : ∀ slot ∈ plan.resultSlot :: plan.reconciledSlots, SlotInside Γ ctx υ.memory slot)
    (room : slotBase Γ ctx plan.resultSlot + 8 * resultWords kind ≤ υ.memory.size)
    (run : evalAll Γ (resultNodes ctx opcode d mode plan) σ = .ok vs τ) :
    DroppedCleared Γ ctx plan k (some v) τ.memory ↔
      (plan.resultSlot ∈ plan.reconciledSlots → v < 256 ^ (8 * k) ∧ (kind = .i256 →
        υ.memory.read (slotBase Γ ctx plan.resultSlot + 32) (8 * k - 32) = 0)) := by
  have wide : ctx.slotBytes.toNat = 8 * k := by omega
  have others := others_cleared hw geometry run
  obtain ⟨m, log, run', -, frame⟩ := evalAll_resultNodes result hw geometry linked reverses hcall
    hv inside room
  obtain rfl : τ = ⟨υ.locals, m, log⟩ := by
    rw [run] at run'
    cases run'
    rfl
  have read : m.read (slotBase Γ ctx plan.resultSlot) (8 * k) =
      (filled υ.memory (slotBase Γ ctx plan.resultSlot) k v kind).read
        (slotBase Γ ctx plan.resultSlot) (8 * k) := by
    refine Memory.read_congr fun i hi => frame _ (others_disjoint inside ?_)
    exact ⟨by omega, by omega⟩
  -- so both sides ask whether the slot reads as the value
  rw [← read_filled_iff hv, ← read]
  constructor
  · intro h known
    exact h.result known v rfl
  · intro h
    refine ⟨fun slot known cause => ?_, fun known v' hv' => ?_⟩
    · exact others slot known (cause.resolve_right (Option.some_ne_none v))
    · obtain rfl : v = v' := Option.some.inj hv'
      exact h known

end Runs

/-- **When dropped operands are cleared.** Every run that ends well has cleared the slots of all
dropped operands but the result slot. The result slot is one of them if the last operand is dropped;
it then holds the output that fits into it, but without an output it is as the host left it. -/
theorem dropped_operands_cleared_iff (opcode : String) (d : Descriptor) (mode : Mode)
    (ctx : Context) (M : Helpers) (globals : String → BitVec 32) {k : Nat}
    (paired : checkPairing d.inputs = .ok ()) (hw : ctx.wordBytes = 8)
    (geometry : ctx.slotBytes = 8 * (k : Int))
    (apart : d.result = some .i256 → ctx.reverseBytes ≠ "$" ++ d.name)
    (reverses : Reverses M.reverseBytes)
    (typed : ∀ args m answer after, M.host args m = some (answer, after) → Answers d answer) :
    ∃ plan f, planOperands opcode d ctx = .ok plan ∧ buildFunction opcode d mode ctx = .ok f ∧
      let Γ := M.around ctx ("$" ++ d.name) globals
      let base := slotBase Γ ctx plan.resultSlot
      ∀ args m vs σ, callFunction Γ f args m = .ok vs σ →
        (∀ slot ∈ plan.reconciledSlots, slot ≠ plan.resultSlot → Cleared Γ ctx σ.memory slot) ∧
        ∃ c ∈ σ.calls, ∃ answer after, c.target = "$" ++ d.name ∧
          M.host c.args c.memory = some (answer, after) ∧
          let output := d.result.bind
            (resultValue (ctx.statusInverted.contains opcode) after base · answer)
          ((∀ slot ∈ plan.resultSlot :: plan.reconciledSlots, SlotInside Γ ctx after slot) →
            (∀ kind, d.result = some kind → base + 8 * resultWords kind ≤ after.size) →
            (DroppedCleared Γ ctx plan k output σ.memory ↔
              (DropsLast opcode ctx d.inputs →
                ResultInOrder Γ ctx plan.resultSlot k after output d.result))) := by
  have hw0 : ctx.wordBytes ≠ 0 := by omega
  obtain ⟨plan, hplan⟩ : ∃ plan, planOperands opcode d ctx = .ok plan := by
    obtain ⟨e, q, w⟩ : ∃ e q, Walk opcode ctx {} d.inputs e q :=
      exists_walk hw0 (paired_of_checkPairing paired)
    exact ⟨e.plan q, planOperands_eq_ok_iff.mpr ⟨e, q, w, rfl⟩⟩
  refine ⟨plan, _, hplan, buildFunction_eq hw0 hplan, ?_⟩
  intro Γ base args m vs σ run
  obtain ⟨-, σ₁, ws, -, run, -⟩ := evalAll_cons_eq_ok run
  have others := others_cleared hw geometry run
  obtain ⟨c, logged, answer, after, υ, target, answered, rfl, called⟩ :=
    hostCall_of_resultNodes rfl run
  refine ⟨others, c, logged, answer, _, target, answered, ?_⟩
  intro output inside room
  rw [← resultSlot_mem_iff hplan]
  cases result : d.result with
  | none =>
      have silent : output = none := by
        show d.result.bind _ = none
        rw [result, Option.bind_none]
      rw [silent]
      exact droppedCleared_iff_of_none result hw geometry called inside run
  | some kind =>
      obtain ⟨v, hv⟩ := (typed _ _ _ _ answered).resultValue result
        (ctx.statusInverted.contains opcode) υ.memory base
      have present : output = some v := by
        show d.result.bind _ = _
        rw [result, Option.bind_some, hv]
      have width := droppedCleared_iff_of_some result hw geometry
        (fun wide => link_reverseBytes (apart (wide ▸ result))) reverses called hv inside
        (room kind result) run
      rw [present, width]
      simp only [ResultInOrder, Option.some.injEq, forall_eq']
      exact Iff.rfl

/-! ## A message whose operands are dropped -/

/-- A host call that takes a message only. As `CALL` it stands for four operands. -/
def sendData (outputs : List ReturnKind) : Descriptor where
  name := "send"
  inputs := [.readOffset, .length]
  outputs := outputs

/-- Zeros but for the two operands that the host call does not take, a 5 and below it a 7. -/
def staleMemory : Memory := .page fun p => if p = 960 then 5 else if p = 928 then 7 else 0

def sendStack (answer : Option Value) : Instance :=
  (Helpers.plain answer).around {} "$send" fun _ => 1024

/-- The state that the function ends in, if it ends well. -/
def sendEnd? (outputs : List ReturnKind) (answer : Option Value) : Option State :=
  match buildFunction "CALL" (sendData outputs) .sync {} with
  | .ok f => match callFunction (sendStack answer) f [] staleMemory with
    | .ok _ σ => some σ
    | .error .. => none
  | .error _ => none

theorem sendEnd?_eq_some {outputs : List ReturnKind} {answer : Option Value} {σ : State}
    (h : sendEnd? outputs answer = some σ) :
    ∃ f vs, buildFunction "CALL" (sendData outputs) .sync {} = .ok f ∧
      callFunction (sendStack answer) f [] staleMemory = .ok vs σ := by
  unfold sendEnd? at h
  split at h
  · next f built =>
      split at h
      · next vs τ run => exact ⟨f, vs, built, run.trans (congrArg _ (Option.some.inj h))⟩
      · cases h
  · cases h

theorem sendData_plan (outputs : List ReturnKind) :
    ∃ plan, planOperands "CALL" (sendData outputs) {} = .ok plan ∧
      plan.reconciledSlots = [-2, -3] ∧ plan.resultSlot = -3 := ⟨_, rfl, rfl, rfl⟩

/-- Without an output the lower of the two operands is still there at the end. -/
theorem sendData_operand_kept :
    ∃ plan f vs σ, planOperands "CALL" (sendData []) {} = .ok plan ∧
      buildFunction "CALL" (sendData []) .sync {} = .ok f ∧
      callFunction (sendStack none) f [] staleMemory = .ok vs σ ∧
      (sendData []).result = none ∧ -3 ∈ plan.reconciledSlots ∧
      ¬ Cleared (sendStack none) {} σ.memory (-3) := by
  obtain ⟨plan, hplan, slots, -⟩ := sendData_plan []
  have stale : (sendEnd? [] none).map (·.memory.byte 928) = some 7 := by decide +kernel
  obtain ⟨σ, ended, byte⟩ := Option.map_eq_some_iff.mp stale
  obtain ⟨f, vs, built, run⟩ := sendEnd?_eq_some ended
  refine ⟨plan, f, vs, σ, hplan, built, run, rfl, ?_, fun cleared => ?_⟩
  · rw [slots]
    decide
  · have zero : σ.memory.byte 928 = 0 := cleared 0 (by decide)
    rw [byte] at zero
    cases zero

/-- With one, both are gone, and the status stands in place of the lower one. -/
theorem sendData_operands_cleared :
    ∃ plan f vs σ, planOperands "CALL" (sendData [.i32]) {} = .ok plan ∧
      buildFunction "CALL" (sendData [.i32]) .sync {} = .ok f ∧
      callFunction (sendStack (some (.i32 0))) f [] staleMemory = .ok vs σ ∧
      DroppedCleared (sendStack (some (.i32 0))) {} plan 4 (some 1) σ.memory := by
  have typed : ∀ args m answer after,
      (Helpers.plain (some (.i32 0))).host args m = some (answer, after) →
        Answers (sendData [.i32]) answer := by
    intro args m answer after answered
    cases answered
    rfl
  obtain ⟨plan, f, hplan, built, runs⟩ := dropped_operands_cleared_iff "CALL" (sendData [.i32])
    .sync {} (Helpers.plain (some (.i32 0))) (fun _ => 1024) (k := 4) (by decide) rfl rfl
    (by decide) (reverses_plain _) typed
  have sizes : (sendEnd? [.i32] (some (.i32 0))).map (·.calls.all (·.memory.size = 4096)) =
      some true := by decide +kernel
  obtain ⟨σ, ended, sizes⟩ := Option.map_eq_some_iff.mp sizes
  obtain ⟨f', vs, built', run⟩ := sendEnd?_eq_some ended
  obtain rfl : f = f' := Except.ok.inj (built.symm.trans built')
  obtain ⟨-, c, logged, answer, after, -, answered, kept⟩ := runs [] staleMemory vs σ run
  cases answered
  have size : c.memory.size = 4096 := of_decide_eq_true (List.all_eq_true.mp sizes c logged)
  obtain ⟨plan', hplan', slots, top⟩ := sendData_plan [.i32]
  obtain rfl : plan = plan' := Except.ok.inj (hplan.symm.trans hplan')
  rw [top, slots, size] at kept
  refine ⟨plan, f, vs, σ, hplan, built, run, (kept ?_ ?_).mpr fun _ v hv => ?_⟩
  · intro slot h
    rw [SlotInside, size]
    rcases List.mem_cons.mp h with rfl | h
    · decide
    · rcases List.mem_cons.mp h with rfl | h
      · decide
      · obtain rfl := List.mem_singleton.mp h
        decide
  · intro kind h
    obtain rfl := Option.some.inj h
    decide
  · cases hv
    exact ⟨by decide, fun other => absurd other (by decide)⟩

end HostGlue.Marshal

import HostGlue.Proofs.Marshal.Arguments
import HostGlue.Proofs.Marshal.Completion

/-!
# Passing the arguments

A run of a whole function, up to the host call and past it. Either every operand is let through and
the host is called, once and on the memory the function was entered with, or some checker refuses an
operand and the function traps before the host is called.
-/

namespace HostGlue.Marshal

open Machine Wat Interface

/-! ## The locals at entry -/

/-- A declared local has a value from the start. -/
theorem frame_ne_none (params : List (String × String)) {locals : List (String × String)}
    (args : List Value) (typed : ∀ x ∈ locals, x.2 = "i32") {x : String × String}
    (hx : x ∈ locals) :
    frame params locals args x.1 ≠ none := by
  unfold frame
  split
  · exact Option.some_ne_none _
  · rw [lookup_i32 typed hx]
    exact Option.some_ne_none _

theorem frame_callback (name : String) (locals : List (String × String)) (v : Value) :
    frame [(name, "i32")] locals [v] name = some v := by
  simp [frame]

/-! ## The calls before the host call -/

theorem Walk.callees_args {opcode : String} {ctx : Context} {p q : Place} {kinds : List ParamKind}
    {e : Passed} (w : Walk opcode ctx p kinds e q) {f : String} (h : f ∈ calleesAll e.args) :
    f = ctx.checkI32 ∨ f = ctx.checkI64 := by
  induction w with
  | nil => simp at h
  | @cons p q r kind rest e e' step tail ih =>
      rw [Passed.append, calleesAll_append, List.mem_append] at h
      rcases h with h | h
      · cases step with
        | reference hk => simp at h
        | outputPointer => simp at h
        | scalar hw hk => cases kind <;> simp [scalarChecker?] at hk <;> subst hk <;> simp_all
        | offset hw hk => simp [callees] at h
        | length hw hk => simp [callees] at h
      · exact ih h

theorem Walk.callees_prelude {opcode : String} {ctx : Context} {p q : Place}
    {kinds : List ParamKind} {e : Passed} (w : Walk opcode ctx p kinds e q) {f : String}
    (h : f ∈ calleesAll e.prelude) : f = ctx.checkI32 ∨ f = ctx.chargeMemory := by
  induction w with
  | nil => simp at h
  | cons step tail ih =>
      rw [Passed.append, calleesAll_append, List.mem_append] at h
      rcases h with h | h
      · cases step with
        | reference hk => simp at h
        | outputPointer => simp at h
        | scalar hw hk => simp at h
        | offset hw hk => simpa [callees] using Or.inl (by simpa [callees] using h)
        | length hw hk => simpa [settlePair, callees] using h
      · exact ih h

/-! ## The run -/

theorem exists_map_some {α : Type} {os : List (Option α)} (h : none ∉ os) :
    ∃ vs : List α, os = vs.map some := by
  induction os with
  | nil => exact ⟨[], rfl⟩
  | cons o os ih =>
      rw [List.mem_cons, not_or] at h
      obtain ⟨vs, rfl⟩ := ih h.2
      obtain ⟨v, rfl⟩ := Option.ne_none_iff_exists'.mp (Ne.symm h.1)
      exact ⟨v :: vs, rfl⟩

section Run

variable {ctx : Context} {d : Descriptor} {mode : Mode}

/-- The calls of a function whose arguments settle: those before the host call, the host call, and
behind it nothing but reversals of bytes. -/
theorem result_calls {Γ : Instance} (opcode : String) (plan : OperandPlan) {routine : Routine}
    {vs : List Value} {callback : Value} {σ τ : State}
    (linked : Γ.routine ("$" ++ d.name) = some routine)
    (hargs : evalAll Γ plan.args σ = .ok vs τ)
    (hcallback : takesCallback d mode = true → τ.locals ctx.callbackLocal = some callback) :
    ∃ after, (endState (evalAll Γ (resultNodes ctx opcode d mode plan) σ)).calls =
        τ.calls ++ ⟨"$" ++ d.name, vs ++ (handleValues Γ ctx plan.resultSlot d.result ++
          if takesCallback d mode then [callback] else []), τ.memory⟩ :: after ∧
      ∀ c ∈ after, c.target = ctx.reverseBytes := by
  obtain ⟨after, hafter, targets⟩ := calls_evalAll_cons Γ
    (received ctx (ctx.statusInverted.contains opcode) plan.resultSlot
      (hostCall ctx d mode plan) d.result)
    (completion ctx plan.resultSlot d.result ++
      clearing ctx (plan.reconciledSlots.filter (· ≠ plan.resultSlot))) σ
  refine ⟨after, ?_, fun c hc => ?_⟩
  · have start : evalAll Γ (resultNodes ctx opcode d mode plan) σ = evalAll Γ _ σ :=
      evalAll_append_of_ok evalAll_remarks
    rw [start, hafter, calls_received, eval_hostCall hargs hcallback, invoke_calls linked,
      List.append_assoc]
    rfl
  · have named := targets c hc
    rw [calleesAll_append, callees_clearing, List.append_nil] at named
    exact callees_completion named

theorem result_error {Γ : Instance} {opcode : String} {plan : OperandPlan} {σ τ : State} {e : Fault}
    (hargs : evalAll Γ plan.args σ = .error e τ) :
    evalAll Γ (resultNodes ctx opcode d mode plan) σ = .error e τ :=
  evalAll_append_error_rest evalAll_remarks
    (evalAll_cons_error (received_error (eval_hostCall_error hargs)))

/-- The operands from the entry of the function on. Either the function traps because some operand
is refused, or the prelude and the arguments behind it come to their end. -/
theorem operands_settle {Γ : Instance} {M : Helpers} {opcode : String} {kinds : List ParamKind}
    {e : Passed} {q : Place} {L : String → Option Value} {m : Memory} (link : Linked M ctx Γ)
    (w : Walk opcode ctx {} kinds e q) (paired : Paired false kinds)
    (declared : ∀ x ∈ e.locals, L x.1 ≠ none) (quiet : ctx.chargeMemory ∉ calleesAll e.args) :
    let dropping := dropsOperands opcode ctx
    (none ∈ M.arguments Γ ctx m dropping 0 kinds ∧
      ∃ σ, evalAll Γ (.seq e.prelude :: resultNodes ctx opcode d mode (e.plan q)) ⟨L, m, []⟩ =
          .error .trap σ ∧
        ∀ c ∈ σ.calls, c.target ∈ calleesAll e.prelude ++ calleesAll e.args) ∨
    ∃ args L' log before, M.arguments Γ ctx m dropping 0 kinds = args.map some ∧
      eval Γ (.seq e.prelude) ⟨L, m, []⟩ = .ok [] ⟨L', m, log⟩ ∧
      evalAll Γ e.args ⟨L', m, log⟩ = .ok args ⟨L', m, before⟩ ∧
      (∀ c ∈ before, c.target ∈ calleesAll e.prelude ++ calleesAll e.args) ∧
      (∀ name, Unnumbered 0 name → L' name = L name) ∧
      (callsTo ctx.chargeMemory before).map (·.args) =
        charges (M.numbers Γ ctx m ParamKind.isOffset dropping 0 kinds)
          (M.numbers Γ ctx m (· = .length) dropping 0 kinds) := by
  intro dropping
  have before := evalAll_logs Γ e.prelude ⟨L, m, []⟩
  obtain ⟨refused, σ, trap⟩ | ⟨L', log, run, settled⟩ := prelude_settles link w paired declared 0
    (fun h => absurd h Bool.false_ne_true) []
  · -- the prelude traps at an offset or a length
    rw [trap] at before
    obtain ⟨new, hnew, targets⟩ := before
    refine .inl ⟨refused, σ, evalAll_cons_error trap, fun c hc => ?_⟩
    rw [show σ.calls = new from hnew] at hc
    exact List.mem_append_left _ (targets c hc)
  · rw [run] at before
    obtain ⟨new, hnew, targets⟩ := before
    rw [show log = new from hnew] at run settled
    have opened : eval Γ (.seq e.prelude) ⟨L, m, []⟩ = .ok [] ⟨L', m, new⟩ := run
    have behind := evalAll_logs Γ e.args ⟨L', m, new⟩
    by_cases refused : none ∈ M.arguments Γ ctx m dropping 0 kinds
    -- only an operand that is passed by value can still be refused here
    · obtain ⟨σ, trap⟩ := evalAll_of_yields_none settled.args refused new
      rw [trap] at behind
      obtain ⟨more, hmore, argTargets⟩ := behind
      refine .inl ⟨refused, σ, evalAll_cons_error_rest opened (result_error trap), fun c hc => ?_⟩
      rw [show σ.calls = new ++ more from hmore, List.mem_append] at hc
      exact List.mem_append.mpr (hc.imp (targets c) (argTargets c))
    · obtain ⟨args, hargs⟩ := exists_map_some refused
      have worth : List.Forall₂ (Yields Γ L' m) e.args (args.map some) := hargs ▸ settled.args
      obtain ⟨all, passed⟩ := evalAll_of_yields worth new
      have charged := (evalAll_logs Γ e.args).callsTo_eq quiet ⟨L', m, new⟩
      rw [passed] at behind charged
      obtain ⟨more, hmore, argTargets⟩ := behind
      refine .inr ⟨args, L', new, all, hargs, opened, passed, fun c hc => ?_, settled.others, ?_⟩
      · rw [show all = new ++ more from hmore, List.mem_append] at hc
        exact List.mem_append.mpr (hc.imp (targets c) (argTargets c))
      · rw [show callsTo ctx.chargeMemory all = callsTo ctx.chargeMemory new from charged,
          settled.charged]
        rfl

/-- **Every operand is passed as the host expects it.** For inputs that keep the pairing rule there
is a function. If no checker refuses an operand, the function calls the host once, on the memory it
was entered with, and the arguments of the inputs come first and in their order; before that it
charges once for each pair, with the offset not yet rebased. If some checker refuses, it traps and
never calls the host. -/
theorem arguments_passed (opcode : String) (d : Descriptor) (mode : Mode) (ctx : Context)
    (M : Helpers) (globals : String → BitVec 32) (m : Memory) (callback : Value)
    (paired : checkPairing d.inputs = .ok ()) (hw : ctx.wordBytes = 8)
    (names : NamesApart ctx ("$" ++ d.name)) (free : Unnumbered 0 ctx.callbackLocal) :
    ∃ f, buildFunction opcode d mode ctx = .ok f ∧
      let Γ := M.around ctx ("$" ++ d.name) globals
      let dropping := dropsOperands opcode ctx
      let continuation := if takesCallback d mode then [callback] else []
      let outcome := callFunction Γ f continuation m
      (none ∉ M.arguments Γ ctx m dropping 0 d.inputs →
        ∃ args before after, M.arguments Γ ctx m dropping 0 d.inputs = args.map some ∧
          (endState outcome).calls = before ++ ⟨"$" ++ d.name, args ++
            (handleValues Γ ctx (1 - stackDepth dropping d.inputs) d.result ++ continuation),
            m⟩ :: after ∧
          (∀ c ∈ before ++ after, c.target ≠ "$" ++ d.name) ∧
          (callsTo ctx.chargeMemory before).map (·.args) =
            charges (M.numbers Γ ctx m ParamKind.isOffset dropping 0 d.inputs)
              (M.numbers Γ ctx m (· = .length) dropping 0 d.inputs) ∧
          callsTo ctx.chargeMemory after = []) ∧
      (none ∈ M.arguments Γ ctx m dropping 0 d.inputs →
        ∃ σ, outcome = .error .trap σ ∧ ∀ c ∈ σ.calls, c.target ≠ "$" ++ d.name) := by
  have hw0 : ctx.wordBytes ≠ 0 := by omega
  obtain ⟨e, q, w⟩ : ∃ e q, Walk opcode ctx {} d.inputs e q :=
    exists_walk hw0 (paired_of_checkPairing paired)
  have hplan : planOperands opcode d ctx = .ok (e.plan q) :=
    planOperands_eq_ok_iff.mpr ⟨e, q, w, rfl⟩
  refine ⟨_, buildFunction_eq hw0 hplan, ?_⟩
  intro Γ dropping continuation outcome
  have link : Linked M ctx Γ := linked_around M globals hw names
  simp only [NamesApart, List.nodup_cons, List.mem_cons, not_or] at names
  obtain ⟨⟨hostI32, hostI64, hostCharge, hostReverse, -⟩, -, ⟨i64Charge, -⟩,
    ⟨chargeReverse, -⟩, -⟩ := names
  -- the calls of the prelude and of the argument expressions are none of the host
  have others (f) (h : f ∈ calleesAll e.prelude ++ calleesAll e.args) : f ≠ "$" ++ d.name := by
    rcases List.mem_append.mp h with h | h
    · rcases w.callees_prelude h with rfl | rfl
      · exact Ne.symm hostI32
      · exact Ne.symm hostCharge
    · rcases w.callees_args h with rfl | rfl
      · exact Ne.symm hostI32
      · exact Ne.symm hostI64
  have quiet : ctx.chargeMemory ∉ calleesAll e.args := by
    intro h
    rcases w.callees_args h with same | same
    · exact link.apart same.symm
    · exact i64Charge same.symm
  have resultSlot : (e.plan q).resultSlot = 1 - stackDepth dropping d.inputs := by
    show q.slot + 1 = _
    rw [w.slot_eq]
    show (0 : Int) - stackDepth dropping d.inputs + 1 = _
    omega
  have entered : outcome = evalAll Γ (.seq e.prelude :: resultNodes ctx opcode d mode (e.plan q))
      ⟨frame (if takesCallback d mode then [(ctx.callbackLocal, "i32")] else []) e.locals
        continuation, m, []⟩ := rfl
  have declared := fun x (hx : x ∈ e.locals) => frame_ne_none
    (if takesCallback d mode then [(ctx.callbackLocal, "i32")] else []) continuation
    w.locals_i32 hx
  have continued (h : takesCallback d mode = true) :
      frame (if takesCallback d mode then [(ctx.callbackLocal, "i32")] else []) e.locals
        continuation ctx.callbackLocal = some callback := by
    show frame (if takesCallback d mode then _ else _) e.locals
      (if takesCallback d mode then _ else _) ctx.callbackLocal = _
    rw [if_pos h, if_pos h]
    exact frame_callback ..
  generalize frame (if takesCallback d mode then [(ctx.callbackLocal, "i32")] else []) e.locals
    continuation = L at entered declared continued
  obtain ⟨refused, σ, trap, targets⟩ | ⟨args, L', log, before, hargs, opened, passed, targets,
    untouched, charged⟩ := operands_settle (d := d) link w (paired_of_checkPairing paired) declared
      quiet
  · exact ⟨fun accepted => absurd refused accepted, fun _ =>
      ⟨σ, entered.trans trap, fun c hc => others _ (targets c hc)⟩⟩
  · have accepted : none ∉ M.arguments Γ ctx m dropping 0 d.inputs := by
      rw [hargs]
      simp
    have handover : outcome =
        evalAll Γ (resultNodes ctx opcode d mode (e.plan q)) ⟨L', m, log⟩ :=
      entered.trans (evalAll_append_of_ok (evalAll_cons_ok opened evalAll_nil))
    obtain ⟨after, hafter, afterTargets⟩ := result_calls opcode (e.plan q) link_host passed
      fun h => (untouched _ free).trans (continued h)
    refine ⟨fun _ => ⟨args, before, after, hargs, ?_, fun c hc => ?_, charged, ?_⟩,
      fun refused => absurd refused accepted⟩
    · rw [handover, hafter, resultSlot]
    · rcases List.mem_append.mp hc with hc | hc
      · exact others _ (targets c hc)
      · rw [afterTargets c hc]
        exact Ne.symm hostReverse
    · refine callsTo_eq_nil fun c hc => ?_
      rw [afterTargets c hc]
      exact Ne.symm chargeReverse

end Run

/-! ## A call -/

/-- A call with a gas limit, an address and call data, in the asynchronous variant. -/
def messageCall : Descriptor where
  name := "call"
  isAsync := true
  inputs := [.i64, .address, .readOffset, .length]
  outputs := [.i32]

/-- The operands 9, an address, 5 and 3, from the slot at 1024 downwards. -/
def callMemory : Memory :=
  .page fun p => if p = 1024 then 9 else if p = 960 then 5 else if p = 928 then 3 else 0

def callGlobals (name : String) : BitVec 32 :=
  if name = "$sp" then 1024 else if name = "$memstart" then 16 else 0

def callInstance : Instance := (Helpers.plain (some (.i32 0))).around {} "$call" callGlobals

theorem messageCall_passed :
    ∃ f before after, buildFunction "CALL" messageCall .async {} = .ok f ∧
      (endState (callFunction callInstance f [.i32 77] callMemory)).calls =
        before ++ ⟨"$call", [.i64 9, .i32 992, .i32 21, .i32 3, .i32 77], callMemory⟩ :: after ∧
      (∀ c ∈ before ++ after, c.target ≠ "$call") ∧
      (callsTo "$memusegas" before).map (·.args) = [[.i32 5, .i32 3]] := by
  obtain ⟨f, hf, accepted, -⟩ := arguments_passed "CALL" messageCall .async {}
    (Helpers.plain (some (.i32 0))) callGlobals callMemory (.i32 77) (by decide) rfl (by decide)
    unnumbered_callback
  have worth : (Helpers.plain (some (.i32 0))).arguments callInstance {} callMemory true 0
      messageCall.inputs = [.i64 9, .i32 992, .i32 21, .i32 3].map some := by decide +kernel
  have letThrough : none ∉ (Helpers.plain (some (.i32 0))).arguments callInstance {} callMemory true
      0 messageCall.inputs := by
    rw [worth]
    simp
  obtain ⟨args, before, after, hargs, calls, others, charged, -⟩ := accepted letThrough
  have values : args = [.i64 9, .i32 992, .i32 21, .i32 3] :=
    List.map_injective_iff.mpr (Option.some_injective _) (hargs.symm.trans worth)
  subst values
  exact ⟨f, before, after, hf, calls, others, charged.trans (by decide +kernel)⟩

end HostGlue.Marshal

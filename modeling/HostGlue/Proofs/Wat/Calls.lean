import HostGlue.Proofs.Wat.Evaluation

/-!
# Calls made by a node

The routines a node names are the only ones its evaluation calls, however it ends: the log only
grows, and by entries for those names (`eval_logs`). So what a node does not name keeps its entries.
-/

namespace HostGlue.Wat

mutual

/-- The routines that a node names, in the order in which it calls them. -/
def callees : Node → List String
  | .setLocal _ value => callees value
  | .instr _ args => calleesAll args
  | .load _ addr => callees addr
  | .store _ addr value => callees addr ++ callees value
  | .call target args => calleesAll args ++ [target]
  | .seq items => calleesAll items
  | _ => []

def calleesAll : List Node → List String
  | [] => []
  | node :: rest => callees node ++ calleesAll rest

end

@[simp] theorem calleesAll_nil : calleesAll [] = [] := rfl

@[simp] theorem calleesAll_cons (n : Node) (ns : List Node) :
    calleesAll (n :: ns) = callees n ++ calleesAll ns := rfl

theorem calleesAll_append (ns ks : List Node) :
    calleesAll (ns ++ ks) = calleesAll ns ++ calleesAll ks := by
  induction ns with
  | nil => rfl
  | cons n ns ih => rw [List.cons_append, calleesAll_cons, calleesAll_cons, ih, List.append_assoc]

/-- The run adds to the log only, and only calls of these routines. -/
def Logs {α : Type} (targets : List String) (x : Run α) : Prop :=
  ∀ σ, ∃ new, (endState (x σ)).calls = σ.calls ++ new ∧ ∀ c ∈ new, c.target ∈ targets

namespace Logs

variable {α β : Type} {targets others : List String} {x : Run α} {f : α → Run β}

/-- A run that leaves the log as it is. -/
theorem of_calls_eq (h : ∀ σ, (endState (x σ)).calls = σ.calls) : Logs targets x := by
  intro σ
  exact ⟨[], by rw [h, List.append_nil], by simp⟩

theorem bind (hx : Logs targets x) (hf : ∀ a, Logs others (f a)) :
    Logs (targets ++ others) (x >>= f) := by
  intro σ
  obtain ⟨new, hnew, hmem⟩ := hx σ
  cases h : x σ with
  | error e τ =>
      rw [h] at hnew
      rw [bind_error h]
      exact ⟨new, hnew, fun c hc => List.mem_append_left _ (hmem c hc)⟩
  | ok a τ =>
      rw [h] at hnew
      rw [bind_ok h]
      obtain ⟨more, hmore, hmem'⟩ := hf a τ
      refine ⟨new ++ more, ?_, ?_⟩
      · rw [hmore, show τ.calls = σ.calls ++ new from hnew, List.append_assoc]
      · intro c hc
        rcases List.mem_append.mp hc with hc | hc
        · exact List.mem_append_left _ (hmem c hc)
        · exact List.mem_append_right _ (hmem' c hc)

/-- A run followed by one that leaves the log as it is. -/
theorem bind_silent (hx : Logs targets x) (hf : ∀ a, Logs [] (f a)) : Logs targets (x >>= f) := by
  simpa using hx.bind hf

end Logs

/-! ## Single instructions -/

theorem logs_pure {α : Type} (a : α) : Logs [] (pure a : Run α) :=
  Logs.of_calls_eq fun _ => rfl

theorem logs_throw {α : Type} (e : Fault) : Logs [] (throw e : Run α) :=
  Logs.of_calls_eq fun _ => rfl

theorem assign_logs (name : String) (vs : List Value) : Logs [] (assign name vs) := by
  refine Logs.of_calls_eq fun σ => ?_
  unfold assign
  split
  · split <;> rfl
  · rfl

theorem operate_logs (op : String) (vs : List Value) : Logs [] (operate op vs) := by
  refine Logs.of_calls_eq fun σ => ?_
  unfold operate
  split <;> rfl

theorem loadFrom_logs (t : ValType) (vs : List Value) : Logs [] (loadFrom t vs) := by
  refine Logs.of_calls_eq fun σ => ?_
  unfold loadFrom
  split
  · split <;> rfl
  · rfl

theorem storeTo_logs (t : ValType) (vs : List Value) : Logs [] (storeTo t vs) := by
  refine Logs.of_calls_eq fun σ => ?_
  unfold storeTo
  split
  · split
    · split <;> rfl
    · rfl
  · rfl

theorem invoke_logs (Γ : Instance) (target : String) (args : List Value) :
    Logs [target] (invoke Γ target args) := by
  intro σ
  unfold invoke
  cases Γ.routine target with
  | none => exact ⟨[], by simp [endState], by simp⟩
  | some routine =>
      refine ⟨[⟨target, args, σ.memory⟩], ?_, by simp⟩
      dsimp only
      cases routine args σ.memory <;> rfl

/-! ## Nodes -/

mutual

theorem eval_logs (Γ : Instance) : ∀ n : Node, Logs (callees n) (eval Γ n)
  | .const valtype n => by
      rw [eval]
      split
      · exact logs_pure _
      · exact logs_throw _
  | .getGlobal name => logs_pure _
  | .getLocal name => by
      refine Logs.of_calls_eq fun σ => ?_
      unfold eval
      split <;> rfl
  | .setLocal name value => (eval_logs Γ value).bind_silent (assign_logs name)
  | .instr op args => (evalAll_logs Γ args).bind_silent (operate_logs op)
  | .load valtype addr => by
      rw [eval]
      refine (eval_logs Γ addr).bind_silent fun vs => ?_
      split
      · exact loadFrom_logs _ vs
      · exact logs_throw _
  | .store valtype addr value => by
      rw [eval]
      refine (eval_logs Γ addr).bind fun vs => (eval_logs Γ value).bind_silent fun ws => ?_
      split
      · exact storeTo_logs _ _
      · exact logs_throw _
  | .call target args => (evalAll_logs Γ args).bind (invoke_logs Γ target)
  | .note _ => logs_pure _
  | .seq items => evalAll_logs Γ items
  | .func .. => logs_throw _
  | .hostImport _ => logs_throw _
  | .blank => logs_throw _

theorem evalAll_logs (Γ : Instance) : ∀ ns : List Node, Logs (calleesAll ns) (evalAll Γ ns)
  | [] => logs_pure _
  | n :: ns => (eval_logs Γ n).bind fun _ => (evalAll_logs Γ ns).bind_silent fun _ => logs_pure _

end

/-! ## Ends of logs -/

theorem invoke_calls {Γ : Instance} {target : String} {routine : Routine}
    (h : Γ.routine target = some routine) (args : List Value) (σ : State) :
    (endState (invoke Γ target args σ)).calls = σ.calls ++ [⟨target, args, σ.memory⟩] := by
  unfold invoke
  rw [h]
  dsimp only
  cases routine args σ.memory <;> rfl

/-- What follows a silent step leaves its log alone. -/
theorem calls_bind_silent {α β : Type} {x : Run α} {k : α → Run β} {σ : State}
    (h : ∀ a, Logs [] (k a)) :
    (endState ((x >>= k) σ)).calls = (endState (x σ)).calls := by
  cases hx : x σ with
  | error e τ => rw [bind_error hx]; rfl
  | ok a τ =>
      obtain ⟨new, hnew, none⟩ := h a τ
      have silent : new = [] := by
        rw [List.eq_nil_iff_forall_not_mem]
        exact fun c hc => List.not_mem_nil (none c hc)
      rw [bind_ok hx, hnew, silent, List.append_nil]
      rfl

/-- A list of nodes goes on from the log of its first node, however that ends. -/
theorem calls_evalAll_cons (Γ : Instance) (n : Node) (ns : List Node) (σ : State) :
    ∃ new, (endState (evalAll Γ (n :: ns) σ)).calls = (endState (eval Γ n σ)).calls ++ new ∧
      ∀ c ∈ new, c.target ∈ calleesAll ns := by
  cases hn : eval Γ n σ with
  | error e τ =>
      rw [evalAll_cons_error hn]
      exact ⟨[], (List.append_nil _).symm, by simp⟩
  | ok vs τ =>
      obtain ⟨new, hnew, hmem⟩ := evalAll_logs Γ ns τ
      refine ⟨new, ?_, hmem⟩
      rw [evalAll, bind_ok hn, calls_bind_silent fun ws => logs_pure (vs ++ ws), hnew]
      rfl

/-! ## The calls of one routine -/

/-- The logged calls of a routine. -/
def callsTo (target : String) (log : List Call) : List Call := log.filter (·.target = target)

theorem callsTo_append (target : String) (log log' : List Call) :
    callsTo target (log ++ log') = callsTo target log ++ callsTo target log' :=
  List.filter_append ..

theorem callsTo_eq_nil {target : String} {log : List Call}
    (h : ∀ c ∈ log, c.target ≠ target) : callsTo target log = [] := by
  rw [callsTo, List.filter_eq_nil_iff]
  intro c hc same
  exact h c hc (of_decide_eq_true same)

/-- A run that never calls a routine leaves its calls as they were. -/
theorem Logs.callsTo_eq {α : Type} {targets : List String} {x : Run α} (h : Logs targets x)
    {target : String} (absent : target ∉ targets) (σ : State) :
    callsTo target (endState (x σ)).calls = callsTo target σ.calls := by
  obtain ⟨new, hnew, hmem⟩ := h σ
  have none : callsTo target new = [] :=
    callsTo_eq_nil fun c hc same => absent (same ▸ hmem c hc)
  rw [hnew, callsTo_append, none, List.append_nil]

end HostGlue.Wat

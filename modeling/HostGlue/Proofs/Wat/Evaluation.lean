import HostGlue.Proofs.Wat.Memory
import HostGlue.Wat.Node
import Mathlib.Logic.Function.Basic

/-!
# Evaluation of generated code

A folded instruction evaluates its operands from left to right and applies itself to the values
they leave, so a node has a list of values: none for a statement, one for an expression. A run keeps
the locals, the memory and a log of the calls made so far; the log survives a fault, so what was
called before one is still known. Globals and routines are around the code: it sets no global.

A *trap* ends a run of code that is otherwise in order (an access outside the memory, a routine that
refuses its arguments). Code is *stuck* when an instruction meets values it does not take, a local
that is not declared or a routine that does not exist.
-/

namespace HostGlue.Wat

/-! ## Values -/

inductive ValType where
  | i32
  | i64
  deriving Repr, DecidableEq

def ValType.ofName? (s : String) : Option ValType :=
  if s = "i32" then some .i32 else if s = "i64" then some .i64 else none

/-- The number of bytes a value takes in memory. -/
def ValType.width : ValType → Nat
  | .i32 => 4
  | .i64 => 8

inductive Value where
  | i32 (v : BitVec 32)
  | i64 (v : BitVec 64)
  deriving Repr, DecidableEq

def Value.type : Value → ValType
  | .i32 _ => .i32
  | .i64 _ => .i64

def Value.toNat : Value → Nat
  | .i32 v => v.toNat
  | .i64 v => v.toNat

/-- The value with the given bits, those beyond the width dropped. -/
def ValType.value : ValType → Int → Value
  | .i32, n => .i32 (BitVec.ofInt 32 n)
  | .i64, n => .i64 (BitVec.ofInt 64 n)

@[simp] theorem ofName?_i32 : ValType.ofName? "i32" = some .i32 := rfl

@[simp] theorem ofName?_i64 : ValType.ofName? "i64" = some .i64 := rfl

/-! ## Runs -/

inductive Fault where
  | trap
  | stuck
  deriving Repr, DecidableEq

/-- A call with its arguments and the memory it was made on. -/
structure Call where
  target : String
  args : List Value
  memory : Memory

structure State where
  locals : String → Option Value
  memory : Memory
  calls : List Call

abbrev Run := EStateM Fault State

abbrev Outcome (α : Type) := EStateM.Result Fault State α

/-- The state a run ends in, by a fault or not. -/
def endState {α : Type} : Outcome α → State
  | .ok _ σ => σ
  | .error _ σ => σ

abbrev Routine := List Value → Memory → Except Fault (List Value × Memory)

/-- What generated code finds around it: the globals, and the routines it calls by name. -/
structure Instance where
  globals : String → BitVec 32
  routine : String → Option Routine

def assign (name : String) (vs : List Value) : Run (List Value) := fun σ =>
  match vs with
  | [v] =>
    if σ.locals name = none then .error .stuck σ
    else .ok [] { σ with locals := Function.update σ.locals name (some v) }
  | _ => .error .stuck σ

def operate : String → List Value → Run (List Value)
  | "i32.add", [.i32 a, .i32 b] => return [.i32 (a + b)]
  | "i32.eqz", [.i32 a] => return [.i32 (if a = 0 then 1 else 0)]
  | "i64.extend_u/i32", [.i32 a] => return [.i64 (a.setWidth 64)]
  | "drop", [_] => return []
  | _, _ => throw .stuck

def loadFrom (t : ValType) (vs : List Value) : Run (List Value) := fun σ =>
  match vs with
  | [.i32 a] =>
    match σ.memory.load? a.toNat t.width with
    | some n => .ok [t.value n] σ
    | none => .error .trap σ
  | _ => .error .stuck σ

def storeTo (t : ValType) (vs : List Value) : Run (List Value) := fun σ =>
  match vs with
  | [.i32 a, v] =>
    if v.type = t then
      match σ.memory.store? a.toNat t.width v.toNat with
      | some m => .ok [] { σ with memory := m }
      | none => .error .trap σ
    else .error .stuck σ
  | _ => .error .stuck σ

/-- Logs the call and hands the arguments to the routine. -/
def invoke (Γ : Instance) (target : String) (args : List Value) : Run (List Value) := fun σ =>
  match Γ.routine target with
  | none => .error .stuck σ
  | some routine =>
    let logged := { σ with calls := σ.calls ++ [⟨target, args, σ.memory⟩] }
    match routine args σ.memory with
    | .ok (results, m) => .ok results { logged with memory := m }
    | .error fault => .error fault logged

mutual

/-- The values that a node leaves. -/
def eval (Γ : Instance) : Node → Run (List Value)
  | .const valtype n =>
    match ValType.ofName? valtype with
    | some t => return [t.value n]
    | none => throw .stuck
  | .getGlobal name => return [.i32 (Γ.globals name)]
  | .getLocal name => fun σ =>
    match σ.locals name with
    | some v => .ok [v] σ
    | none => .error .stuck σ
  | .setLocal name value => do
    let vs ← eval Γ value
    assign name vs
  | .instr op args => do
    let vs ← evalAll Γ args
    operate op vs
  | .load valtype addr => do
    let vs ← eval Γ addr
    match ValType.ofName? valtype with
    | some t => loadFrom t vs
    | none => throw .stuck
  | .store valtype addr value => do
    let vs ← eval Γ addr
    let ws ← eval Γ value
    match ValType.ofName? valtype with
    | some t => storeTo t (vs ++ ws)
    | none => throw .stuck
  | .call target args => do
    let vs ← evalAll Γ args
    invoke Γ target vs
  | .note _ => return []
  | .seq items => evalAll Γ items
  | .func .. => throw .stuck
  | .hostImport _ => throw .stuck
  | .blank => throw .stuck

/-- The values of the nodes, those of the first node first. -/
def evalAll (Γ : Instance) : List Node → Run (List Value)
  | [] => return []
  | node :: rest => do
    let vs ← eval Γ node
    let ws ← evalAll Γ rest
    return vs ++ ws

end

/-- The locals of a call: parameters hold the arguments, and the others are zero. -/
def frame (params locals : List (String × String)) (args : List Value) (name : String) :
    Option Value :=
  match (params.zip args).find? (·.1.1 = name) with
  | some (_, v) => some v
  | none => ((locals.lookup name).bind ValType.ofName?).map (·.value 0)

/-- A call of a function from outside. -/
def callFunction (Γ : Instance) (f : Node) (args : List Value) (m : Memory) :
    Outcome (List Value) :=
  match f with
  | .func _ params locals body => evalAll Γ body ⟨frame params locals args, m, []⟩
  | _ => .error .stuck ⟨fun _ => none, m, []⟩

/-! ## Sequencing -/

section Sequencing

variable {α β : Type} {x : Run α} {f : α → Run β} {σ σ' : State}

theorem bind_ok {v : α} (h : x σ = .ok v σ') : (x >>= f) σ = f v σ' := by
  show EStateM.bind x f σ = _
  rw [EStateM.bind, h]

theorem bind_error {e : Fault} (h : x σ = .error e σ') : (x >>= f) σ = .error e σ' := by
  show EStateM.bind x f σ = _
  rw [EStateM.bind, h]

/-- A sequence that ends well has a first half that did. -/
theorem bind_eq_ok {v : β} (h : (x >>= f) σ = .ok v σ') :
    ∃ a τ, x σ = .ok a τ ∧ f a τ = .ok v σ' := by
  cases hx : x σ with
  | ok a τ => exact ⟨a, τ, rfl, by rw [← h, bind_ok hx]⟩
  | error e τ =>
      rw [bind_error hx] at h
      cases h

end Sequencing

section EvalAll

variable {Γ : Instance} {n : Node} {ns ks : List Node} {σ σ₁ σ₂ : State} {vs ws : List Value}
  {e : Fault}

@[simp] theorem evalAll_nil : evalAll Γ [] σ = .ok [] σ := rfl

theorem evalAll_cons_ok (h₁ : eval Γ n σ = .ok vs σ₁) (h₂ : evalAll Γ ns σ₁ = .ok ws σ₂) :
    evalAll Γ (n :: ns) σ = .ok (vs ++ ws) σ₂ := by
  rw [evalAll, bind_ok h₁, bind_ok h₂]
  rfl

theorem evalAll_cons_error (h : eval Γ n σ = .error e σ₁) :
    evalAll Γ (n :: ns) σ = .error e σ₁ := by
  rw [evalAll, bind_error h]

theorem evalAll_cons_error_rest (h₁ : eval Γ n σ = .ok vs σ₁)
    (h₂ : evalAll Γ ns σ₁ = .error e σ₂) : evalAll Γ (n :: ns) σ = .error e σ₂ := by
  rw [evalAll, bind_ok h₁, bind_error h₂]

/-- Inversion of `evalAll_cons_ok`. -/
theorem evalAll_cons_eq_ok (h : evalAll Γ (n :: ns) σ = .ok vs σ₂) :
    ∃ us τ ws, eval Γ n σ = .ok us τ ∧ evalAll Γ ns τ = .ok ws σ₂ ∧ vs = us ++ ws := by
  rw [evalAll] at h
  obtain ⟨us, τ, h₁, h⟩ := bind_eq_ok h
  obtain ⟨ws, τ', h₂, h⟩ := bind_eq_ok h
  cases h
  exact ⟨us, τ, ws, h₁, h₂, rfl⟩

theorem evalAll_append_ok (h₁ : evalAll Γ ns σ = .ok vs σ₁) (h₂ : evalAll Γ ks σ₁ = .ok ws σ₂) :
    evalAll Γ (ns ++ ks) σ = .ok (vs ++ ws) σ₂ := by
  induction ns generalizing σ vs with
  | nil =>
      cases h₁
      exact h₂
  | cons n ns ih =>
      obtain ⟨us, τ, us', hn, hns, rfl⟩ := evalAll_cons_eq_ok h₁
      rw [List.cons_append, List.append_assoc]
      exact evalAll_cons_ok hn (ih hns)

theorem evalAll_append_error (h : evalAll Γ ns σ = .error e σ₁) :
    evalAll Γ (ns ++ ks) σ = .error e σ₁ := by
  induction ns generalizing σ with
  | nil => cases h
  | cons n ns ih =>
      cases hn : eval Γ n σ with
      | error e' τ =>
          rw [evalAll_cons_error hn] at h
          rw [List.cons_append, evalAll_cons_error hn, h]
      | ok us τ =>
          cases hns : evalAll Γ ns τ with
          | ok ws τ' =>
              rw [evalAll_cons_ok hn hns] at h
              cases h
          | error e' τ' =>
              rw [evalAll_cons_error_rest hn hns] at h
              rw [List.cons_append, evalAll_cons_error_rest hn (ih (hns.trans h))]

theorem evalAll_append_error_rest (h₁ : evalAll Γ ns σ = .ok vs σ₁)
    (h₂ : evalAll Γ ks σ₁ = .error e σ₂) : evalAll Γ (ns ++ ks) σ = .error e σ₂ := by
  induction ns generalizing σ vs with
  | nil =>
      cases h₁
      exact h₂
  | cons n ns ih =>
      obtain ⟨us, τ, us', hn, hns, rfl⟩ := evalAll_cons_eq_ok h₁
      exact evalAll_cons_error_rest hn (ih hns)

/-- Nodes that leave no value hand over to those behind them. -/
theorem evalAll_append_of_ok (h : evalAll Γ ns σ = .ok [] σ₁) :
    evalAll Γ (ns ++ ks) σ = evalAll Γ ks σ₁ := by
  cases hk : evalAll Γ ks σ₁ with
  | ok ws τ => exact evalAll_append_ok h hk
  | error e τ => exact evalAll_append_error_rest h hk

theorem evalAll_note_cons (text : String) : evalAll Γ (.note text :: ns) σ = evalAll Γ ns σ := by
  have silent : eval Γ (.note text) σ = .ok [] σ := rfl
  exact evalAll_append_of_ok (evalAll_cons_ok silent evalAll_nil)

/-- Inversion of `evalAll_append_ok`. -/
theorem evalAll_append_eq_ok (h : evalAll Γ (ns ++ ks) σ = .ok vs σ₂) :
    ∃ us τ ws, evalAll Γ ns σ = .ok us τ ∧ evalAll Γ ks τ = .ok ws σ₂ ∧ vs = us ++ ws := by
  cases hns : evalAll Γ ns σ with
  | error e τ =>
      rw [evalAll_append_error hns] at h
      cases h
  | ok us τ =>
      cases hks : evalAll Γ ks τ with
      | error e τ' =>
          rw [evalAll_append_error_rest hns hks] at h
          cases h
      | ok ws τ' =>
          rw [evalAll_append_ok hns hks] at h
          cases h
          exact ⟨us, τ, ws, rfl, hks, rfl⟩

end EvalAll

end HostGlue.Wat

import HostGlue.Proofs.Marshal.Walk
import HostGlue.Proofs.Wat.Calls

/-!
# Slots in memory

The machine around a generated function, and what the code that reads a slot finds there. A checker
maps the words of a slot to a value or refuses them; the charging routine only returns; the routine
that reverses bytes and the host may change the memory.

`Yields` states what an expression is worth: a value, with nothing changed but the log, or a trap.
Addresses of slots and checked slots have their worth in the instance and the memory alone.
-/

namespace HostGlue.Marshal

open Machine Wat Interface

/-! ## The routines -/

/-- An interpretation of the routines that generated code calls. No answer is a trap. -/
structure Helpers where
  checkI32 : List (BitVec 64) → Option (BitVec 32)
  checkI64 : List (BitVec 64) → Option (BitVec 64)
  reverseBytes : BitVec 32 → Memory → Option (BitVec 32 × Memory)
  host : List Value → Memory → Option (Option Value × Memory)

/-- Routines that do what their names say: the checkers let through what fits, and the host gives
the same answer to every call. -/
def Helpers.plain (answer : Option Value) : Helpers where
  checkI32
    | [] => none
    | w :: rest => if rest.all (· = 0) && w.toNat < 2 ^ 32 then some (w.setWidth 32) else none
  checkI64
    | [] => none
    | w :: rest => if rest.all (· = 0) then some w else none
  reverseBytes a m :=
    if a.toNat + 32 ≤ m.size then some (a, m.reverse a.toNat 32) else none
  host _ m := some (answer, m)

def wordsOf : List Value → Option (List (BitVec 64))
  | [] => some []
  | .i64 w :: rest => (wordsOf rest).map (w :: ·)
  | .i32 _ :: _ => none

@[simp] theorem wordsOf_map (ws : List (BitVec 64)) : wordsOf (ws.map .i64) = some ws := by
  induction ws with
  | nil => rfl
  | cons w ws ih => rw [List.map_cons, wordsOf, ih, Option.map_some]

def checkRoutine {α : Type} (check : List (BitVec 64) → Option α) (wrap : α → Value) : Routine :=
  fun args m =>
    match wordsOf args with
    | none => .error .stuck
    | some words => match check words with
      | some v => .ok ([wrap v], m)
      | none => .error .trap

def chargeRoutine : Routine := fun args m =>
  match args with
  | [.i32 _, .i32 _] => .ok ([], m)
  | _ => .error .stuck

def reverseRoutine (reverse : BitVec 32 → Memory → Option (BitVec 32 × Memory)) : Routine :=
  fun args m =>
    match args with
    | [.i32 a] => match reverse a m with
      | some (v, m') => .ok ([.i32 v], m')
      | none => .error .trap
    | _ => .error .stuck

def hostRoutine (host : List Value → Memory → Option (Option Value × Memory)) : Routine :=
  fun args m =>
    match host args m with
    | some (answer, m') => .ok (answer.toList, m')
    | none => .error .trap

/-- The routines by name; `host` is the name of the host function. -/
def Helpers.link (M : Helpers) (ctx : Context) (host : String) (name : String) : Option Routine :=
  if name = host then some (hostRoutine M.host)
  else if name = ctx.reverseBytes then some (reverseRoutine M.reverseBytes)
  else if name = ctx.checkI32 then some (checkRoutine M.checkI32 .i32)
  else if name = ctx.checkI64 then some (checkRoutine M.checkI64 .i64)
  else if name = ctx.chargeMemory then some chargeRoutine
  else none

def Helpers.around (M : Helpers) (ctx : Context) (host : String) (globals : String → BitVec 32) :
    Instance where
  globals := globals
  routine := M.link ctx host

/-- No two routines share a name. -/
def NamesApart (ctx : Context) (host : String) : Prop :=
  [host, ctx.checkI32, ctx.checkI64, ctx.chargeMemory, ctx.reverseBytes].Nodup

instance (ctx : Context) (host : String) : Decidable (NamesApart ctx host) :=
  inferInstanceAs (Decidable (List.Nodup _))

section Link

variable {M : Helpers} {ctx : Context} {host : String}

theorem link_host : M.link ctx host host = some (hostRoutine M.host) := if_pos rfl

theorem link_reverseBytes (h : ctx.reverseBytes ≠ host) :
    M.link ctx host ctx.reverseBytes = some (reverseRoutine M.reverseBytes) := by
  rw [Helpers.link, if_neg h, if_pos rfl]

theorem link_checkI32 (h : NamesApart ctx host) :
    M.link ctx host ctx.checkI32 = some (checkRoutine M.checkI32 .i32) := by
  simp only [NamesApart, List.nodup_cons, List.mem_cons, not_or] at h
  rw [Helpers.link, if_neg (Ne.symm h.1.1), if_neg h.2.1.2.2.1, if_pos rfl]

theorem link_checkI64 (h : NamesApart ctx host) :
    M.link ctx host ctx.checkI64 = some (checkRoutine M.checkI64 .i64) := by
  simp only [NamesApart, List.nodup_cons, List.mem_cons, not_or] at h
  rw [Helpers.link, if_neg (Ne.symm h.1.2.1), if_neg h.2.2.1.2.1, if_neg (Ne.symm h.2.1.1),
    if_pos rfl]

theorem link_chargeMemory (h : NamesApart ctx host) :
    M.link ctx host ctx.chargeMemory = some chargeRoutine := by
  simp only [NamesApart, List.nodup_cons, List.mem_cons, not_or] at h
  rw [Helpers.link, if_neg (Ne.symm h.1.2.2.1), if_neg h.2.2.2.1.1, if_neg (Ne.symm h.2.1.2.1),
    if_neg (Ne.symm h.2.2.1.1), if_pos rfl]

end Link

/-! ## Addresses and words -/

/-- The address of a byte of a slot. -/
def addressOf (Γ : Instance) (ctx : Context) (slot byte : Int) : BitVec 32 :=
  Γ.globals ctx.stackPointer + BitVec.ofInt 32 (slot * ctx.slotBytes + byte)

def wordAt (Γ : Instance) (ctx : Context) (m : Memory) (slot : Int) (w : Nat) :
    Option (BitVec 64) :=
  (m.load? (addressOf Γ ctx slot (8 * w)).toNat 8).map (BitVec.ofNat 64 ·)

/-- The words of a slot, least significant first, if all of the slot is in the memory. -/
def wordsAt (Γ : Instance) (ctx : Context) (m : Memory) (slot : Int) :
    Option (List (BitVec 64)) :=
  (List.range (ctx.slotBytes / 8).toNat).mapM (wordAt Γ ctx m slot)

theorem eval_slotAddr (Γ : Instance) (ctx : Context) (slot byte : Int) (σ : State) :
    eval Γ (slotAddr ctx slot byte) σ = .ok [.i32 (addressOf Γ ctx slot byte)] σ := by
  unfold slotAddr addressOf Context.slotByteOffset
  by_cases h : slot * ctx.slotBytes + byte = 0
  · have stay : Γ.globals ctx.stackPointer + BitVec.ofInt 32 0 = Γ.globals ctx.stackPointer :=
      BitVec.add_zero _
    rw [if_pos h, h, stay]
    rfl
  · rw [if_neg h]
    rfl

/-! ## Calls in access code -/

@[simp] theorem callees_slotAddr (ctx : Context) (slot byte : Int) :
    callees (slotAddr ctx slot byte) = [] := by
  unfold slotAddr
  dsimp only
  split <;> simp [callees]

theorem calleesAll_loads {α : Type} (addr : α → Node) (h : ∀ a, callees (addr a) = [])
    (items : List α) : calleesAll (items.map fun a => .load "i64" (addr a)) = [] := by
  induction items with
  | nil => rfl
  | cons a items ih => rw [List.map_cons, calleesAll_cons, ih, callees, h, List.append_nil]

@[simp] theorem callees_checked (ctx : Context) (checker : String) (slot : Int) :
    callees (checked ctx checker slot) = [checker] := by
  rw [checked, callees, calleesAll_loads _ fun _ => callees_slotAddr ctx _ _, List.nil_append]

/-! ## The worth of an expression -/

/-- The expression is worth a value, or it traps; only the log changes. -/
def Yields (Γ : Instance) (locals : String → Option Value) (m : Memory) (n : Node) :
    Option Value → Prop
  | some v => ∀ log, ∃ log', eval Γ n ⟨locals, m, log⟩ = .ok [v] ⟨locals, m, log'⟩
  | none => ∀ log, ∃ σ, eval Γ n ⟨locals, m, log⟩ = .error .trap σ

section Yields

variable {Γ : Instance} {locals : String → Option Value} {m : Memory} {ctx : Context}

theorem yields_slotAddr (slot byte : Int) :
    Yields Γ locals m (slotAddr ctx slot byte) (some (.i32 (addressOf Γ ctx slot byte))) :=
  fun log => ⟨log, eval_slotAddr Γ ctx slot byte _⟩

theorem yields_getLocal {name : String} {v : Value} (h : locals name = some v) :
    Yields Γ locals m (.getLocal name) (some v) := by
  intro log
  refine ⟨log, ?_⟩
  simp only [eval, h]

/-- Expressions that are all worth a value leave these values. -/
theorem evalAll_of_yields {ns : List Node} {vs : List Value}
    (h : List.Forall₂ (Yields Γ locals m) ns (vs.map some)) (log : List Call) :
    ∃ log', evalAll Γ ns ⟨locals, m, log⟩ = .ok vs ⟨locals, m, log'⟩ := by
  induction vs generalizing ns log with
  | nil =>
      cases h
      exact ⟨log, rfl⟩
  | cons v vs ih =>
      cases h with
      | cons first rest =>
          obtain ⟨log₁, h₁⟩ := first log
          obtain ⟨log₂, h₂⟩ := ih rest log₁
          exact ⟨log₂, evalAll_cons_ok h₁ h₂⟩

/-- One trap among them ends the evaluation of all. -/
theorem evalAll_of_yields_none {ns : List Node} {os : List (Option Value)}
    (h : List.Forall₂ (Yields Γ locals m) ns os) (hnone : none ∈ os) (log : List Call) :
    ∃ σ, evalAll Γ ns ⟨locals, m, log⟩ = .error .trap σ := by
  induction h generalizing log with
  | nil => cases hnone
  | @cons n o ns os first rest ih =>
      cases o with
      | none =>
          obtain ⟨σ, hσ⟩ := first log
          exact ⟨σ, evalAll_cons_error hσ⟩
      | some v =>
          obtain ⟨log₁, h₁⟩ := first log
          obtain ⟨σ, hσ⟩ := ih (by simpa using hnone) log₁
          exact ⟨σ, evalAll_cons_error_rest h₁ hσ⟩

end Yields

/-! ## Checked slots -/

theorem eval_loadWord (Γ : Instance) (ctx : Context) (slot : Int) (w : Nat) (σ : State) :
    eval Γ (.load "i64" (slotAddr ctx slot (8 * w))) σ =
      match wordAt Γ ctx σ.memory slot w with
      | some word => .ok [.i64 word] σ
      | none => .error .trap σ := by
  rw [eval, bind_ok (eval_slotAddr Γ ctx slot (8 * w) σ)]
  show loadFrom .i64 [.i32 (addressOf Γ ctx slot (8 * w))] σ = _
  have width : ValType.i64.width = 8 := rfl
  rw [loadFrom, width, wordAt]
  cases σ.memory.load? (addressOf Γ ctx slot (8 * w)).toNat 8 with
  | none => rfl
  | some n =>
      have same : ValType.i64.value n = .i64 (BitVec.ofNat 64 n) :=
        congrArg Value.i64 (BitVec.ofInt_natCast 64 n)
      simp only [same, Option.map_some]

/-- Loads of words leave the words, or trap at the first that is outside the memory. -/
theorem evalAll_loadWords (Γ : Instance) (ctx : Context) (slot : Int) (ws : List Nat) (σ : State) :
    evalAll Γ (ws.map fun (w : Nat) => .load "i64" (slotAddr ctx slot (8 * w))) σ =
      match ws.mapM (wordAt Γ ctx σ.memory slot) with
      | some words => .ok (words.map .i64) σ
      | none => .error .trap σ := by
  induction ws with
  | nil => rfl
  | cons w ws ih =>
      have first := eval_loadWord Γ ctx slot w σ
      rw [List.map_cons, List.mapM_cons]
      cases hw : wordAt Γ ctx σ.memory slot w with
      | none =>
          rw [hw] at first
          rw [evalAll_cons_error first]
          rfl
      | some word =>
          rw [hw] at first
          cases hws : ws.mapM (wordAt Γ ctx σ.memory slot) with
          | none =>
              rw [hws] at ih
              rw [evalAll_cons_error_rest first ih]
              rfl
          | some words =>
              rw [hws] at ih
              rw [evalAll_cons_ok first ih]
              rfl

theorem span_zero (n : Int) : span 0 n = (List.range n.toNat).map (fun k : Nat => (k : Int)) := by
  simp [span]

theorem checked_eq {ctx : Context} (hw : ctx.wordBytes = 8) (checker : String) (slot : Int) :
    checked ctx checker slot =
      .call checker ((List.range (ctx.slotBytes / 8).toNat).map fun (w : Nat) =>
        .load "i64" (slotAddr ctx slot (8 * w))) := by
  rw [checked, hw, span_zero, List.map_map, Int.fdiv_eq_ediv_of_nonneg _ (by omega)]
  simp [Int.mul_comm, Function.comp_def]

/-- A checked slot is worth what the checker makes of its words. -/
theorem yields_checked {α : Type} {Γ : Instance} {locals : String → Option Value} {m : Memory}
    {ctx : Context} {checker : String} {check : List (BitVec 64) → Option α} {wrap : α → Value}
    (hw : ctx.wordBytes = 8) (h : Γ.routine checker = some (checkRoutine check wrap)) (slot : Int) :
    Yields Γ locals m (checked ctx checker slot)
      (((wordsAt Γ ctx m slot).bind check).map wrap) := by
  have loads (log : List Call) := evalAll_loadWords Γ ctx slot
    (List.range (ctx.slotBytes / 8).toNat) ⟨locals, m, log⟩
  rw [checked_eq hw]
  unfold wordsAt
  cases hwords : (List.range (ctx.slotBytes / 8).toNat).mapM (wordAt Γ ctx m slot) with
  | none =>
      intro log
      have trapped := loads log
      rw [hwords] at trapped
      exact ⟨_, by rw [eval, bind_error trapped]⟩
  | some words =>
      have called (log : List Call) : eval Γ (.call checker
          ((List.range (ctx.slotBytes / 8).toNat).map fun (w : Nat) =>
            .load "i64" (slotAddr ctx slot (8 * w)))) ⟨locals, m, log⟩ =
          match check words with
          | some v => .ok [wrap v] ⟨locals, m, log ++ [⟨checker, words.map .i64, m⟩]⟩
          | none => .error .trap ⟨locals, m, log ++ [⟨checker, words.map .i64, m⟩]⟩ := by
        have passed := loads log
        rw [hwords] at passed
        rw [eval, bind_ok passed, invoke, h]
        simp only [checkRoutine, wordsOf_map]
        cases check words <;> rfl
      rw [Option.bind_some]
      cases hcheck : check words with
      | none => exact fun log => ⟨_, (called log).trans (by rw [hcheck])⟩
      | some v => exact fun log => ⟨_, (called log).trans (by rw [hcheck])⟩

end HostGlue.Marshal

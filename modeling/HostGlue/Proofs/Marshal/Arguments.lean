import HostGlue.Proofs.Marshal.Access
import Mathlib.Data.List.ReduceOption

/-!
# The arguments of the host call

What the host has to be given for the inputs, in terms of the memory alone, and the proof that the
prelude and the argument expressions of a walk give it. An offset is bound, charged and rebased
before the call but passed only by the call, so its local is followed from the step that binds it to
the end of the walk: `Settled` is what holds of the locals then.
-/

namespace HostGlue.Marshal

open Machine Wat Interface

/-! ## What the host is to be given -/

section Arguments

variable (M : Helpers) (Γ : Instance) (ctx : Context) (m : Memory)

/-- The 32-bit number in a slot, if the checker lets it through. -/
def Helpers.number (slot : Int) : Option (BitVec 32) :=
  (wordsAt Γ ctx m slot).bind M.checkI32

/-- The 64-bit number in a slot, if the checker lets it through. -/
def Helpers.longNumber (slot : Int) : Option (BitVec 64) :=
  (wordsAt Γ ctx m slot).bind M.checkI64

/-- The argument for an input whose operand is at `slot`, with `behind` the inputs after it. An
offset is rebased if a length comes for it. -/
def Helpers.argument (slot : Int) (behind : List ParamKind) : ParamKind → Option Value
  | .i32 | .length => (M.number Γ ctx m slot).map .i32
  | .i64 => (M.longNumber Γ ctx m slot).map .i64
  | .readOffset | .writeOffset => (M.number Γ ctx m slot).map fun v =>
      .i32 (if .length ∈ behind then Γ.globals ctx.memoryBase + v else v)
  | .opointer => some (.i32 (addressOf Γ ctx (slot + 1) 0))
  | .i128 | .address | .pointer | .ipointer => some (.i32 (addressOf Γ ctx slot 0))

/-- The arguments for inputs whose operands start at `slot`: an operand is as many slots further
down as the inputs before it have operands. -/
def Helpers.arguments (dropping : Bool) (slot : Int) (kinds : List ParamKind) :
    List (Option Value) :=
  kinds.mapIdx fun k kind =>
    M.argument Γ ctx m (slot - stackDepth dropping (kinds.take k)) (kinds.drop (k + 1)) kind

/-- The numbers in the slots of some of the inputs. -/
def Helpers.numbers (which : ParamKind → Bool) (dropping : Bool) (slot : Int)
    (kinds : List ParamKind) : List (BitVec 32) :=
  (kinds.mapIdx fun k kind =>
    if which kind then M.number Γ ctx m (slot - stackDepth dropping (kinds.take k))
    else none).reduceOption

/-- What each pair is charged for: its offset before it is rebased, and its length. -/
def charges (offsets lengths : List (BitVec 32)) : List (List Value) :=
  List.zipWith (fun o l => [.i32 o, .i32 l]) offsets lengths

variable {M Γ ctx m} {dropping : Bool} {slot : Int} {kind : ParamKind} {rest : List ParamKind}

theorem arguments_cons :
    M.arguments Γ ctx m dropping slot (kind :: rest) =
      M.argument Γ ctx m slot rest kind ::
        M.arguments Γ ctx m dropping (slot - operandsOf dropping kind) rest := by
  simp only [Helpers.arguments, List.mapIdx_cons, List.take_zero, stackDepth_nil,
    List.take_succ_cons, List.drop_succ_cons, List.drop_zero, stackDepth_cons, Nat.cast_add,
    Nat.cast_zero, sub_zero, sub_sub]

theorem numbers_cons {which : ParamKind → Bool} :
    M.numbers Γ ctx m which dropping slot (kind :: rest) =
      (if which kind then M.number Γ ctx m slot else none).toList ++
        M.numbers Γ ctx m which dropping (slot - operandsOf dropping kind) rest := by
  simp only [Helpers.numbers, List.mapIdx_cons, List.take_zero, stackDepth_nil, List.take_succ_cons,
    stackDepth_cons, Nat.cast_add, Nat.cast_zero, sub_zero, sub_sub]
  cases (if which kind then M.number Γ ctx m slot else none) <;>
    simp [List.reduceOption_cons_of_some, List.reduceOption_cons_of_none]

end Arguments

/-! ## Binding a number -/

/-- The checkers and the charging routine are found under their names. -/
structure Linked (M : Helpers) (ctx : Context) (Γ : Instance) : Prop where
  wordBytes : ctx.wordBytes = 8
  checkI32 : Γ.routine ctx.checkI32 = some (checkRoutine M.checkI32 .i32)
  checkI64 : Γ.routine ctx.checkI64 = some (checkRoutine M.checkI64 .i64)
  charge : Γ.routine ctx.chargeMemory = some chargeRoutine
  apart : ctx.checkI32 ≠ ctx.chargeMemory

theorem linked_around (M : Helpers) {ctx : Context} {host : String} (globals : String → BitVec 32)
    (hw : ctx.wordBytes = 8) (names : NamesApart ctx host) :
    Linked M ctx (M.around ctx host globals) where
  wordBytes := hw
  checkI32 := link_checkI32 names
  checkI64 := link_checkI64 names
  charge := link_chargeMemory names
  apart := by
    simp only [NamesApart, List.nodup_cons, List.mem_cons, not_or] at names
    exact names.2.1.2.1

section Prelude

variable {M : Helpers} {ctx : Context} {Γ : Instance} {m : Memory} {L : String → Option Value}

theorem assign_ok {name : String} (declared : L name ≠ none) (v : Value) (log : List Call) :
    assign name [v] ⟨L, m, log⟩ = .ok [] ⟨Function.update L name (some v), m, log⟩ := by
  unfold assign
  dsimp only
  rw [if_neg declared]

theorem bindNumber_trap (link : Linked M ctx Γ) {slot : Int}
    (h : M.number Γ ctx m slot = none) (name : String) (log : List Call) :
    ∃ σ, eval Γ (.setLocal name (checked ctx ctx.checkI32 slot)) ⟨L, m, log⟩ = .error .trap σ := by
  have worth : Yields Γ L m (checked ctx ctx.checkI32 slot) _ :=
    yields_checked link.wordBytes link.checkI32 slot
  rw [show (wordsAt Γ ctx m slot).bind M.checkI32 = none from h] at worth
  obtain ⟨σ, hσ⟩ := worth log
  exact ⟨σ, by rw [eval, bind_error hσ]⟩

theorem bindNumber_ok (link : Linked M ctx Γ) {slot : Int} {v : BitVec 32}
    (h : M.number Γ ctx m slot = some v) {name : String} (declared : L name ≠ none)
    (log : List Call) :
    ∃ log', eval Γ (.setLocal name (checked ctx ctx.checkI32 slot)) ⟨L, m, log⟩ =
        .ok [] ⟨Function.update L name (some (.i32 v)), m, log'⟩ ∧
      callsTo ctx.chargeMemory log' = callsTo ctx.chargeMemory log := by
  have worth : Yields Γ L m (checked ctx ctx.checkI32 slot) _ :=
    yields_checked link.wordBytes link.checkI32 slot
  rw [show (wordsAt Γ ctx m slot).bind M.checkI32 = some v from h] at worth
  obtain ⟨log', hv⟩ := worth log
  have absent : ctx.chargeMemory ∉ callees (checked ctx ctx.checkI32 slot) := by
    simpa using Ne.symm link.apart
  have quiet := (eval_logs Γ (checked ctx ctx.checkI32 slot)).callsTo_eq absent ⟨L, m, log⟩
  rw [hv] at quiet
  refine ⟨log', ?_, quiet⟩
  rw [eval, bind_ok hv]
  exact assign_ok declared _ log'

/-- The code behind a length binds it, charges for the pair and rebases the waiting offset. -/
theorem settlePair_ok (link : Linked M ctx Γ) {slot : Int} {pair : Nat} {raw v : BitVec 32}
    (h : M.number Γ ctx m slot = some v)
    (bound : L (Cursor.offsetName pair) = some (.i32 raw))
    (declared : L (Cursor.lengthName pair) ≠ none) (log : List Call) :
    ∃ log', evalAll Γ (settlePair ctx pair slot) ⟨L, m, log⟩ =
        .ok [] ⟨Function.update
          (Function.update L (Cursor.lengthName pair) (some (.i32 v)))
          (Cursor.offsetName pair) (some (.i32 (Γ.globals ctx.memoryBase + raw))), m, log'⟩ ∧
      (callsTo ctx.chargeMemory log').map (·.args) =
        (callsTo ctx.chargeMemory log).map (·.args) ++ [[.i32 raw, .i32 v]] := by
  obtain ⟨log₁, bindLength, quiet⟩ := bindNumber_ok link h declared log
  generalize hL₁ : Function.update L (Cursor.lengthName pair) (some (.i32 v)) = L₁ at bindLength ⊢
  have hlength : L₁ (Cursor.lengthName pair) = some (.i32 v) := by
    rw [← hL₁, Function.update_self]
  have hoffset : L₁ (Cursor.offsetName pair) = some (.i32 raw) := by
    rw [← hL₁, Function.update_of_ne (offsetName_ne_lengthName pair pair), bound]
  have charge : eval Γ (.call ctx.chargeMemory
      [.getLocal (Cursor.offsetName pair), .getLocal (Cursor.lengthName pair)]) ⟨L₁, m, log₁⟩ =
      .ok [] ⟨L₁, m, log₁ ++ [⟨ctx.chargeMemory, [.i32 raw, .i32 v], m⟩]⟩ := by
    have readOffset : eval Γ (.getLocal (Cursor.offsetName pair)) ⟨L₁, m, log₁⟩ =
        .ok [.i32 raw] ⟨L₁, m, log₁⟩ := by simp only [eval, hoffset]
    have readLength : eval Γ (.getLocal (Cursor.lengthName pair)) ⟨L₁, m, log₁⟩ =
        .ok [.i32 v] ⟨L₁, m, log₁⟩ := by simp only [eval, hlength]
    rw [eval, bind_ok (evalAll_cons_ok readOffset (evalAll_cons_ok readLength evalAll_nil)), invoke,
      link.charge]
    rfl
  have rebase (log : List Call) : eval Γ (.setLocal (Cursor.offsetName pair)
      (.instr "i32.add" [.getGlobal ctx.memoryBase, .getLocal (Cursor.offsetName pair)]))
      ⟨L₁, m, log⟩ = .ok [] ⟨Function.update L₁ (Cursor.offsetName pair)
        (some (.i32 (Γ.globals ctx.memoryBase + raw))), m, log⟩ := by
    have readOffset : eval Γ (.getLocal (Cursor.offsetName pair)) ⟨L₁, m, log⟩ =
        .ok [.i32 raw] ⟨L₁, m, log⟩ := by simp only [eval, hoffset]
    have readBase : eval Γ (.getGlobal ctx.memoryBase) ⟨L₁, m, log⟩ =
        .ok [.i32 (Γ.globals ctx.memoryBase)] ⟨L₁, m, log⟩ := rfl
    have sum : eval Γ (.instr "i32.add" [.getGlobal ctx.memoryBase,
        .getLocal (Cursor.offsetName pair)]) ⟨L₁, m, log⟩ =
        .ok [.i32 (Γ.globals ctx.memoryBase + raw)] ⟨L₁, m, log⟩ := by
      rw [eval, bind_ok (evalAll_cons_ok readBase (evalAll_cons_ok readOffset evalAll_nil))]
      rfl
    rw [eval, bind_ok sum]
    exact assign_ok (by simp [hoffset]) _ log
  refine ⟨_, evalAll_cons_ok bindLength (evalAll_cons_ok charge
    (evalAll_cons_ok (rebase _) evalAll_nil)), ?_⟩
  rw [callsTo_append, quiet, List.map_append]
  simp [callsTo]

/-! ## The prelude of a walk -/

/-- What the prelude has brought about when it ends: the argument expressions are worth the
arguments, the offset that waited at the start is rebased if its length came, no local of an earlier
pair is touched, and each pair was charged for once. `raw` is the offset that waited. -/
structure Settled (M : Helpers) (Γ : Instance) (ctx : Context) (m : Memory) (dropping : Bool)
    (p : Place) (raw : BitVec 32) (kinds : List ParamKind) (e : Passed)
    (L L' : String → Option Value) (log log' : List Call) : Prop where
  args : List.Forall₂ (Yields Γ L' m) e.args (M.arguments Γ ctx m dropping p.slot kinds)
  rebased : p.waiting = true → L' (Cursor.offsetName p.pairs) =
    some (.i32 (if .length ∈ kinds then Γ.globals ctx.memoryBase + raw else raw))
  others : ∀ name, Unnumbered p.pairs name → L' name = L name
  charged : (callsTo ctx.chargeMemory log').map (·.args) =
    (callsTo ctx.chargeMemory log).map (·.args) ++
      charges ((if p.waiting then [raw] else []) ++
          M.numbers Γ ctx m ParamKind.isOffset dropping p.slot kinds)
        (M.numbers Γ ctx m (· = .length) dropping p.slot kinds)

section Steps

variable {dropping : Bool} {p q : Place} {raw v : BitVec 32} {kind : ParamKind}
  {rest : List ParamKind} {arg : Node} {e : Passed} {L' : String → Option Value}
  {log log₁ log' : List Call}

/-- An input whose argument reads no local leaves the rest as it is. -/
theorem Settled.pass (hslot : q.slot = p.slot - operandsOf dropping kind)
    (hpairs : q.pairs = p.pairs) (hwaiting : q.waiting = p.waiting)
    (plain : kind.isOffset = false ∧ kind ≠ .length)
    (value : ∀ L, Yields Γ L m arg (M.argument Γ ctx m p.slot rest kind))
    (tail : Settled M Γ ctx m dropping q raw rest e L L' log log') :
    Settled M Γ ctx m dropping p raw (kind :: rest) (({ args := [arg] } : Passed).append e)
      L L' log log' where
  args := by
    rw [arguments_cons, ← hslot]
    exact .cons (value L') tail.args
  rebased h := by
    rw [← hpairs, tail.rebased (hwaiting.trans h)]
    simp only [List.mem_cons, Ne.symm plain.2, false_or]
  others name h := tail.others name (hpairs ▸ h)
  charged := by
    rw [tail.charged, hwaiting, numbers_cons, numbers_cons, hslot]
    simp [plain.1, plain.2]

/-- An offset is followed under the walk's own name for it, which no later pair has. -/
theorem Settled.offset (hslot : q.slot = p.slot - operandsOf dropping kind)
    (hpairs : q.pairs = p.pairs) (hwaiting : q.waiting = true) (idle : p.waiting = false)
    (hkind : kind.isOffset = true) (hv : M.number Γ ctx m p.slot = some v) {prelude : List Node}
    {locals : List (String × String)}
    (quiet : callsTo ctx.chargeMemory log₁ = callsTo ctx.chargeMemory log)
    (tail : Settled M Γ ctx m dropping q v rest e
      (Function.update L (Cursor.offsetName p.pairs) (some (.i32 v))) L' log₁ log') :
    Settled M Γ ctx m dropping p raw (kind :: rest)
      (({ args := [.getLocal (Cursor.offsetName p.pairs)], locals := locals,
          prelude := prelude } : Passed).append e) L L' log log' where
  args := by
    have last := tail.rebased hwaiting
    rw [hpairs] at last
    have value : M.argument Γ ctx m p.slot rest kind =
        some (.i32 (if .length ∈ rest then Γ.globals ctx.memoryBase + v else v)) := by
      cases kind <;> simp [ParamKind.isOffset] at hkind <;> simp [Helpers.argument, hv]
    rw [arguments_cons, ← hslot, value]
    exact .cons (yields_getLocal last) tail.args
  rebased h := by
    rw [idle] at h
    cases h
  others name h := by
    rw [tail.others name (hpairs ▸ h), Function.update_of_ne (h p.pairs le_rfl).1]
  charged := by
    have notLength : kind ≠ .length := by
      rintro rfl
      cases hkind
    rw [tail.charged, quiet, hwaiting, idle, numbers_cons, numbers_cons, hslot]
    simp [hkind, notLength, hv]

/-- A length settles the pair: what follows has names of its own. -/
theorem Settled.length (hslot : q.slot = p.slot - operandsOf dropping .length)
    (hpairs : q.pairs = p.pairs + 1) (hwaiting : q.waiting = false) (waits : p.waiting = true)
    (hv : M.number Γ ctx m p.slot = some v) {prelude : List Node}
    {locals : List (String × String)} {reconciled : List Int}
    (charged : (callsTo ctx.chargeMemory log₁).map (·.args) =
      (callsTo ctx.chargeMemory log).map (·.args) ++ [[.i32 raw, .i32 v]])
    (tail : Settled M Γ ctx m dropping q raw rest e
      (Function.update (Function.update L (Cursor.lengthName p.pairs) (some (.i32 v)))
        (Cursor.offsetName p.pairs) (some (.i32 (Γ.globals ctx.memoryBase + raw)))) L' log₁ log') :
    Settled M Γ ctx m dropping p raw (.length :: rest)
      (({ args := [.getLocal (Cursor.lengthName p.pairs)], locals := locals, prelude := prelude,
          reconciled := reconciled } : Passed).append e) L L' log log' where
  args := by
    have kept : L' (Cursor.lengthName p.pairs) = some (.i32 v) := by
      rw [tail.others _ (unnumbered_lengthName (by omega)),
        Function.update_of_ne (Ne.symm (offsetName_ne_lengthName _ _)), Function.update_self]
    have value : M.argument Γ ctx m p.slot rest .length = some (.i32 v) := by
      rw [Helpers.argument, hv, Option.map_some]
    rw [arguments_cons, ← hslot, value]
    exact .cons (yields_getLocal kept) tail.args
  rebased _ := by
    rw [tail.others _ (unnumbered_offsetName (by omega)), Function.update_self,
      if_pos List.mem_cons_self]
  others name h := by
    have own := h p.pairs le_rfl
    rw [tail.others name (h.mono (by omega)), Function.update_of_ne own.1,
      Function.update_of_ne own.2]
  charged := by
    rw [tail.charged, charged, hwaiting, waits, numbers_cons, numbers_cons, hslot]
    simp [ParamKind.isOffset, hv, charges]

end Steps

/-- The prelude ends with the arguments settled, or traps because some operand is refused. -/
def Settles (M : Helpers) (Γ : Instance) (ctx : Context) (m : Memory) (dropping : Bool)
    (p : Place) (raw : BitVec 32) (kinds : List ParamKind) (e : Passed)
    (L : String → Option Value) (log : List Call) : Prop :=
  (none ∈ M.arguments Γ ctx m dropping p.slot kinds ∧
    ∃ σ, evalAll Γ e.prelude ⟨L, m, log⟩ = .error .trap σ) ∨
  ∃ L' log', evalAll Γ e.prelude ⟨L, m, log⟩ = .ok [] ⟨L', m, log'⟩ ∧
    Settled M Γ ctx m dropping p raw kinds e L L' log log'

theorem Settles.pass {dropping : Bool} {p q : Place} {raw : BitVec 32} {kind : ParamKind}
    {rest : List ParamKind} {arg : Node} {e : Passed} {log : List Call}
    (hslot : q.slot = p.slot - operandsOf dropping kind)
    (hpairs : q.pairs = p.pairs) (hwaiting : q.waiting = p.waiting)
    (plain : kind.isOffset = false ∧ kind ≠ .length)
    (value : ∀ L, Yields Γ L m arg (M.argument Γ ctx m p.slot rest kind))
    (tail : Settles M Γ ctx m dropping q raw rest e L log) :
    Settles M Γ ctx m dropping p raw (kind :: rest) (({ args := [arg] } : Passed).append e) L
      log := by
  obtain ⟨refused, trap⟩ | ⟨L', log', run, settled⟩ := tail
  · refine .inl ⟨?_, trap⟩
    rw [arguments_cons, ← hslot]
    exact List.mem_cons_of_mem _ refused
  · exact .inr ⟨L', log', run, settled.pass hslot hpairs hwaiting plain value⟩

theorem update_ne_none {name other : String} {v : Value} (h : L other ≠ none) :
    Function.update L name (some v) other ≠ none := by
  rw [Function.update_apply]
  split
  · exact Option.some_ne_none v
  · exact h

theorem Settles.offset {dropping : Bool} {p q : Place} {raw : BitVec 32} {kind : ParamKind}
    {rest : List ParamKind} {e : Passed} {log : List Call} (link : Linked M ctx Γ)
    (hslot : q.slot = p.slot - operandsOf dropping kind) (hpairs : q.pairs = p.pairs)
    (hwaiting : q.waiting = true) (idle : p.waiting = false) (hkind : kind.isOffset = true)
    (own : L (Cursor.offsetName p.pairs) ≠ none) {locals : List (String × String)}
    (tail : ∀ v log₁, Settles M Γ ctx m dropping q v rest e
      (Function.update L (Cursor.offsetName p.pairs) (some (.i32 v))) log₁) :
    Settles M Γ ctx m dropping p raw (kind :: rest)
      (({ args := [.getLocal (Cursor.offsetName p.pairs)]
          locals := locals
          prelude := [.setLocal (Cursor.offsetName p.pairs) (checked ctx ctx.checkI32 p.slot)] } :
        Passed).append e) L log := by
  cases hv : M.number Γ ctx m p.slot with
  | none =>
      have refused : M.argument Γ ctx m p.slot rest kind = none := by
        cases kind <;> simp [ParamKind.isOffset] at hkind <;> simp [Helpers.argument, hv]
      obtain ⟨σ, trap⟩ := bindNumber_trap link hv (Cursor.offsetName p.pairs) log
      refine .inl ⟨?_, σ, evalAll_cons_error trap⟩
      rw [arguments_cons, refused]
      exact List.mem_cons_self
  | some v =>
      obtain ⟨log₁, run₁, quiet⟩ := bindNumber_ok link hv own log
      obtain ⟨refused, σ, trap⟩ | ⟨L', log', run, settled⟩ := tail v log₁
      · refine .inl ⟨?_, σ, evalAll_cons_error_rest run₁ trap⟩
        rw [arguments_cons, ← hslot]
        exact List.mem_cons_of_mem _ refused
      · exact .inr ⟨L', log', evalAll_cons_ok run₁ run,
          settled.offset hslot hpairs hwaiting idle hkind hv quiet⟩

theorem Settles.length {dropping : Bool} {p q : Place} {raw : BitVec 32}
    {rest : List ParamKind} {e : Passed} {log : List Call} (link : Linked M ctx Γ)
    (hslot : q.slot = p.slot - operandsOf dropping .length) (hpairs : q.pairs = p.pairs + 1)
    (hwaiting : q.waiting = false) (waits : p.waiting = true)
    (bound : L (Cursor.offsetName p.pairs) = some (.i32 raw))
    (own : L (Cursor.lengthName p.pairs) ≠ none) {locals : List (String × String)}
    {reconciled : List Int}
    (tail : ∀ v log₁, Settles M Γ ctx m dropping q raw rest e
      (Function.update (Function.update L (Cursor.lengthName p.pairs) (some (.i32 v)))
        (Cursor.offsetName p.pairs) (some (.i32 (Γ.globals ctx.memoryBase + raw)))) log₁) :
    Settles M Γ ctx m dropping p raw (.length :: rest)
      (({ args := [.getLocal (Cursor.lengthName p.pairs)]
          locals := locals
          prelude := settlePair ctx p.pairs p.slot
          reconciled := reconciled } : Passed).append e) L log := by
  cases hv : M.number Γ ctx m p.slot with
  | none =>
      have refused : M.argument Γ ctx m p.slot rest .length = none := by
        rw [Helpers.argument, hv, Option.map_none]
      obtain ⟨σ, trap⟩ := bindNumber_trap link hv (Cursor.lengthName p.pairs) log
      refine .inl ⟨?_, σ, evalAll_append_error (evalAll_cons_error trap)⟩
      rw [arguments_cons, refused]
      exact List.mem_cons_self
  | some v =>
      obtain ⟨log₁, run₁, charged⟩ := settlePair_ok link hv bound own log
      obtain ⟨refused, σ, trap⟩ | ⟨L', log', run, settled⟩ := tail v log₁
      · refine .inl ⟨?_, σ, evalAll_append_error_rest run₁ trap⟩
        rw [arguments_cons, ← hslot]
        exact List.mem_cons_of_mem _ refused
      · exact .inr ⟨L', log', evalAll_append_ok run₁ run,
          settled.length hslot hpairs hwaiting waits hv charged⟩

/-- **The prelude settles the arguments.** The induction follows the walk; its invariant is that the
local of the waiting offset holds `raw`, the number that was bound to it. -/
theorem prelude_settles {opcode : String} {p q : Place} {kinds : List ParamKind} {e : Passed}
    (link : Linked M ctx Γ) (w : Walk opcode ctx p kinds e q) (paired : Paired p.waiting kinds)
    (declared : ∀ x ∈ e.locals, L x.1 ≠ none) (raw : BitVec 32)
    (bound : p.waiting = true → L (Cursor.offsetName p.pairs) = some (.i32 raw))
    (log : List Call) :
    Settles M Γ ctx m (dropsOperands opcode ctx) p raw kinds e L log := by
  induction w generalizing L raw log with
  | @nil p =>
      refine .inr ⟨L, log, rfl, .nil, fun h => ?_, fun _ _ => rfl, ?_⟩
      · simpa using bound h
      · cases p.waiting <;> simp [charges, Helpers.numbers]
  | @cons p q r kind rest e e' step tail ih =>
      obtain ⟨pairedRest, idle⟩ := paired.of_step step
      have hslot := step.slot_eq
      have declaredRest : ∀ x ∈ e'.locals, L x.1 ≠ none :=
        fun x hx => declared x (List.mem_append_right _ hx)
      cases step with
      | reference h =>
          refine (ih pairedRest declaredRest raw bound log).pass hslot rfl rfl ?_ fun L => ?_
          · cases kind <;> simp [isReference] at h <;> simp [ParamKind.isOffset]
          · cases kind <;> simp [isReference] at h <;> exact yields_slotAddr p.slot 0
      | outputPointer =>
          exact (ih pairedRest declaredRest raw bound log).pass hslot rfl rfl ⟨rfl, by decide⟩
            fun L => yields_slotAddr (p.slot + 1) 0
      | scalar hw h =>
          refine (ih pairedRest declaredRest raw bound log).pass hslot rfl rfl ?_ fun L => ?_
          · cases kind <;> simp [scalarChecker?] at h <;> simp [ParamKind.isOffset]
          · cases kind <;> simp [scalarChecker?] at h <;> subst h
            · exact yields_checked link.wordBytes link.checkI32 p.slot
            · exact yields_checked link.wordBytes link.checkI64 p.slot
      | offset hw h =>
          refine .offset link hslot rfl rfl (idle h) h ?_ fun v log₁ => ?_
          · exact declared _ (List.mem_append_left _ (List.mem_singleton_self _))
          · exact ih pairedRest (fun x hx => update_ne_none (declaredRest x hx)) v
              (fun _ => Function.update_self ..) log₁
      | length hw h =>
          refine .length link hslot rfl rfl h (bound h) ?_ fun v log₁ => ?_
          · exact declared _ (List.mem_append_left _ (List.mem_singleton_self _))
          · exact ih pairedRest (fun x hx => update_ne_none (update_ne_none (declaredRest x hx)))
              raw (fun waits => absurd waits Bool.false_ne_true) log₁

end Prelude

end HostGlue.Marshal

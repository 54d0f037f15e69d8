import HostGlue.Interface.Pairing
import HostGlue.Marshal.Operands

/-!
# The walk over the inputs

What one input adds to the plan depends on little of the cursor: the slot it is at, the number of
pairs completed, and whether an offset waits for its length. The local of the waiting offset needs
no mention, since it is the one numbered by the pairs completed.

`Step` says, for each kind of input, what is added and where the walk goes on; `Walk` chains the
steps. `planOperands_eq_ok_iff` turns a plan into a walk, so a law of all plans is a law of one step
and an induction over the walk. `exists_walk` is where the pairing rule comes in: inputs that keep
it have a walk.
-/

namespace HostGlue.Marshal

open Machine Wat Interface

/-! ## Kinds by what they take from the stack -/

/-- The host reads the operand in its slot. -/
def isReference : ParamKind → Bool
  | .i128 | .address | .pointer | .ipointer => true
  | _ => false

/-- The checker of a kind that is passed by value. -/
def scalarChecker? (ctx : Context) : ParamKind → Option String
  | .i32 => some ctx.checkI32
  | .i64 => some ctx.checkI64
  | _ => none

/-- The opcode has two operands behind each length that the host call does not take. -/
def dropsOperands (opcode : String) (ctx : Context) : Bool := ctx.reconciled.contains opcode

/-- The number of stack operands an input stands for. -/
def operandsOf (dropping : Bool) : ParamKind → Nat
  | .opointer => 0
  | .length => if dropping then 3 else 1
  | _ => 1

/-- The number of stack operands that the inputs stand for: one for each that is no output pointer,
and two more for each length if operands are dropped. -/
def stackDepth (dropping : Bool) (kinds : List ParamKind) : Nat :=
  kinds.countP (· ≠ .opointer) + if dropping then 2 * kinds.count .length else 0

@[simp] theorem stackDepth_nil (dropping : Bool) : stackDepth dropping [] = 0 := by
  cases dropping <;> rfl

theorem stackDepth_cons (dropping : Bool) (kind : ParamKind) (rest : List ParamKind) :
    stackDepth dropping (kind :: rest) = operandsOf dropping kind + stackDepth dropping rest := by
  cases dropping <;> cases kind <;> simp [stackDepth, operandsOf] <;> omega

/-! ## One step -/

/-- Where the walk stands. -/
structure Place where
  slot : Int := 0
  pairs : Nat := 0
  waiting : Bool := false

/-- What inputs add to the plan. -/
structure Passed where
  args : List Node := []
  locals : List (String × String) := []
  prelude : List Node := []
  reconciled : List Int := []

def Passed.append (e e' : Passed) : Passed where
  args := e.args ++ e'.args
  locals := e.locals ++ e'.locals
  prelude := e.prelude ++ e'.prelude
  reconciled := e.reconciled ++ e'.reconciled

/-- The operand's words, handed to a checker. -/
def checked (ctx : Context) (checker : String) (slot : Int) : Node :=
  .call checker ((span 0 (ctx.slotBytes.fdiv ctx.wordBytes)).map fun w =>
    .load "i64" (slotAddr ctx slot (w * ctx.wordBytes)))

/-- The code that completes a pair: the length is bound, the memory charged, the offset rebased. -/
def settlePair (ctx : Context) (pair : Nat) (slot : Int) : List Node :=
  [.setLocal (Cursor.lengthName pair) (checked ctx ctx.checkI32 slot),
   .call ctx.chargeMemory
     [.getLocal (Cursor.offsetName pair), .getLocal (Cursor.lengthName pair)],
   .setLocal (Cursor.offsetName pair)
     (.instr "i32.add" [.getGlobal ctx.memoryBase, .getLocal (Cursor.offsetName pair)])]

/-- The slots of the operands dropped behind a length. -/
def droppedBehind (dropping : Bool) (slot : Int) : List Int :=
  if dropping then [slot - 1, slot - 2] else []

inductive Step (opcode : String) (ctx : Context) : Place → ParamKind → Passed → Place → Prop where
  | reference {p : Place} {kind : ParamKind} (h : isReference kind = true) :
      Step opcode ctx p kind { args := [slotAddr ctx p.slot 0] } { p with slot := p.slot - 1 }
  | outputPointer {p : Place} :
      Step opcode ctx p .opointer { args := [slotAddr ctx (p.slot + 1) 0] } p
  | scalar {p : Place} {kind : ParamKind} {checker : String} (hw : ctx.wordBytes ≠ 0)
      (h : scalarChecker? ctx kind = some checker) :
      Step opcode ctx p kind { args := [checked ctx checker p.slot] } { p with slot := p.slot - 1 }
  | offset {p : Place} {kind : ParamKind} (hw : ctx.wordBytes ≠ 0) (h : kind.isOffset = true) :
      Step opcode ctx p kind
        { args := [.getLocal (Cursor.offsetName p.pairs)]
          locals := [(Cursor.offsetName p.pairs, "i32")]
          prelude := [.setLocal (Cursor.offsetName p.pairs) (checked ctx ctx.checkI32 p.slot)] }
        { p with slot := p.slot - 1, waiting := true }
  | length {p : Place} (hw : ctx.wordBytes ≠ 0) (h : p.waiting = true) :
      Step opcode ctx p .length
        { args := [.getLocal (Cursor.lengthName p.pairs)]
          locals := [(Cursor.lengthName p.pairs, "i32")]
          prelude := settlePair ctx p.pairs p.slot
          reconciled := droppedBehind (dropsOperands opcode ctx) p.slot }
        { slot := p.slot - operandsOf (dropsOperands opcode ctx) .length
          pairs := p.pairs + 1
          waiting := false }

inductive Walk (opcode : String) (ctx : Context) :
    Place → List ParamKind → Passed → Place → Prop where
  | nil {p : Place} : Walk opcode ctx p [] {} p
  | cons {p q r : Place} {kind : ParamKind} {rest : List ParamKind} {e e' : Passed}
      (step : Step opcode ctx p kind e q) (tail : Walk opcode ctx q rest e' r) :
      Walk opcode ctx p (kind :: rest) (e.append e') r

theorem Step.slot_eq {opcode : String} {ctx : Context} {p q : Place} {kind : ParamKind} {e : Passed}
    (h : Step opcode ctx p kind e q) :
    q.slot = p.slot - operandsOf (dropsOperands opcode ctx) kind := by
  cases h with
  | reference h => cases kind <;> simp_all [isReference, operandsOf]
  | outputPointer => simp [operandsOf]
  | scalar hw h => cases kind <;> simp_all [scalarChecker?, operandsOf]
  | offset hw h => cases kind <;> simp_all [ParamKind.isOffset, operandsOf]
  | length hw h => rfl

/-- The walk moves down by as many slots as the inputs have operands. -/
theorem Walk.slot_eq {opcode : String} {ctx : Context} {p q : Place} {kinds : List ParamKind}
    {e : Passed} (w : Walk opcode ctx p kinds e q) :
    q.slot = p.slot - stackDepth (dropsOperands opcode ctx) kinds := by
  induction w with
  | nil => simp
  | cons step tail ih =>
      rw [ih, step.slot_eq, stackDepth_cons]
      omega

/-- Every input is passed as one argument. -/
theorem Walk.length_args {opcode : String} {ctx : Context} {p q : Place} {kinds : List ParamKind}
    {e : Passed} (w : Walk opcode ctx p kinds e q) : e.args.length = kinds.length := by
  induction w with
  | nil => rfl
  | @cons p q r kind rest e e' step tail ih =>
      have one : e.args.length = 1 := by cases step <;> rfl
      rw [Passed.append, List.length_append, one, ih, List.length_cons, Nat.add_comm]

/-! ## Walks and plans -/

/-- The cursor at a place, with what was passed before. -/
def Place.cursor (p : Place) (done : Passed) : Cursor where
  offset := p.slot
  pairs := p.pairs
  pending := if p.waiting then some (Cursor.offsetName p.pairs) else none
  args := done.args
  locals := done.locals
  prelude := done.prelude
  reconciled := done.reconciled

theorem narrow_of_ne {ctx : Context} (hw : ctx.wordBytes ≠ 0) (checker : String) (slot : Int) :
    narrow ctx checker slot = .ok (checked ctx checker slot) := by
  unfold narrow slotWords Context.wordsPerSlot
  rw [if_neg hw]
  rfl

theorem narrow_of_eq {ctx : Context} (hw : ctx.wordBytes = 0) (checker : String) (slot : Int) :
    ∃ cause, narrow ctx checker slot = .error cause := by
  unfold narrow slotWords Context.wordsPerSlot
  rw [if_pos hw]
  exact ⟨_, rfl⟩

section Narrowed

variable {opcode checker : String} {ctx : Context} {cur : Cursor} {value : Node}
  {cause : SlotError}

theorem scalar_ok (h : narrow ctx checker cur.offset = .ok value) :
    cur.scalar ctx checker = .ok (cur.pass value) := by
  rw [Cursor.scalar, h]
  rfl

theorem scalar_error (h : narrow ctx checker cur.offset = .error cause) :
    cur.scalar ctx checker = .error (.slot cause) := by
  rw [Cursor.scalar, h]
  rfl

theorem memoryOffset_ok (h : narrow ctx ctx.checkI32 cur.offset = .ok value) :
    cur.memoryOffset ctx = .ok { cur with
      locals := cur.locals ++ [(Cursor.offsetName cur.pairs, "i32")]
      prelude := cur.prelude ++ [.setLocal (Cursor.offsetName cur.pairs) value]
      args := cur.args ++ [.getLocal (Cursor.offsetName cur.pairs)]
      pending := some (Cursor.offsetName cur.pairs) } := by
  rw [Cursor.memoryOffset, h]
  rfl

theorem memoryOffset_error (h : narrow ctx ctx.checkI32 cur.offset = .error cause) :
    cur.memoryOffset ctx = .error (.slot cause) := by
  rw [Cursor.memoryOffset, h]
  rfl

theorem memoryLength_none (h : cur.pending = none) :
    cur.memoryLength opcode ctx = .error (.lengthWithoutOffset opcode) := by
  rw [Cursor.memoryLength, h]

theorem memoryLength_ok (opcode : String) {offset : String} (waits : cur.pending = some offset)
    (h : narrow ctx ctx.checkI32 cur.offset = .ok value) :
    ∃ bound : Cursor, bound = { cur with
        locals := cur.locals ++ [(Cursor.lengthName cur.pairs, "i32")]
        prelude := cur.prelude ++ [.setLocal (Cursor.lengthName cur.pairs) value,
          .call ctx.chargeMemory [.getLocal offset, .getLocal (Cursor.lengthName cur.pairs)],
          .setLocal offset (.instr "i32.add" [.getGlobal ctx.memoryBase, .getLocal offset])]
        args := cur.args ++ [.getLocal (Cursor.lengthName cur.pairs)]
        pending := none
        pairs := cur.pairs + 1 } ∧
      cur.memoryLength opcode ctx =
        .ok (if dropsOperands opcode ctx then bound.drop.drop else bound) := by
  refine ⟨_, rfl, ?_⟩
  rw [Cursor.memoryLength, waits]
  dsimp only
  rw [h]
  rfl

theorem memoryLength_error {offset : String} (waits : cur.pending = some offset)
    (h : narrow ctx ctx.checkI32 cur.offset = .error cause) :
    cur.memoryLength opcode ctx = .error (.slot cause) := by
  rw [Cursor.memoryLength, waits]
  dsimp only
  rw [h]
  rfl

end Narrowed

/-- The cursor passes an input exactly by a step. -/
theorem consume_of_step {opcode : String} {ctx : Context} {p q : Place} {kind : ParamKind}
    {e : Passed} (h : Step opcode ctx p kind e q) (done : Passed) :
    Cursor.consume opcode ctx (p.cursor done) kind = .ok (q.cursor (done.append e)) := by
  cases h with
  | reference h =>
      cases kind <;> simp [isReference] at h <;>
        simp [Cursor.consume, Cursor.marshal, Cursor.byReference, Cursor.pass, Cursor.descend,
          Place.cursor, Passed.append, Except.map]
  | outputPointer =>
      simp [Cursor.consume, Cursor.marshal, Cursor.outputPointer, Cursor.byReference, Cursor.pass,
        Cursor.descend, Place.cursor, Passed.append, Except.map]
  | scalar hw h =>
      cases kind <;> simp [scalarChecker?] at h <;> subst h <;>
        simp [Cursor.consume, Cursor.marshal, scalar_ok (narrow_of_ne hw _ _), Cursor.pass,
          Cursor.descend, Place.cursor, Passed.append, Except.map]
  | offset hw h =>
      cases kind <;> simp [ParamKind.isOffset] at h <;>
        simp [Cursor.consume, Cursor.marshal, memoryOffset_ok (narrow_of_ne hw _ _),
          Cursor.descend, Place.cursor, Passed.append, Except.map]
  | length hw h =>
      have waits : (p.cursor done).pending = some (Cursor.offsetName p.pairs) := if_pos h
      obtain ⟨bound, rfl, passed⟩ := memoryLength_ok opcode waits
        (narrow_of_ne hw ctx.checkI32 p.slot)
      have hslot : p.slot - 1 - 1 = p.slot - 2 ∧ p.slot - 2 - 1 = p.slot - 3 := by omega
      rw [Cursor.consume, Cursor.marshal, passed]
      cases dropsOperands opcode ctx <;>
        simp [settlePair, droppedBehind, operandsOf, hslot, Cursor.drop, Cursor.descend,
          Place.cursor, Passed.append, Except.map]

/-- Every input has a step, except a length for which no offset waits. -/
theorem exists_step {opcode : String} {ctx : Context} {p : Place} {kind : ParamKind}
    (hw : ctx.wordBytes ≠ 0) (h : kind = .length → p.waiting = true) :
    ∃ e q, Step opcode ctx p kind e q := by
  cases kind with
  | i32 => exact ⟨_, _, .scalar hw rfl⟩
  | i64 => exact ⟨_, _, .scalar hw rfl⟩
  | i128 => exact ⟨_, _, .reference rfl⟩
  | address => exact ⟨_, _, .reference rfl⟩
  | pointer => exact ⟨_, _, .reference rfl⟩
  | ipointer => exact ⟨_, _, .reference rfl⟩
  | opointer => exact ⟨_, _, .outputPointer⟩
  | readOffset => exact ⟨_, _, .offset hw rfl⟩
  | writeOffset => exact ⟨_, _, .offset hw rfl⟩
  | length => exact ⟨_, _, .length hw (h rfl)⟩

theorem exists_step_of_consume {opcode : String} {ctx : Context} {p : Place} {kind : ParamKind}
    {done : Passed} {cur : Cursor}
    (h : Cursor.consume opcode ctx (p.cursor done) kind = .ok cur) :
    ∃ e q, Step opcode ctx p kind e q := by
  by_cases hw : ctx.wordBytes = 0
  · cases kind with
    | i128 => exact ⟨_, _, .reference rfl⟩
    | address => exact ⟨_, _, .reference rfl⟩
    | pointer => exact ⟨_, _, .reference rfl⟩
    | ipointer => exact ⟨_, _, .reference rfl⟩
    | opointer => exact ⟨_, _, .outputPointer⟩
    | i32 =>
        obtain ⟨cause, failed⟩ := narrow_of_eq hw ctx.checkI32 (p.cursor done).offset
        rw [Cursor.consume, Cursor.marshal, scalar_error failed] at h
        cases h
    | i64 =>
        obtain ⟨cause, failed⟩ := narrow_of_eq hw ctx.checkI64 (p.cursor done).offset
        rw [Cursor.consume, Cursor.marshal, scalar_error failed] at h
        cases h
    | readOffset =>
        obtain ⟨cause, failed⟩ := narrow_of_eq hw ctx.checkI32 (p.cursor done).offset
        rw [Cursor.consume, Cursor.marshal, memoryOffset_error failed] at h
        cases h
    | writeOffset =>
        obtain ⟨cause, failed⟩ := narrow_of_eq hw ctx.checkI32 (p.cursor done).offset
        rw [Cursor.consume, Cursor.marshal, memoryOffset_error failed] at h
        cases h
    | length =>
        obtain ⟨cause, failed⟩ := narrow_of_eq hw ctx.checkI32 (p.cursor done).offset
        rw [Cursor.consume, Cursor.marshal] at h
        cases hp : (p.cursor done).pending with
        | none =>
            rw [memoryLength_none hp] at h
            cases h
        | some offset =>
            rw [memoryLength_error hp failed] at h
            cases h
  · refine exists_step hw fun hk => ?_
    subst hk
    cases hp : p.waiting with
    | true => rfl
    | false =>
        simp [Cursor.consume, Cursor.marshal, Cursor.memoryLength, Place.cursor, hp,
          Except.map] at h

theorem fold_of_walk {opcode : String} {ctx : Context} {p q : Place} {kinds : List ParamKind}
    {e : Passed} (w : Walk opcode ctx p kinds e q) (done : Passed) :
    kinds.foldlM (Cursor.consume opcode ctx) (p.cursor done) = .ok (q.cursor (done.append e)) := by
  -- the cursor collects as it goes, so what was passed before is not fixed
  induction w generalizing done with
  | nil => simp [Passed.append, Place.cursor, pure, Except.pure]
  | @cons p q r kind rest e e' step tail ih =>
      have assoc : (done.append e).append e' = done.append (e.append e') := by
        simp [Passed.append]
      rw [List.foldlM_cons, consume_of_step step done, ← assoc]
      exact ih (done.append e)

theorem exists_walk_of_fold {opcode : String} {ctx : Context} {kinds : List ParamKind} {p : Place}
    {done : Passed} {cur : Cursor}
    (h : kinds.foldlM (Cursor.consume opcode ctx) (p.cursor done) = .ok cur) :
    ∃ e q, Walk opcode ctx p kinds e q := by
  induction kinds generalizing p done with
  | nil => exact ⟨_, _, .nil⟩
  | cons kind rest ih =>
      rw [List.foldlM_cons] at h
      cases hc : Cursor.consume opcode ctx (p.cursor done) kind with
      | error cause =>
          rw [hc] at h
          cases h
      | ok next =>
          obtain ⟨e, q, step⟩ := exists_step_of_consume hc
          rw [consume_of_step step done] at h
          obtain ⟨e', r, tail⟩ := ih h
          exact ⟨_, _, .cons step tail⟩

/-- The plan that a walk from the top of the stack leaves behind. -/
def Passed.plan (e : Passed) (q : Place) : OperandPlan where
  args := e.args
  locals := e.locals
  prelude := e.prelude
  offset := q.slot
  reconciledSlots := e.reconciled

/-- **Plans are walks.** A descriptor has a plan exactly when its inputs have a walk from the top of
the stack, and the plan is what the walk passes. -/
theorem planOperands_eq_ok_iff {opcode : String} {d : Descriptor} {ctx : Context}
    {plan : OperandPlan} :
    planOperands opcode d ctx = .ok plan ↔
      ∃ e q, Walk opcode ctx {} d.inputs e q ∧ plan = e.plan q := by
  have start : ({} : Cursor) = ({} : Place).cursor {} := rfl
  have result (e : Passed) (q : Place) :
      (q.cursor (({} : Passed).append e)).toPlan = e.plan q := by
    simp [Place.cursor, Cursor.toPlan, Passed.plan, Passed.append]
  unfold planOperands
  rw [start]
  constructor
  · intro h
    cases hf : d.inputs.foldlM (Cursor.consume opcode ctx) (({} : Place).cursor {}) with
    | error cause =>
        rw [hf] at h
        cases h
    | ok cur =>
        obtain ⟨e, q, w⟩ := exists_walk_of_fold hf
        rw [fold_of_walk w] at h
        cases h
        exact ⟨e, q, w, result e q⟩
  · rintro ⟨e, q, w, rfl⟩
    rw [fold_of_walk w]
    exact congrArg Except.ok (result e q)

/-! ## Numbered locals -/

theorem toString_inj {n k : Nat} (h : toString n = toString k) : n = k := by
  have digits : Nat.toDigits 10 n = Nat.toDigits 10 k := by
    simpa using congrArg String.toList h
  have number := congrArg (fun l => Nat.ofDigitChars 10 l 0) digits
  simpa using number

theorem offsetName_inj {n k : Nat} (h : Cursor.offsetName n = Cursor.offsetName k) : n = k :=
  toString_inj ((String.append_right_inj _).mp h)

theorem lengthName_inj {n k : Nat} (h : Cursor.lengthName n = Cursor.lengthName k) : n = k :=
  toString_inj ((String.append_right_inj _).mp h)

theorem offsetName_ne_lengthName (n k : Nat) : Cursor.offsetName n ≠ Cursor.lengthName k := by
  intro h
  have chars := congrArg String.toList h
  simp [Cursor.offsetName, Cursor.lengthName] at chars

/-- The name belongs to none of the pairs from `first` on. -/
def Unnumbered (first : Nat) (name : String) : Prop :=
  ∀ n, first ≤ n → name ≠ Cursor.offsetName n ∧ name ≠ Cursor.lengthName n

theorem Unnumbered.mono {first later : Nat} {name : String} (h : Unnumbered first name)
    (le : first ≤ later) : Unnumbered later name :=
  fun n hn => h n (Nat.le_trans le hn)

theorem unnumbered_offsetName {n first : Nat} (h : n < first) :
    Unnumbered first (Cursor.offsetName n) := by
  refine fun k hk => ⟨fun same => ?_, offsetName_ne_lengthName n k⟩
  have := offsetName_inj same
  omega

theorem unnumbered_lengthName {n first : Nat} (h : n < first) :
    Unnumbered first (Cursor.lengthName n) := by
  refine fun k hk => ⟨Ne.symm (offsetName_ne_lengthName k n), fun same => ?_⟩
  have := lengthName_inj same
  omega

theorem unnumbered_callback : Unnumbered 0 "$callback" := by
  refine fun n _ => ⟨fun h => ?_, fun h => ?_⟩
  · have chars := congrArg String.toList h
    simp [Cursor.offsetName] at chars
  · have chars := congrArg String.toList h
    simp [Cursor.lengthName] at chars

/-! ## Declarations -/

theorem Walk.locals_i32 {opcode : String} {ctx : Context} {p q : Place} {kinds : List ParamKind}
    {e : Passed} (w : Walk opcode ctx p kinds e q) : ∀ x ∈ e.locals, x.2 = "i32" := by
  induction w with
  | nil => simp
  | cons step tail ih =>
      intro x hx
      rcases List.mem_append.mp hx with hx | hx
      · cases step <;> simp_all
      · exact ih x hx

theorem lookup_i32 {locals : List (String × String)} (typed : ∀ x ∈ locals, x.2 = "i32")
    {x : String × String} (hx : x ∈ locals) : locals.lookup x.1 = some "i32" := by
  induction locals with
  | nil => cases hx
  | cons y ys ih =>
      rw [List.lookup_cons]
      by_cases same : x.1 == y.1
      · rw [same, typed y List.mem_cons_self]
      · have later : x ∈ ys := by
          rcases List.mem_cons.mp hx with rfl | hx
          · simp at same
          · exact hx
        rw [Bool.eq_false_iff.mpr same]
        exact ih (fun z hz => typed z (List.mem_cons_of_mem _ hz)) later

/-! ## The pairing rule -/

/-- The inputs keep the pairing rule behind a place. -/
def Paired (waiting : Bool) (kinds : List ParamKind) : Prop :=
  ∃ index, checkPairingFrom waiting index kinds = .ok ()

theorem paired_of_checkPairing {kinds : List ParamKind} (h : checkPairing kinds = .ok ()) :
    Paired false kinds := ⟨0, h⟩

theorem Paired.cons {waiting : Bool} {kind : ParamKind} {rest : List ParamKind}
    (h : Paired waiting (kind :: rest)) :
    ∃ waiting', Paired waiting' rest ∧
      ((kind.isOffset = true ∧ waiting = false ∧ waiting' = true) ∨
       (kind = .length ∧ waiting = true ∧ waiting' = false) ∨
       (kind.isOffset = false ∧ kind ≠ .length ∧ waiting' = waiting)) := by
  obtain ⟨index, h⟩ := h
  unfold checkPairingFrom pairStep at h
  by_cases offset : kind.isOffset = true
  · cases waiting with
    | true => simp [offset, bind, Except.bind] at h
    | false =>
        simp only [offset, if_true] at h
        exact ⟨true, ⟨_, h⟩, .inl ⟨offset, rfl, rfl⟩⟩
  · by_cases length : kind = .length
    · cases waiting with
      | true =>
          simp only [length, if_true] at h
          exact ⟨false, ⟨_, h⟩, .inr (.inl ⟨length, rfl, rfl⟩)⟩
      | false => simp [length, ParamKind.isOffset, bind, Except.bind] at h
    · simp only [offset, length, if_false] at h
      exact ⟨waiting, ⟨_, h⟩, .inr (.inr ⟨by simpa using offset, length, rfl⟩)⟩

/-- The pairing rule follows a step, and lets no offset come while another waits. -/
theorem Paired.of_step {opcode : String} {ctx : Context} {p q : Place} {kind : ParamKind}
    {rest : List ParamKind} {e : Passed} (h : Paired p.waiting (kind :: rest))
    (step : Step opcode ctx p kind e q) :
    Paired q.waiting rest ∧ (kind.isOffset = true → p.waiting = false) := by
  obtain ⟨waiting', hrest, h⟩ := h.cons
  cases step with
  | reference hk => cases kind <;> simp_all [isReference, ParamKind.isOffset]
  | outputPointer => simp_all [ParamKind.isOffset]
  | scalar hw hk => cases kind <;> simp_all [scalarChecker?, ParamKind.isOffset]
  | offset hw hk => cases kind <;> simp_all [ParamKind.isOffset]
  | length hw hk => simp_all [ParamKind.isOffset]

/-- Inputs that keep the pairing rule have a walk. -/
theorem exists_walk {opcode : String} {ctx : Context} {kinds : List ParamKind} {p : Place}
    (hw : ctx.wordBytes ≠ 0) (h : Paired p.waiting kinds) :
    ∃ e q, Walk opcode ctx p kinds e q := by
  induction kinds generalizing p with
  | nil => exact ⟨_, _, .nil⟩
  | cons kind rest ih =>
      have step : ∃ e q, Step opcode ctx p kind e q := by
        obtain ⟨waiting', -, h⟩ := h.cons
        refine exists_step hw fun hk => ?_
        subst hk
        have waits : p.waiting = true ∧ waiting' = false := by simpa [ParamKind.isOffset] using h
        exact waits.1
      obtain ⟨e, q, step⟩ := step
      obtain ⟨e', r, tail⟩ := ih (h.of_step step).1
      exact ⟨_, _, .cons step tail⟩

end HostGlue.Marshal

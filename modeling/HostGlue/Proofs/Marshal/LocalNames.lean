import HostGlue.Proofs.Marshal.OffsetAccounting
import HostGlue.Proofs.Marshal.WellTyped
import Mathlib.Data.List.Induction

/-!
# The names of locals and the pairing rule

The pairing rule is checked when a manifest is read, the locals are named when the operands are
planned, and the two walk over the inputs apart: one keeps a bit, the other the waiting offset and
the number of pairs completed. Here they are compared on all inputs.

The planner refuses inputs at a length for which no offset waits, and for no other reason. An offset
that comes while another waits it does not refuse, but names it like the one that waits. So the
inputs that keep the rule are those that have a plan in which no name is given twice:
`pairing_ok_iff_locals_distinct`.
-/

namespace HostGlue.Marshal

open Machine Interface

/-! ## Lengths without an offset -/

/-- Between one of the lengths and the length before it, or the start of the inputs, there is no
offset. -/
def LacksOffset (kinds : List ParamKind) : Prop :=
  ∃ before between after, kinds = before ++ between ++ .length :: after ∧
    (before = [] ∨ before.getLast? = some .length) ∧
    ∀ kind ∈ between, kind ≠ .length ∧ kind.isOffset = false

/-- Nothing waits behind inputs exactly if no offset stands behind the last length among them. -/
theorem waitsBehind_eq_false_iff_between {kinds : List ParamKind} :
    waitsBehind false kinds = false ↔ ∃ before between, kinds = before ++ between ∧
      (before = [] ∨ before.getLast? = some .length) ∧
      ∀ kind ∈ between, kind ≠ .length ∧ kind.isOffset = false := by
  constructor
  · intro settled
    induction kinds using List.reverseRecOn with
    | nil => exact ⟨[], [], rfl, .inl rfl, by simp⟩
    | append_singleton front kind ih =>
        rw [waitsBehind_append] at settled
        by_cases length : kind = .length
        · subst length
          exact ⟨front ++ [.length], [], by simp, .inr (by simp), by simp⟩
        · have plain : kind.isOffset = false := by
            refine Bool.eq_false_iff.mpr fun offset => ?_
            rw [waitsBehind_offset offset] at settled
            cases settled
          rw [waitsBehind_other (by simp [isOffsetOrLength, plain, length])] at settled
          obtain ⟨before, between, rfl, ends, others⟩ := ih settled
          refine ⟨before, between ++ [kind], by simp, ends, ?_⟩
          simpa [or_imp, forall_and, length, plain] using others
  · rintro ⟨before, between, rfl, ends, others⟩
    have idle : waitsBehind false before = false := by
      rcases ends with rfl | last
      · rfl
      · obtain ⟨front, rfl⟩ := List.getLast?_eq_some_iff.mp last
        rw [waitsBehind_append, waitsBehind_length]
    have silent : between.filter isOffsetOrLength = [] := by
      refine List.filter_eq_nil_iff.mpr fun kind mem => ?_
      simp [isOffsetOrLength, others kind mem]
    rw [waitsBehind_append, idle, waitsBehind, silent]
    rfl

theorem lacksOffset_iff {kinds : List ParamKind} :
    LacksOffset kinds ↔
      ∃ before after, kinds = before ++ .length :: after ∧ waitsBehind false before = false := by
  constructor
  · rintro ⟨before, between, after, rfl, rule⟩
    exact ⟨_, after, rfl, waitsBehind_eq_false_iff_between.mpr ⟨before, between, rfl, rule⟩⟩
  · rintro ⟨front, after, rfl, settled⟩
    obtain ⟨before, between, rfl, rule⟩ := waitsBehind_eq_false_iff_between.mp settled
    exact ⟨before, between, after, rfl, rule⟩

/-! ## What the planner refuses -/

section Refusal

variable {opcode : String} {ctx : Context} {cause : OperandError} {done : Passed} {p : Place}
  {kind : ParamKind} {kinds : List ParamKind}

/-- The cursor stops at a length for which no offset waits, and nowhere else. -/
theorem consume_eq_error_iff (hw : ctx.wordBytes ≠ 0) :
    Cursor.consume opcode ctx (p.cursor done) kind = .error cause ↔
      cause = .lengthWithoutOffset opcode ∧ kind = .length ∧ p.waiting = false := by
  by_cases served : kind = .length → p.waiting = true
  · obtain ⟨e, q, step⟩ : ∃ e q, Step opcode ctx p kind e q := exists_step hw served
    rw [consume_of_step step]
    refine iff_of_false nofun ?_
    rintro ⟨-, length, idle⟩
    rw [served length] at idle
    cases idle
  · rw [Classical.not_imp, Bool.not_eq_true] at served
    obtain ⟨rfl, idle⟩ := served
    have none : (p.cursor done).pending = none := by simp [Place.cursor, idle]
    rw [Cursor.consume, Cursor.marshal, memoryLength_none none]
    simp [Except.map, idle, eq_comm]

theorem fold_eq_error_iff (hw : ctx.wordBytes ≠ 0) :
    kinds.foldlM (Cursor.consume opcode ctx) (p.cursor done) = .error cause ↔
      cause = .lengthWithoutOffset opcode ∧
        ∃ before after, kinds = before ++ .length :: after ∧
          waitsBehind p.waiting before = false := by
  induction kinds generalizing p done with
  | nil => simp [pure, Except.pure]
  | cons kind rest ih =>
      rw [List.foldlM_cons]
      by_cases served : kind = .length → p.waiting = true
      · obtain ⟨e, q, step⟩ : ∃ e q, Step opcode ctx p kind e q := exists_step hw served
        rw [consume_of_step step]
        show rest.foldlM _ (q.cursor _) = _ ↔ _
        rw [ih, step.place_eq.2]
        refine and_congr_right fun _ => ⟨?_, ?_⟩
        · rintro ⟨before, after, rfl, settled⟩
          exact ⟨kind :: before, after, rfl, by rwa [waitsBehind_cons]⟩
        · rintro ⟨before, after, split, settled⟩
          cases before with
          | nil =>
              obtain ⟨rfl, -⟩ := List.cons.inj split
              rw [waitsBehind_nil, served rfl] at settled
              cases settled
          | cons other before =>
              obtain ⟨rfl, rfl⟩ := List.cons.inj split
              rw [waitsBehind_cons] at settled
              exact ⟨before, after, rfl, settled⟩
      · rw [Classical.not_imp, Bool.not_eq_true] at served
        have stops : Cursor.consume opcode ctx (p.cursor done) kind =
            .error (.lengthWithoutOffset opcode) := (consume_eq_error_iff hw).mpr ⟨rfl, served⟩
        rw [stops]
        obtain ⟨rfl, idle⟩ := served
        constructor
        · rintro ⟨⟩
          exact ⟨rfl, [], rest, rfl, idle⟩
        · rintro ⟨rfl, -⟩
          rfl

/-- **The planner refuses exactly the inputs with a length that lacks its offset.** -/
theorem planOperands_eq_error_iff {d : Descriptor} (hw : ctx.wordBytes ≠ 0) :
    planOperands opcode d ctx = .error cause ↔
      cause = .lengthWithoutOffset opcode ∧ LacksOffset d.inputs := by
  have fold : d.inputs.foldlM (Cursor.consume opcode ctx) (({} : Place).cursor {}) = .error cause ↔
      cause = .lengthWithoutOffset opcode ∧ ∃ before after,
        d.inputs = before ++ .length :: after ∧ waitsBehind false before = false :=
    fold_eq_error_iff hw
  rw [lacksOffset_iff, ← fold]
  show (d.inputs.foldlM (Cursor.consume opcode ctx) {}).map _ = _ ↔
    d.inputs.foldlM (Cursor.consume opcode ctx) {} = _
  cases d.inputs.foldlM (Cursor.consume opcode ctx) {} <;> simp [Except.map]

end Refusal

/-! ## Names that are given twice -/

/-- Where no name is given twice, no offset came while another waited. -/
theorem Walk.keepsPairing {opcode : String} {ctx : Context} {p q : Place} {kinds : List ParamKind}
    {e : Passed} (w : Walk opcode ctx p kinds e q) (nodup : (e.locals.map (·.1)).Nodup)
    (fresh : p.waiting = true → Cursor.offsetName p.pairs ∉ e.locals.map (·.1)) :
    KeepsPairing p.waiting kinds := by
  -- `fresh` is carried for the offset that waits: its name is the one the next offset would get
  induction w with
  | nil => exact keepsPairing_nil _
  | @cons p q r kind rest e e' step tail ih =>
      rw [keepsPairing_cons, ← step.place_eq.2]
      cases step with
      | reference h =>
          refine ⟨?_, ih nodup fresh⟩
          cases kind <;> simp_all [isReference, ParamKind.isOffset]
      | outputPointer => exact ⟨⟨by simp, by simp [ParamKind.isOffset]⟩, ih nodup fresh⟩
      | scalar hw h =>
          refine ⟨?_, ih nodup fresh⟩
          cases kind <;> simp_all [scalarChecker?, ParamKind.isOffset]
      | offset hw h =>
          obtain ⟨own, later⟩ := List.nodup_cons.mp nodup
          have idle : p.waiting = false :=
            Bool.eq_false_iff.mpr fun waits => fresh waits List.mem_cons_self
          refine ⟨⟨?_, fun _ => idle⟩, ih later fun _ => own⟩
          rintro rfl
          cases h
      | length hw h =>
          obtain ⟨-, later⟩ := List.nodup_cons.mp nodup
          exact ⟨⟨fun _ => h, by simp [ParamKind.isOffset]⟩, ih later (by simp)⟩

/-- **The pairing rule is what the names of locals need.** The inputs keep it exactly if they have a
plan in which no local is named twice. The planner refuses inputs exactly if one of their lengths
has no offset between itself and the length before it, or the start, and then says so. -/
theorem pairing_ok_iff_locals_distinct {opcode : String} {d : Descriptor} {ctx : Context}
    (hw : ctx.wordBytes ≠ 0) :
    (checkPairing d.inputs = .ok () ↔ ∃ plan, planOperands opcode d ctx = .ok plan ∧
      (plan.locals.map (·.1)).Nodup) ∧
    ∀ cause, planOperands opcode d ctx = .error cause ↔
      cause = .lengthWithoutOffset opcode ∧ LacksOffset d.inputs := by
  refine ⟨⟨fun accepted => ?_, ?_⟩, fun cause => planOperands_eq_error_iff hw⟩
  · have paired : Paired ({} : Place).waiting d.inputs := paired_of_checkPairing accepted
    obtain ⟨e, q, w⟩ : ∃ e q, Walk opcode ctx {} d.inputs e q := exists_walk hw paired
    exact ⟨e.plan q, planOperands_eq_ok_iff.mpr ⟨e, q, w, rfl⟩, (w.declares paired).1⟩
  · rintro ⟨plan, hplan, nodup⟩
    obtain ⟨e, q, w, rfl⟩ := planOperands_eq_ok_iff.mp hplan
    exact checkPairing_eq_ok_iff.mpr (w.keepsPairing nodup (by simp))

/-- A call with an offset in front of an offset. -/
def moveCall : Descriptor where
  name := "move"
  inputs := [.readOffset, .i32, .writeOffset, .length]

/-- Its two offsets share a local, so the checker refuses what the planner lets pass. -/
theorem moveCall_locals_repeat : ({} : Context).wordBytes ≠ 0 ∧
    (∃ plan, planOperands "MOVE" moveCall {} = .ok plan ∧
      plan.locals.map (·.1) = ["$offset0", "$offset0", "$length0"]) ∧
    checkPairing moveCall.inputs ≠ .ok () ∧ ¬ LacksOffset moveCall.inputs := by
  have hw : ({} : Context).wordBytes ≠ 0 := by decide
  obtain ⟨plan, hplan, names⟩ : ∃ plan, planOperands "MOVE" moveCall {} = .ok plan ∧
      plan.locals.map (·.1) = ["$offset0", "$offset0", "$length0"] := ⟨_, rfl, rfl⟩
  obtain ⟨accepted, refused⟩ := @pairing_ok_iff_locals_distinct "MOVE" moveCall {} hw
  refine ⟨hw, ⟨plan, hplan, names⟩, fun kept => ?_, fun lacks => ?_⟩
  · obtain ⟨other, hother, nodup⟩ := accepted.mp kept
    obtain rfl : plan = other := Except.ok.inj (hplan.symm.trans hother)
    rw [names] at nodup
    exact absurd nodup (by decide)
  · have stops := (refused _).mpr ⟨rfl, lacks⟩
    rw [hplan] at stops
    cases stops

end HostGlue.Marshal

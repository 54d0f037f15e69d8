import HostGlue.Proofs.Interface.Format
import HostGlue.Proofs.Marshal.Completion
import HostGlue.Proofs.Wat.Effects

/-!
# Order of evaluation in a function

The body of a generated function as the list of its effects: the prelude, the operands of the host
call, the call itself, and what completes the stack behind it. What stands in front of the call is
known exactly, so a claim about all that happens before the host is called, or behind it, is one
about these lists.
-/

namespace HostGlue.Marshal

open Machine Wat Interface

/-! ## Access to slots -/

section Access

variable {ctx : Context} {slot byte : Int} {checker : String} {x : Node}

theorem mem_effects_slotAddr (h : x ∈ effects (slotAddr ctx slot byte)) :
    x = .getGlobal ctx.stackPointer ∨ (∃ n, x = .const "i32" n) ∨
      ∃ n, x = .instr "i32.add" [.getGlobal ctx.stackPointer, .const "i32" n] := by
  unfold slotAddr at h
  dsimp only at h
  split at h
  · exact .inl (List.mem_singleton.mp h)
  · simp only [effects, effectsAll, List.cons_append, List.nil_append, List.mem_cons,
      List.not_mem_nil, or_false] at h
    rcases h with rfl | rfl | rfl
    · exact .inl rfl
    · exact .inr (.inl ⟨_, rfl⟩)
    · exact .inr (.inr ⟨_, rfl⟩)

theorem mem_effects_checked (h : x ∈ effects (checked ctx checker slot)) :
    x = checked ctx checker slot ∨ (∃ addr, x = .load "i64" addr) ∨
      ∃ byte, x ∈ effects (slotAddr ctx slot byte) := by
  rw [checked, effects, List.mem_append, List.mem_singleton] at h
  rcases h with h | rfl
  · obtain ⟨load, hload, hx⟩ := mem_effectsAll.mp h
    obtain ⟨w, -, rfl⟩ := List.mem_map.mp hload
    rw [effects, List.mem_append, List.mem_singleton] at hx
    rcases hx with hx | rfl
    · exact .inr (.inr ⟨_, hx⟩)
    · exact .inr (.inl ⟨_, rfl⟩)
  · exact .inl rfl

/-- The location for a result is addressed and no more. -/
theorem mem_effects_handles {kind : Option ReturnKind}
    (h : x ∈ effectsAll (handles ctx slot kind)) : x ∈ effects (slotAddr ctx slot 0) := by
  obtain ⟨n, hn, hx⟩ := mem_effectsAll.mp h
  unfold handles at hn
  split at hn
  case h_4 => cases hn
  all_goals
    obtain rfl := List.mem_singleton.mp hn
    exact hx

end Access

/-! ## Plans -/

/-- Every descriptor that is accepted has a plan, which is that of a walk. -/
theorem exists_plan {ctx : Context} {source key : String} {raw : Json.Value} {d : Descriptor}
    (h : Descriptor.ofJson source key raw = .ok d) (hw : ctx.wordBytes ≠ 0) (opcode : String) :
    KeepsPairing false d.inputs ∧
      ∃ e q, Walk opcode ctx {} d.inputs e q ∧ planOperands opcode d ctx = .ok (e.plan q) := by
  obtain ⟨members, -, entry⟩ := descriptor_ofJson_eq_ok_iff.mp h
  have checked := checkPairing_eq_ok_iff.mpr entry.pairing
  obtain ⟨e, q, w⟩ : ∃ e q, Walk opcode ctx {} d.inputs e q :=
    exists_walk hw (paired_of_checkPairing checked)
  exact ⟨entry.pairing, e, q, w, planOperands_eq_ok_iff.mpr ⟨e, q, w, rfl⟩⟩

/-! ## Around the host call -/

section Around

variable (ctx)

/-- What the host is handed: the arguments, the location for a wide result, the continuation. -/
def hostArgs (d : Descriptor) (mode : Mode) (plan : OperandPlan) : List Node :=
  plan.args ++ (handles ctx plan.resultSlot d.result ++
    ((HostCall.ofPlan d mode plan ctx).callback.map Node.getLocal).toList)

/-- In front of the host call, its operands apart, only the address of the result slot may be taken
already. -/
theorem effects_received (inverted : Bool) (slot : Int) (call : Node) (kind : Option ReturnKind) :
    ∃ lead behind,
      effects (received ctx inverted slot call kind) = lead ++ (effects call ++ behind) ∧
        ∀ x ∈ lead, x ∈ effects (slotAddr ctx slot 0) := by
  unfold received
  split
  · cases inverted
    · exact ⟨_, _, by simp [effects]; rfl, fun x hx => hx⟩
    · exact ⟨_, _, by simp [effects]; rfl, fun x hx => hx⟩
  · exact ⟨_, _, by simp [effects]; rfl, fun x hx => hx⟩
  · exact ⟨[], [], by simp, fun x hx => absurd hx List.not_mem_nil⟩

/-- **The body of a function in order of evaluation**: the prelude, the operands of the host call,
the call, and what completes the stack. -/
theorem effects_around_call (opcode : String) (d : Descriptor) (mode : Mode) (plan : OperandPlan) :
    ∃ lead behind,
      effectsAll (.seq plan.prelude :: resultNodes ctx opcode d mode plan) =
        (effectsAll plan.prelude ++ (lead ++ effectsAll (hostArgs ctx d mode plan))) ++
          .call ("$" ++ d.name) (hostArgs ctx d mode plan) :: behind ∧
      ∀ x ∈ lead, (∃ text, x = .note text) ∨ x ∈ effects (slotAddr ctx plan.resultSlot 0) := by
  let inverted := ctx.statusInverted.contains opcode
  obtain ⟨lead, behind, split, address⟩ := effects_received ctx inverted plan.resultSlot
    (hostCall ctx d mode plan) d.result
  have call : effects (hostCall ctx d mode plan) = effectsAll (hostArgs ctx d mode plan) ++
      [.call ("$" ++ d.name) (hostArgs ctx d mode plan)] := rfl
  refine ⟨effectsAll (remarks inverted d.result) ++ lead, behind ++
    effectsAll (completion ctx plan.resultSlot d.result ++
      clearing ctx (plan.reconciledSlots.filter (· ≠ plan.resultSlot))), ?_, fun x hx => ?_⟩
  · rw [effectsAll_cons, resultNodes, effectsAll_append, effectsAll_cons, split, call, effects]
    simp only [List.append_assoc, List.cons_append, List.nil_append]
    rfl
  · rcases List.mem_append.mp hx with hx | hx
    · unfold remarks at hx
      split at hx
      · cases hi : inverted with
        | false => simp [hi] at hx
        | true => exact .inl ⟨_, by simpa [hi, effects] using hx⟩
      · cases hx
    · exact .inr (address x hx)

end Around

end HostGlue.Marshal

import HostGlue.Interface.Pairing
import HostGlue.Proofs.Except

/-!
# The pairing rule by positions

The checker walks over the inputs and keeps one bit. Here the bit is read off the inputs themselves:
an offset waits behind them if the last offset or length among them is an offset. The rule then
speaks of each input and the ones in front of it, and `checkPairing_eq_ok_iff` says that the checker
accepts exactly the inputs that keep it.

The rule asks nothing of the end of the inputs, so the last offset may be left waiting.
-/

namespace HostGlue.Interface

/-- The kinds that the rule is about. -/
def isOffsetOrLength (kind : ParamKind) : Bool := kind.isOffset || kind = .length

/-- An offset waits behind the inputs. `waiting` says whether one waited in front of them. -/
def waitsBehind (waiting : Bool) (kinds : List ParamKind) : Bool :=
  ((kinds.filter isOffsetOrLength).getLast?.map ParamKind.isOffset).getD waiting

/-- At every length an offset waits, and at no offset. -/
def KeepsPairing (waiting : Bool) (kinds : List ParamKind) : Prop :=
  ∀ before kind after, kinds = before ++ kind :: after →
    (kind = .length → waitsBehind waiting before = true) ∧
    (kind.isOffset = true → waitsBehind waiting before = false)

/-! ## What waits -/

@[simp] theorem waitsBehind_nil (waiting : Bool) : waitsBehind waiting [] = waiting := rfl

theorem waitsBehind_cons (waiting : Bool) (kind : ParamKind) (rest : List ParamKind) :
    waitsBehind waiting (kind :: rest) = waitsBehind (waitsBehind waiting [kind]) rest := by
  cases hk : isOffsetOrLength kind with
  | false => simp [waitsBehind, hk]
  | true =>
      cases hr : (rest.filter isOffsetOrLength).getLast? with
      | none => simp [waitsBehind, hk, hr, List.getLast?_cons]
      | some last => simp [waitsBehind, hk, hr, List.getLast?_cons]

theorem waitsBehind_append (waiting : Bool) (before after : List ParamKind) :
    waitsBehind waiting (before ++ after) = waitsBehind (waitsBehind waiting before) after := by
  induction before generalizing waiting with
  | nil => rfl
  | cons kind rest ih => rw [List.cons_append, waitsBehind_cons, ih, ← waitsBehind_cons]

theorem waitsBehind_offset {kind : ParamKind} (h : kind.isOffset = true) (waiting : Bool) :
    waitsBehind waiting [kind] = true := by
  simp [waitsBehind, isOffsetOrLength, h]

theorem waitsBehind_length (waiting : Bool) : waitsBehind waiting [.length] = false := rfl

theorem waitsBehind_other {kind : ParamKind} (h : isOffsetOrLength kind = false) (waiting : Bool) :
    waitsBehind waiting [kind] = waiting := by
  simp [waitsBehind, h]

/-- An offset behind which no length comes is still waiting at the end. -/
theorem waitsBehind_of_length_not_mem {kinds : List ParamKind} (h : .length ∉ kinds) :
    waitsBehind true kinds = true := by
  induction kinds with
  | nil => rfl
  | cons kind rest ih =>
      rw [List.mem_cons, not_or] at h
      have kept : waitsBehind true [kind] = true := by
        cases hk : isOffsetOrLength kind with
        | false => exact waitsBehind_other hk true
        | true =>
            refine waitsBehind_offset ?_ true
            simpa [isOffsetOrLength, Ne.symm h.1] using hk
      rw [waitsBehind_cons, kept]
      exact ih h.2

/-- What waits at the end waited from the start or is one of the inputs. -/
theorem exists_waiting {waiting : Bool} {kinds : List ParamKind}
    (h : waitsBehind waiting kinds = true) :
    (waiting = true ∧ .length ∉ kinds) ∨
      ∃ before kind after, kinds = before ++ kind :: after ∧ kind.isOffset = true ∧
        .length ∉ after := by
  induction kinds generalizing waiting with
  | nil => exact .inl ⟨h, List.not_mem_nil⟩
  | cons kind rest ih =>
      rw [waitsBehind_cons] at h
      rcases ih h with ⟨now, none⟩ | ⟨before, other, after, rfl, offset, none⟩
      · by_cases offset : kind.isOffset = true
        · exact .inr ⟨[], kind, rest, rfl, offset, none⟩
        · by_cases length : kind = .length
          · subst length
            cases now
          · refine .inl ⟨?_, by simpa [Ne.symm length] using none⟩
            rwa [waitsBehind_other (by simp [isOffsetOrLength, offset, length])] at now
      · exact .inr ⟨kind :: before, other, after, rfl, offset, none⟩

/-- Nothing waits at the end exactly if a length comes behind every offset. -/
theorem waitsBehind_eq_false_iff {kinds : List ParamKind} :
    waitsBehind false kinds = false ↔
      ∀ before kind after, kinds = before ++ kind :: after → kind.isOffset = true →
        .length ∈ after := by
  constructor
  · rintro settled before kind after rfl offset
    refine Classical.byContradiction fun last => ?_
    rw [waitsBehind_append, waitsBehind_cons, waitsBehind_offset offset,
      waitsBehind_of_length_not_mem last] at settled
    cases settled
  · refine fun comes => Bool.eq_false_iff.mpr fun waits => ?_
    rcases exists_waiting waits with ⟨now, -⟩ | ⟨before, kind, after, inputs, offset, last⟩
    · cases now
    · exact last (comes before kind after inputs offset)

/-! ## The checker -/

theorem keepsPairing_nil (waiting : Bool) : KeepsPairing waiting [] := by
  intro before kind after h
  simp at h

theorem keepsPairing_cons {waiting : Bool} {kind : ParamKind} {rest : List ParamKind} :
    KeepsPairing waiting (kind :: rest) ↔
      ((kind = .length → waiting = true) ∧ (kind.isOffset = true → waiting = false)) ∧
        KeepsPairing (waitsBehind waiting [kind]) rest := by
  constructor
  · intro h
    refine ⟨h [] kind rest rfl, ?_⟩
    rintro before other after rfl
    rw [← waitsBehind_cons]
    exact h (kind :: before) other after rfl
  · rintro ⟨first, others⟩ before other after split
    cases before with
    | nil =>
        obtain ⟨rfl, rfl⟩ := List.cons.inj split
        exact first
    | cons kind' before =>
        obtain ⟨rfl, rfl⟩ := List.cons.inj split
        rw [waitsBehind_cons]
        exact others before other after rfl

theorem KeepsPairing.of_append {waiting : Bool} {before after : List ParamKind}
    (h : KeepsPairing waiting (before ++ after)) :
    KeepsPairing (waitsBehind waiting before) after := by
  rintro more kind behind rfl
  rw [← waitsBehind_append]
  exact h (before ++ more) kind behind (by rw [List.append_assoc])

theorem pairStep_eq_ok_iff {waiting waiting' : Bool} {index : Nat} {kind : ParamKind} :
    pairStep waiting index kind = .ok waiting' ↔
      ((kind = .length → waiting = true) ∧ (kind.isOffset = true → waiting = false)) ∧
        waiting' = waitsBehind waiting [kind] := by
  cases kind <;> cases waiting <;>
    simp [pairStep, ParamKind.isOffset, waitsBehind, isOffsetOrLength, eq_comm]

theorem checkPairingFrom_eq_ok_iff {waiting : Bool} {index : Nat} {kinds : List ParamKind} :
    checkPairingFrom waiting index kinds = .ok () ↔ KeepsPairing waiting kinds := by
  induction kinds generalizing waiting index with
  | nil => exact iff_of_true rfl (keepsPairing_nil waiting)
  | cons kind rest ih =>
      rw [checkPairingFrom, except_bind_eq_ok, keepsPairing_cons]
      constructor
      · rintro ⟨waiting', step, others⟩
        obtain ⟨first, rfl⟩ := pairStep_eq_ok_iff.mp step
        exact ⟨first, ih.mp others⟩
      · rintro ⟨first, others⟩
        exact ⟨_, pairStep_eq_ok_iff.mpr ⟨first, rfl⟩, ih.mpr others⟩

/-- **The checker accepts exactly the inputs that keep the pairing rule.** -/
theorem checkPairing_eq_ok_iff {kinds : List ParamKind} :
    checkPairing kinds = .ok () ↔ KeepsPairing false kinds := checkPairingFrom_eq_ok_iff

end HostGlue.Interface

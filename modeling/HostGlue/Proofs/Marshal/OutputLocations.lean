import HostGlue.Proofs.Marshal.Order
import Mathlib.Data.List.Nodup

/-!
# Locations that the host fills

An output pointer is handed the slot above the next operand, and a wide result the result slot. The
walk does not move at an output pointer, so what these slots are depends on the operands in front of
them alone: `pointerSlots`. Behind the host call code is stored into the result slot and into the
slots of dropped operands.

So the slots can meet. Two output pointers in a row get the same slot; one behind the last operand
gets the result slot; and one behind a length gets the slot of a dropped operand, if operands are
dropped. `locations_survive_iff` says that they meet nowhere else. Slots are compared by the
operands between them, by induction over the inputs.
-/

namespace HostGlue.Marshal

open Machine Wat Interface

/-! ## Slots along the inputs -/

/-- The slots of the output pointers among the inputs, for a walk that starts at the slot. -/
def pointerSlots (dropping : Bool) (slot : Int) : List ParamKind → List Int
  | [] => []
  | kind :: rest =>
    (if kind = .opointer then [slot + 1] else []) ++
      pointerSlots dropping (slot - operandsOf dropping kind) rest

/-- The slots of the dropped operands. -/
def droppedSlots (dropping : Bool) (slot : Int) : List ParamKind → List Int
  | [] => []
  | kind :: rest =>
    (if kind = .length then droppedBehind dropping slot else []) ++
      droppedSlots dropping (slot - operandsOf dropping kind) rest

section Slots

variable {dropping : Bool} {slot s : Int} {kind : ParamKind} {kinds rest : List ParamKind}

theorem pointerSlots_opointer :
    pointerSlots dropping slot (.opointer :: rest) =
      (slot + 1) :: pointerSlots dropping slot rest := by
  simp [pointerSlots, operandsOf]

theorem pointerSlots_other (h : kind ≠ .opointer) :
    pointerSlots dropping slot (kind :: rest) =
      pointerSlots dropping (slot - operandsOf dropping kind) rest := by
  simp [pointerSlots, h]

theorem operandsOf_pos (dropping : Bool) (h : kind ≠ .opointer) : 0 < operandsOf dropping kind := by
  cases dropping <;> cases kind <;> simp_all [operandsOf]

theorem pointerSlots_le (h : s ∈ pointerSlots dropping slot kinds) : s ≤ slot + 1 := by
  induction kinds generalizing slot with
  | nil => cases h
  | cons kind rest ih =>
      rcases List.mem_append.mp h with h | h
      · by_cases hk : kind = .opointer
        · rw [if_pos hk, List.mem_singleton] at h
          omega
        · simp [hk] at h
      · have := ih h
        omega

theorem droppedSlots_lt (h : s ∈ droppedSlots dropping slot kinds) : s < slot := by
  induction kinds generalizing slot with
  | nil => cases h
  | cons kind rest ih =>
      rcases List.mem_append.mp h with h | h
      · by_cases hk : kind = .length
        · rw [if_pos hk, droppedBehind] at h
          cases dropping with
          | false => cases h
          | true =>
              rw [if_pos rfl, List.mem_cons, List.mem_singleton] at h
              omega
        · simp [hk] at h
      · have := ih h
        omega

/-- The slot above the first operand is passed again if the inputs begin with an output pointer. -/
theorem above_mem_pointerSlots :
    slot + 1 ∈ pointerSlots dropping slot kinds ↔ kinds.head? = some .opointer := by
  cases kinds with
  | nil => simp [pointerSlots]
  | cons kind rest =>
      by_cases hk : kind = .opointer
      · subst hk
        simp [pointerSlots_opointer]
      · rw [pointerSlots_other hk]
        refine iff_of_false (fun h => ?_) (by simpa using hk)
        have below := pointerSlots_le h
        have moved := operandsOf_pos dropping hk
        omega

/-- **Output pointers get slots of their own unless two are in a row.** -/
theorem nodup_pointerSlots_iff :
    (pointerSlots dropping slot kinds).Nodup ↔ ¬ [.opointer, .opointer] <:+: kinds := by
  induction kinds generalizing slot with
  | nil => simp [pointerSlots]
  | cons kind rest ih =>
      rw [List.infix_cons_iff]
      by_cases hk : kind = .opointer
      · subst hk
        have pair : [ParamKind.opointer, .opointer] <+: .opointer :: rest ↔
            rest.head? = some .opointer := by
          rw [List.cons_prefix_cons]
          cases rest <;> simp [eq_comm]
        rw [pointerSlots_opointer, List.nodup_cons, above_mem_pointerSlots, ih, pair, not_or]
      · rw [pointerSlots_other hk, ih, List.cons_prefix_cons]
        simp [Ne.symm hk]

theorem head?_of_stackDepth (h : stackDepth dropping kinds = 0) :
    kinds = [] ∨ kinds.head? = some .opointer := by
  cases kinds with
  | nil => exact .inl rfl
  | cons kind rest =>
      by_cases hk : kind = .opointer
      · exact .inr (congrArg some hk)
      · rw [stackDepth_cons] at h
        have moved := operandsOf_pos dropping hk
        omega

/-- **The result slot is handed out for an output pointer if that is the last input.** -/
theorem result_mem_pointerSlots :
    slot - stackDepth dropping kinds + 1 ∈ pointerSlots dropping slot kinds ↔
      kinds.getLast? = some .opointer := by
  induction kinds generalizing slot with
  | nil => simp [pointerSlots]
  | cons kind rest ih =>
      rw [stackDepth_cons, List.getLast?_cons]
      by_cases hk : kind = .opointer
      · subst hk
        rw [pointerSlots_opointer, List.mem_cons]
        simp only [operandsOf, Nat.zero_add]
        rw [ih]
        cases hlast : rest.getLast? with
        | none =>
            obtain rfl := List.getLast?_eq_none_iff.mp hlast
            simp
        | some last =>
            rw [Option.getD_some]
            refine or_iff_right_of_imp fun same => ?_
            -- nothing was taken from the stack, so the slot is also that of the next output pointer
            have none : stackDepth dropping rest = 0 := by omega
            rcases head?_of_stackDepth none with rfl | first
            · cases hlast
            · rw [← hlast, ← @ih slot, none]
              simpa using above_mem_pointerSlots.mpr first
      · rw [pointerSlots_other hk, Int.natCast_add, ← Int.sub_sub, ih]
        cases rest.getLast? <;> simp [hk]

theorem droppedSlots_other (h : kind ≠ .length) :
    droppedSlots dropping slot (kind :: rest) =
      droppedSlots dropping (slot - operandsOf dropping kind) rest := by
  simp [droppedSlots, h]

theorem droppedSlots_length :
    droppedSlots true slot (.length :: rest) =
      (slot - 1) :: (slot - 2) :: droppedSlots true (slot - 3) rest := by
  simp [droppedSlots, droppedBehind, operandsOf]

/-- The slot above the first operand is handed out, and there is an operand, if an output pointer
and another input come first. -/
theorem above_not_last_iff (dropping : Bool) (slot : Int)
    (apart : ¬ [.opointer, .opointer] <:+: kinds) :
    (slot + 1 ∈ pointerSlots dropping slot kinds ∧ stackDepth dropping kinds ≠ 0) ↔
      ∃ kind, [.opointer, kind] <+: kinds := by
  rw [above_mem_pointerSlots]
  constructor
  · rintro ⟨first, some⟩
    cases kinds with
    | nil => cases first
    | cons kind rest =>
        obtain rfl : kind = .opointer := by simpa using first
        cases rest with
        | nil => simp [stackDepth_cons, operandsOf] at some
        | cons next others => exact ⟨next, ⟨others, rfl⟩⟩
  · rintro ⟨kind, others, rfl⟩
    refine ⟨rfl, ?_⟩
    have other : kind ≠ .opointer := by
      rintro rfl
      exact apart (List.prefix_append _ _).isInfix
    have moved := operandsOf_pos dropping other
    rw [List.cons_append, List.cons_append, stackDepth_cons, stackDepth_cons]
    omega

/-- **The slot of a dropped operand is handed out for an output pointer right behind the length**,
and is not the result slot if another input follows. -/
theorem pointer_dropped_iff (apart : ¬ [.opointer, .opointer] <:+: kinds) :
    (∃ s ∈ pointerSlots true slot kinds, s ∈ droppedSlots true slot kinds ∧
        s ≠ slot - stackDepth true kinds + 1) ↔
      ∃ kind, [.length, .opointer, kind] <:+: kinds := by
  induction kinds generalizing slot with
  | nil => simp [pointerSlots]
  | cons kind rest ih =>
      rw [List.infix_cons_iff, not_or] at apart
      have result (n : Nat) : slot - (n + stackDepth true rest : Nat) + 1 =
          slot - n - stackDepth true rest + 1 := by omega
      simp only [stackDepth_cons, result, List.infix_cons_iff, exists_or,
        ← @ih (slot - operandsOf true kind) apart.2]
      by_cases hl : kind = .length
      · subst hl
        simp only [List.cons_prefix_cons, true_and]
        rw [← above_not_last_iff true (slot - 3) apart.2,
          pointerSlots_other (by simp), droppedSlots_length]
        show (∃ s ∈ pointerSlots true (slot - 3) rest, _ ∧ s ≠ slot - 3 - _ + 1) ↔
          _ ∨ ∃ s ∈ pointerSlots true (slot - 3) rest, _ ∧ s ≠ slot - 3 - _ + 1
        constructor
        · rintro ⟨s, passed, dropped, ne⟩
          have low := pointerSlots_le passed
          rcases List.mem_cons.mp dropped with rfl | dropped
          · omega
          · rcases List.mem_cons.mp dropped with rfl | dropped
            · refine .inl ⟨?_, by omega⟩
              rwa [show slot - 3 + 1 = slot - 2 by omega]
            · exact .inr ⟨s, passed, dropped, ne⟩
        · rintro (⟨passed, some⟩ | ⟨s, passed, dropped, ne⟩)
          · exact ⟨_, passed, by simp; omega, by omega⟩
          · exact ⟨s, passed, List.mem_cons_of_mem _ (List.mem_cons_of_mem _ dropped), ne⟩
      · have noPrefix (k : ParamKind) : ¬ [.length, .opointer, k] <+: kind :: rest := by
          rw [List.cons_prefix_cons]
          exact fun h => hl h.1.symm
        simp only [noPrefix, exists_false, false_or, droppedSlots_other hl]
        by_cases hk : kind = .opointer
        · subst hk
          rw [pointerSlots_opointer]
          simp only [operandsOf, Int.natCast_zero, Int.sub_zero]
          constructor
          · rintro ⟨s, passed, dropped, ne⟩
            rcases List.mem_cons.mp passed with rfl | passed
            · have low := droppedSlots_lt dropped
              omega
            · exact ⟨s, passed, dropped, ne⟩
          · rintro ⟨s, passed, dropped, ne⟩
            exact ⟨s, List.mem_cons_of_mem _ passed, dropped, ne⟩
        · rw [pointerSlots_other hk]

end Slots

/-! ## Stores -/

/-- The distance of an address from the stack pointer. -/
def distance? (ctx : Context) : Node → Option Int
  | .getGlobal base => if base = ctx.stackPointer then some 0 else none
  | .instr op [.getGlobal base, .const valtype n] =>
    if op = "i32.add" ∧ base = ctx.stackPointer ∧ valtype = "i32" then some n else none
  | _ => none

/-- The number of bytes that a store of the type writes. -/
def storeSize (valtype : String) : Int := if valtype = "i32" then 4 else 8

/-- The node stores into the slot at the location. A store to an address that is not known may go
anywhere. -/
def overwrites (ctx : Context) (location : Node) : Node → Bool
  | .store valtype addr _ =>
    match distance? ctx location, distance? ctx addr with
    | some l, some a => a < l + ctx.slotBytes ∧ l < a + storeSize valtype
    | _, _ => true
  | _ => false

theorem distance?_slotAddr (ctx : Context) (slot byte : Int) :
    distance? ctx (slotAddr ctx slot byte) = some (ctx.slotByteOffset slot byte) := by
  unfold slotAddr
  dsimp only
  split
  · next zero => rw [distance?, if_pos rfl, zero]
  · exact if_pos ⟨rfl, rfl, rfl⟩

/-- The instructions store into the slots, and into no other. -/
def StoresInto (instructions : List Node) (slots : List Int) : Prop :=
  ∀ slot, (∃ x ∈ instructions, overwrites {} (slotAddr {} slot 0) x = true) ↔ slot ∈ slots

def isStore : Node → Bool
  | .store .. => true
  | _ => false

section Stores

variable {xs ys : List Node} {slots others : List Int} {slot byte : Int} {ctx : Context} {x : Node}

theorem overwrites_of_not_store {location : Node} (h : isStore x = false) :
    overwrites ctx location x = false := by
  cases x <;> simp_all [overwrites, isStore]

theorem storesInto_nil (h : ∀ x ∈ xs, isStore x = false) : StoresInto xs [] := by
  intro slot
  refine iff_of_false ?_ List.not_mem_nil
  rintro ⟨x, hx, stores⟩
  rw [overwrites_of_not_store (h x hx)] at stores
  cases stores

theorem StoresInto.append (hx : StoresInto xs slots) (hy : StoresInto ys others) :
    StoresInto (xs ++ ys) (slots ++ others) := by
  intro slot
  rw [List.mem_append, ← hx slot, ← hy slot]
  constructor
  · rintro ⟨x, mem, stores⟩
    rcases List.mem_append.mp mem with mem | mem
    · exact .inl ⟨x, mem, stores⟩
    · exact .inr ⟨x, mem, stores⟩
  · rintro (⟨x, mem, stores⟩ | ⟨x, mem, stores⟩)
    · exact ⟨x, List.mem_append_left _ mem, stores⟩
    · exact ⟨x, List.mem_append_right _ mem, stores⟩

theorem isStore_slotAddr (h : x ∈ effects (slotAddr ctx slot byte)) : isStore x = false := by
  rcases mem_effects_slotAddr h with rfl | ⟨n, rfl⟩ | ⟨n, rfl⟩ <;> rfl

theorem isStore_checked {checker : String} (h : x ∈ effects (checked ctx checker slot)) :
    isStore x = false := by
  rcases mem_effects_checked h with rfl | ⟨addr, rfl⟩ | ⟨byte, address⟩
  · rfl
  · rfl
  · exact isStore_slotAddr address

/-- A store into a slot stores into no other slot. -/
theorem storesInto_store {valtype : String} {value : Node} (low : 0 ≤ byte)
    (high : byte + storeSize valtype ≤ 32) (silent : ∀ x ∈ effects value, isStore x = false) :
    StoresInto (effects (.store valtype (slotAddr {} slot byte) value)) [slot] := by
  have size : 0 < storeSize valtype := by
    unfold storeSize
    split <;> decide
  have last : StoresInto [.store valtype (slotAddr {} slot byte) value] [slot] := by
    intro other
    simp only [List.mem_singleton, exists_eq_left, overwrites, distance?_slotAddr,
      Context.slotByteOffset, decide_eq_true_eq]
    omega
  rw [effects]
  exact (storesInto_nil fun x hx => isStore_slotAddr hx).append
    ((storesInto_nil silent).append last)

theorem StoresInto.congr (h : StoresInto xs slots) (same : ∀ s, s ∈ slots ↔ s ∈ others) :
    StoresInto xs others := fun slot => (h slot).trans (same slot)

theorem storesInto_zeroWords {words : List Int} (inside : ∀ w ∈ words, 0 ≤ w ∧ w < 4)
    (some : words ≠ []) : StoresInto (effectsAll (zeroWords {} slot words)) [slot] := by
  induction words with
  | nil => exact absurd rfl some
  | cons w words ih =>
      obtain ⟨here, inside⟩ := List.forall_mem_cons.mp inside
      have reach : w * 8 + storeSize "i64" ≤ 32 := by
        have : storeSize "i64" = 8 := rfl
        omega
      have first : StoresInto (effects (.store "i64" (slotAddr {} slot (w * 8)) (.const "i64" 0)))
          [slot] := by
        refine storesInto_store (by omega) reach fun x hx => ?_
        obtain rfl := List.mem_singleton.mp hx
        rfl
      rw [zeroWords, List.map_cons, effectsAll_cons]
      cases words with
      | nil => exact first.append (storesInto_nil fun x hx => absurd hx List.not_mem_nil)
      | cons w' words => exact (first.append (ih inside (by simp))).congr (by simp)

/-- The words of a slot, from one of them on. -/
theorem span_words {start : Int} (low : 0 ≤ start) (high : start < 4) :
    (∀ w ∈ span start (({} : Context).slotBytes.fdiv ({} : Context).wordBytes), 0 ≤ w ∧ w < 4) ∧
      span start (({} : Context).slotBytes.fdiv ({} : Context).wordBytes) ≠ [] := by
  have four : ({} : Context).slotBytes.fdiv ({} : Context).wordBytes = 4 := rfl
  rw [four]
  constructor
  · intro w hw
    have := mem_span.mp hw
    omega
  · exact List.ne_nil_of_mem (mem_span.mpr ⟨Int.le_refl start, high⟩)

theorem storesInto_padding {start : Int} (low : 0 ≤ start) (high : start < 4) :
    StoresInto (effectsAll (padding {} slot start)) [slot] := by
  obtain ⟨inside, some⟩ := span_words low high
  rw [padding, effectsAll_cons]
  exact (storesInto_nil (by simp [effects, isStore])).append (storesInto_zeroWords inside some)

theorem storesInto_clearing : StoresInto (effectsAll (clearing {} slots)) slots := by
  induction slots with
  | nil => exact storesInto_nil fun x hx => absurd hx List.not_mem_nil
  | cons slot slots ih =>
      obtain ⟨inside, some⟩ := span_words (Int.le_refl 0) (by decide)
      rw [clearing, List.flatMap_cons, effectsAll_append, ← clearing, effectsAll_cons]
      exact ((storesInto_nil (by simp [effects, isStore])).append
        (storesInto_zeroWords inside some)).append ih

/-- The slots that code for a result of the kind stores into. -/
def resultStores (slot : Int) : Option ReturnKind → List Int
  | none | some .i256 => []
  | some _ => [slot]

theorem storesInto_completion (slot : Int) (kind : Option ReturnKind) :
    StoresInto (effectsAll (completion {} slot kind)) (resultStores slot kind) := by
  cases kind with
  | none => exact storesInto_nil fun x hx => absurd hx List.not_mem_nil
  | some kind =>
      cases kind with
      | i32 => exact storesInto_padding (by decide) (by decide)
      | i64 => exact storesInto_padding (by decide) (by decide)
      | i128 => exact storesInto_padding (by decide) (by decide)
      | address =>
          have upper : StoresInto (effects (.store "i32" (slotAddr {} slot 20) (.const "i32" 0)))
              [slot] := storesInto_store (by decide) (by decide) (by simp [effects, isStore])
          rw [completion, effectsAll_append, effectsAll_cons]
          exact ((storesInto_padding (by decide) (by decide)).append
            (upper.append (storesInto_nil (by simp)))).congr (by simp [resultStores])
      | i256 =>
          refine storesInto_nil fun x hx => ?_
          simp only [completion, effectsAll_cons, effectsAll_nil, effects, List.append_nil,
            List.mem_append, List.mem_singleton] at hx
          rcases hx with (hx | rfl) | rfl
          · exact isStore_slotAddr hx
          · rfl
          · rfl

/-- The instruction around the host call stores into the result slot only. -/
theorem storesInto_received (inverted : Bool) (slot : Int) {call : Node}
    (silent : ∀ x ∈ effects call, isStore x = false) (kind : Option ReturnKind) :
    ∃ slots, StoresInto (effects (received {} inverted slot call kind)) slots ∧
      ∀ s ∈ slots, s ∈ resultStores slot kind := by
  have inner (op : String) {n : Node} (h : ∀ x ∈ effects n, isStore x = false) :
      ∀ x ∈ effects (.instr op [n]), isStore x = false := by
    simp only [effects, effectsAll_cons, effectsAll_nil, List.append_nil, List.mem_append,
      List.mem_singleton]
    rintro x (hx | rfl)
    · exact h x hx
    · rfl
  unfold received
  split
  · refine ⟨[slot], storesInto_store (by decide) (by decide) (inner _ ?_), fun s hs => hs⟩
    cases inverted
    · exact silent
    · exact inner _ silent
  · exact ⟨[slot], storesInto_store (by decide) (by decide) silent, fun s hs => hs⟩
  · exact ⟨[], storesInto_nil silent, fun s hs => absurd hs List.not_mem_nil⟩

theorem StoresInto.of_append (silent : ∀ x ∈ xs, isStore x = false)
    (h : StoresInto (xs ++ ys) slots) : StoresInto ys slots := by
  intro slot
  rw [← h slot]
  constructor
  · rintro ⟨x, mem, stores⟩
    exact ⟨x, List.mem_append_right _ mem, stores⟩
  · rintro ⟨x, mem, stores⟩
    rcases List.mem_append.mp mem with mem | mem
    · rw [overwrites_of_not_store (silent x mem)] at stores
      cases stores
    · exact ⟨x, mem, stores⟩

end Stores

/-! ## Along the walk -/

section Walk

variable {opcode : String} {ctx : Context} {p q : Place} {kind : ParamKind}
  {kinds : List ParamKind} {e : Passed}

/-- Nothing is stored in front of the host call. -/
theorem Step.silent (step : Step opcode ctx p kind e q) :
    ∀ x ∈ effectsAll (e.prelude ++ e.args), isStore x = false := by
  intro x hx
  cases step with
  | reference h => exact isStore_slotAddr (by simpa using hx)
  | outputPointer => exact isStore_slotAddr (by simpa using hx)
  | scalar hw h => exact isStore_checked (by simpa using hx)
  | offset hw h =>
      simp only [List.cons_append, List.nil_append, effectsAll_cons, effectsAll_nil, effects,
        List.mem_append, List.mem_singleton, List.append_nil] at hx
      rcases hx with (hx | rfl) | rfl
      · exact isStore_checked hx
      · rfl
      · rfl
  | length hw h =>
      simp only [settlePair, List.cons_append, List.nil_append, effectsAll_cons, effectsAll_nil,
        effects, List.mem_append, List.mem_singleton, List.append_nil] at hx
      rcases hx with (hx | rfl) | hx
      · exact isStore_checked hx
      · rfl
      · simp only [List.mem_cons, List.not_mem_nil, or_false] at hx
        rcases hx with rfl | rfl | rfl | rfl | rfl | rfl | rfl | rfl <;> rfl

theorem Walk.silent (w : Walk opcode ctx p kinds e q) :
    ∀ x ∈ effectsAll (e.prelude ++ e.args), isStore x = false := by
  induction w with
  | nil => intro x hx; cases hx
  | cons step tail ih =>
      intro x hx
      have first := step.silent x
      have later := ih x
      simp only [Passed.append, effectsAll_append, List.mem_append] at hx first later
      rcases hx with (hx | hx) | hx | hx
      · exact first (.inl hx)
      · exact later (.inl hx)
      · exact first (.inr hx)
      · exact later (.inr hx)

theorem Walk.reconciled_eq (w : Walk opcode ctx p kinds e q) :
    e.reconciled = droppedSlots (dropsOperands opcode ctx) p.slot kinds := by
  induction w with
  | nil => rfl
  | @cons p q r kind rest e e' step tail ih =>
      have own : e.reconciled =
          if kind = .length then droppedBehind (dropsOperands opcode ctx) p.slot else [] := by
        cases step with
        | reference h => cases kind <;> simp_all [isReference]
        | outputPointer => rfl
        | scalar hw h => cases kind <;> simp_all [scalarChecker?]
        | offset hw h => cases kind <;> simp_all [ParamKind.isOffset]
        | length hw h => rfl
      rw [Passed.append, own, ih, step.slot_eq, droppedSlots]

/-- The arguments that stand for output pointers. -/
def pointerArgs (kinds : List ParamKind) (args : List Node) : List Node :=
  ((kinds.zip args).filter (·.1 = .opointer)).map (·.2)

theorem pointerArgs_cons {rest : List ParamKind} {arg : Node} {args : List Node} :
    pointerArgs (kind :: rest) (arg :: args) =
      (if kind = .opointer then [arg] else []) ++ pointerArgs rest args := by
  by_cases hk : kind = .opointer <;> simp [pointerArgs, hk]

theorem Walk.pointerArgs_eq (w : Walk opcode ctx p kinds e q) (extra : List Node) :
    pointerArgs kinds (e.args ++ extra) =
      (pointerSlots (dropsOperands opcode ctx) p.slot kinds).map (slotAddr ctx · 0) := by
  induction w with
  | nil => rfl
  | @cons p q r kind rest e e' step tail ih =>
      obtain ⟨arg, passed, above⟩ : ∃ arg, e.args = [arg] ∧
          (kind = .opointer → arg = slotAddr ctx (p.slot + 1) 0) := by
        cases step with
        | reference h => exact ⟨_, rfl, fun hk => by subst hk; cases h⟩
        | outputPointer => exact ⟨_, rfl, fun _ => rfl⟩
        | scalar hw h => exact ⟨_, rfl, fun hk => by subst hk; cases h⟩
        | offset hw h => exact ⟨_, rfl, fun hk => by subst hk; cases h⟩
        | length hw h => exact ⟨_, rfl, fun hk => by cases hk⟩
      rw [Passed.append, passed, List.append_assoc, List.singleton_append, pointerArgs_cons, ih,
        step.slot_eq, pointerSlots, List.map_append]
      by_cases hk : kind = .opointer
      · rw [if_pos hk, if_pos hk, above hk]
        rfl
      · rw [if_neg hk, if_neg hk]
        rfl

end Walk

/-! ## The law -/

/-- The location for a wide result among what the host is handed. -/
def handleArgs (d : Descriptor) (args : List Node) : List Node :=
  match d.result with
  | some kind => if kind.byValue then [] else (args[d.inputs.length]?).toList
  | none => []

/-- The locations for the host to fill, read off the arguments of its call. -/
def outputLocations (d : Descriptor) (args : List Node) : List Node :=
  pointerArgs d.inputs args ++ handleArgs d args

/-- The locations are apart, and nothing behind the host call stores into those of the output
pointers. -/
structure LocationsSurvive (d : Descriptor) (args behind : List Node) : Prop where
  apart : ((outputLocations d args).map (distance? {})).Nodup
  kept : ∀ location ∈ pointerArgs d.inputs args, ∀ x ∈ behind, overwrites {} location x = false

/-- Where output pointers may stand. -/
structure PointersInOrder (opcode : String) (d : Descriptor) : Prop where
  /-- There are no two in a row. -/
  single : ¬ [.opointer, .opointer] <:+: d.inputs
  /-- There is none at the end if there is an output. -/
  notLast : d.outputs ≠ [] → d.inputs.getLast? ≠ some .opointer
  /-- There is none between a length and another input if operands are dropped. -/
  notDropped : opcode ∈ ({} : Context).reconciled →
    ∀ kind, ¬ [.length, .opointer, kind] <:+: d.inputs

section Law

variable {opcode : String} {d : Descriptor} {mode : Mode} {q : Place} {e : Passed}

theorem Walk.handleArgs_eq (w : Walk opcode {} {} d.inputs e q) (mode : Mode) :
    handleArgs d (hostArgs {} d mode (e.plan q)) = handles {} (e.plan q).resultSlot d.result := by
  have behind (n : Node) (extra : List Node) :
      ((e.plan q).args ++ (n :: extra))[d.inputs.length]? = some n := by
    rw [← w.length_args]
    exact (List.getElem?_append_right (Nat.le_refl _)).trans (by rw [Nat.sub_self]; rfl)
  unfold handleArgs hostArgs
  cases d.result with
  | none => rfl
  | some kind =>
      cases kind with
      | i32 => rfl
      | i64 => rfl
      | i128 => exact congrArg Option.toList (behind _ _)
      | address => exact congrArg Option.toList (behind _ _)
      | i256 => exact congrArg Option.toList (behind _ _)

theorem isStore_remarks {inverted : Bool} {kind : Option ReturnKind} :
    ∀ x ∈ effectsAll (remarks inverted kind), isStore x = false := by
  unfold remarks
  split
  · cases inverted <;> simp [effects, isStore]
  · simp

/-- Nothing is stored to pass what the host is handed. -/
theorem Walk.silent_hostArgs (w : Walk opcode {} {} d.inputs e q) (mode : Mode) :
    ∀ x ∈ effectsAll (hostArgs {} d mode (e.plan q)), isStore x = false := by
  intro x hx
  simp only [hostArgs, effectsAll_append, List.mem_append] at hx
  rcases hx with hx | hx | hx
  · exact w.silent x (by simpa using .inr hx)
  · exact isStore_slotAddr (mem_effects_handles hx)
  · cases hc : (HostCall.ofPlan d mode (e.plan q) {}).callback with
    | none => simp [hc] at hx
    | some name =>
        rw [hc] at hx
        obtain rfl := List.mem_singleton.mp hx
        rfl

theorem storesInto_resultNodes {plan : OperandPlan} (opcode : String)
    (silent : ∀ x ∈ effects (hostCall {} d mode plan), isStore x = false) :
    StoresInto (effectsAll (resultNodes {} opcode d mode plan))
      (resultStores plan.resultSlot d.result ++
        plan.reconciledSlots.filter (· ≠ plan.resultSlot)) := by
  obtain ⟨slots, received, inResult⟩ := storesInto_received
    (({} : Context).statusInverted.contains opcode) plan.resultSlot silent d.result
  rw [resultNodes, effectsAll_append, effectsAll_cons, effectsAll_append]
  have completion := storesInto_completion plan.resultSlot d.result
  refine ((storesInto_nil isStore_remarks).append
    (received.append (completion.append storesInto_clearing))).congr fun s => ?_
  simp only [List.nil_append, List.mem_append]
  exact or_iff_right_of_imp fun h => .inl (inResult s h)

/-- Behind the host call code is stored into the result slot, and into the other slots of dropped
operands. -/
theorem Walk.storesInto_behind (w : Walk opcode {} {} d.inputs e q) (mode : Mode) :
    ∃ front behind,
      effectsAll (.seq (e.plan q).prelude :: resultNodes {} opcode d mode (e.plan q)) =
        front ++ .call ("$" ++ d.name) (hostArgs {} d mode (e.plan q)) :: behind ∧
      StoresInto behind (resultStores (e.plan q).resultSlot d.result ++
        (e.plan q).reconciledSlots.filter (· ≠ (e.plan q).resultSlot)) := by
  obtain ⟨lead, behind, split, idle⟩ := effects_around_call {} opcode d mode (e.plan q)
  refine ⟨_, behind, split, ?_⟩
  have prelude : ∀ x ∈ effectsAll (e.plan q).prelude, isStore x = false :=
    fun x hx => w.silent x (by simpa using .inl hx)
  have call : ∀ x ∈ effects (hostCall {} d mode (e.plan q)), isStore x = false := by
    intro x hx
    rcases List.mem_append.mp hx with hx | hx
    · exact w.silent_hostArgs mode x hx
    · obtain rfl := List.mem_singleton.mp hx
      rfl
  have front : ∀ x ∈ (effectsAll (e.plan q).prelude ++
      (lead ++ effectsAll (hostArgs {} d mode (e.plan q)))) ++
        [.call ("$" ++ d.name) (hostArgs {} d mode (e.plan q))], isStore x = false := by
    intro x hx
    simp only [List.mem_append, List.mem_singleton] at hx
    rcases hx with (hx | hx | hx) | rfl
    · exact prelude x hx
    · rcases idle x hx with ⟨text, rfl⟩ | address
      · rfl
      · exact isStore_slotAddr address
    · exact w.silent_hostArgs mode x hx
    · rfl
  have whole : StoresInto (effectsAll (.seq (e.plan q).prelude ::
      resultNodes {} opcode d mode (e.plan q))) _ :=
    (storesInto_nil prelude).append (storesInto_resultNodes opcode call)
  rw [split, List.append_cons] at whole
  exact whole.of_append front

/-- The slots handed to the host for a result that it writes itself. -/
def handleSlots (slot : Int) : Option ReturnKind → List Int
  | some .i128 | some .address | some .i256 => [slot]
  | _ => []

theorem handles_eq_map (slot : Int) (kind : Option ReturnKind) :
    handles {} slot kind = (handleSlots slot kind).map (slotAddr {} · 0) := by
  cases kind with
  | none => rfl
  | some kind => cases kind <;> rfl

/-- The result slot is handed to the host or stored into if there is a result. -/
theorem mem_result_slots {slot s : Int} {kind : Option ReturnKind} :
    s ∈ handleSlots slot kind ∨ s ∈ resultStores slot kind ↔ kind ≠ none ∧ s = slot := by
  cases kind with
  | none => simp [handleSlots, resultStores]
  | some kind => cases kind <;> simp [handleSlots, resultStores]

theorem distance?_injective :
    Function.Injective fun slot : Int => distance? {} (slotAddr {} slot 0) := by
  intro s t same
  simp only [distance?_slotAddr, Context.slotByteOffset, Option.some.injEq] at same
  omega

/-- What the host is handed and what is stored behind its call, by slots. -/
theorem Walk.locationsSurvive_iff_slots (w : Walk opcode {} {} d.inputs e q) {behind : List Node}
    {slots : List Int} (stores : StoresInto behind slots) :
    LocationsSurvive d (hostArgs {} d mode (e.plan q)) behind ↔
      (pointerSlots (dropsOperands opcode {}) 0 d.inputs ++
          handleSlots (q.slot + 1) d.result).Nodup ∧
        ∀ s ∈ pointerSlots (dropsOperands opcode {}) 0 d.inputs, s ∉ slots := by
  have pointers : pointerArgs d.inputs (hostArgs {} d mode (e.plan q)) =
      (pointerSlots (dropsOperands opcode {}) 0 d.inputs).map (slotAddr {} · 0) :=
    w.pointerArgs_eq _
  have locations : outputLocations d (hostArgs {} d mode (e.plan q)) =
      (pointerSlots (dropsOperands opcode {}) 0 d.inputs ++
        handleSlots (q.slot + 1) d.result).map (slotAddr {} · 0) := by
    rw [outputLocations, pointers, w.handleArgs_eq, handles_eq_map, List.map_append]
    rfl
  have apart : ((outputLocations d (hostArgs {} d mode (e.plan q))).map (distance? {})).Nodup ↔
      (pointerSlots (dropsOperands opcode {}) 0 d.inputs ++
        handleSlots (q.slot + 1) d.result).Nodup := by
    rw [locations, List.map_map]
    exact List.nodup_map_iff distance?_injective
  have kept : (∀ location ∈ pointerArgs d.inputs (hostArgs {} d mode (e.plan q)), ∀ x ∈ behind,
      overwrites {} location x = false) ↔
        ∀ s ∈ pointerSlots (dropsOperands opcode {}) 0 d.inputs, s ∉ slots := by
    rw [pointers, List.forall_mem_map]
    refine forall₂_congr fun s _ => ?_
    rw [← stores s]
    simp
  constructor
  · rintro ⟨h₁, h₂⟩
    exact ⟨apart.mp h₁, kept.mp h₂⟩
  · rintro ⟨h₁, h₂⟩
    exact ⟨apart.mpr h₁, kept.mpr h₂⟩

theorem droppedSlots_false (slot : Int) (kinds : List ParamKind) :
    droppedSlots false slot kinds = [] := by
  induction kinds generalizing slot with
  | nil => rfl
  | cons kind rest ih => simp [droppedSlots, droppedBehind, ih]

/-- The slot of an output pointer is that of a dropped operand, other than the result slot, if
operands are dropped and the pointer stands between a length and another input. -/
theorem pointer_dropped_of_single {dropping : Bool} {kinds : List ParamKind}
    (single : ¬ [.opointer, .opointer] <:+: kinds) {result : Int}
    (hresult : result = 0 - stackDepth dropping kinds + 1) :
    (∃ s ∈ pointerSlots dropping 0 kinds, s ∈ droppedSlots dropping 0 kinds ∧ s ≠ result) ↔
      dropping = true ∧ ∃ kind, [.length, .opointer, kind] <:+: kinds := by
  cases dropping with
  | false => simp [droppedSlots_false]
  | true =>
      subst hresult
      rw [pointer_dropped_iff single]
      simp

/-- **The locations survive exactly if the output pointers are in order.** -/
theorem Walk.locationsSurvive_iff (w : Walk opcode {} {} d.inputs e q) {behind : List Node}
    (stores : StoresInto behind (resultStores (e.plan q).resultSlot d.result ++
      (e.plan q).reconciledSlots.filter (· ≠ (e.plan q).resultSlot))) :
    LocationsSurvive d (hostArgs {} d mode (e.plan q)) behind ↔ PointersInOrder opcode d := by
  have result : (e.plan q).resultSlot =
      0 - stackDepth (dropsOperands opcode {}) d.inputs + 1 := congrArg (· + 1) w.slot_eq
  have last : (e.plan q).resultSlot ∈ pointerSlots (dropsOperands opcode {}) 0 d.inputs ↔
      d.inputs.getLast? = some .opointer := by
    rw [result, result_mem_pointerSlots]
  have output : d.outputs ≠ [] ↔ d.result ≠ none := by
    rw [Descriptor.result, ne_eq, ne_eq, List.head?_eq_none_iff]
  have dropped : (e.plan q).reconciledSlots = droppedSlots (dropsOperands opcode {}) 0 d.inputs :=
    w.reconciled_eq
  have dropping : dropsOperands opcode {} = true ↔ opcode ∈ ({} : Context).reconciled :=
    List.contains_iff_mem
  rw [w.locationsSurvive_iff_slots stores, dropped, List.nodup_append]
  constructor
  · rintro ⟨⟨single, -, apart⟩, kept⟩
    have single := nodup_pointerSlots_iff.mp single
    refine ⟨single, fun some ends => ?_, fun drops kind between => ?_⟩
    · have passed := last.mpr ends
      rcases mem_result_slots.mpr ⟨output.mp some, rfl⟩ with handle | stored
      · exact apart _ passed _ handle rfl
      · exact kept _ passed (List.mem_append_left _ stored)
    · obtain ⟨s, passed, isDropped, ne⟩ :=
        (pointer_dropped_of_single single result).mpr ⟨dropping.mpr drops, kind, between⟩
      exact kept s passed (List.mem_append_right _
        (List.mem_filter.mpr ⟨isDropped, decide_eq_true ne⟩))
  · rintro ⟨single, notLast, notDropped⟩
    have notResult : ∀ s ∈ pointerSlots (dropsOperands opcode {}) 0 d.inputs,
        ¬ (d.result ≠ none ∧ s = (e.plan q).resultSlot) := by
      rintro s passed ⟨some, rfl⟩
      exact notLast (output.mpr some) (last.mp passed)
    refine ⟨⟨nodup_pointerSlots_iff.mpr single, ?_, ?_⟩, ?_⟩
    · unfold handleSlots
      split <;> simp
    · rintro s passed _ handle rfl
      exact notResult s passed (mem_result_slots.mp (.inl handle))
    · intro s passed stored
      rcases List.mem_append.mp stored with stored | isDropped
      · exact notResult s passed (mem_result_slots.mp (.inr stored))
      · obtain ⟨isDropped, ne⟩ := List.mem_filter.mp isDropped
        obtain ⟨drops, kind, between⟩ := (pointer_dropped_of_single single result).mp
          ⟨s, passed, isDropped, of_decide_eq_true ne⟩
        exact notDropped (dropping.mp drops) kind between

end Law

/-- **The locations that the host is asked to fill are apart and survive what is stored behind its
call, exactly if the output pointers are in order.** -/
theorem locations_survive_iff {source key : String} {raw : Json.Value} {d : Descriptor}
    (h : Descriptor.ofJson source key raw = .ok d) (opcode : String) (mode : Mode) :
    ∃ plan params nodes front behind,
      planOperands opcode d {} = .ok plan ∧
      marshalResult opcode d mode plan {} = .ok nodes ∧
      buildFunction opcode d mode {} =
        .ok (.func ("$" ++ opcode) params plan.locals (.seq plan.prelude :: nodes)) ∧
      effectsAll (.seq plan.prelude :: nodes) =
        front ++ .call ("$" ++ d.name) (hostArgs {} d mode plan) :: behind ∧
      (LocationsSurvive d (hostArgs {} d mode plan) behind ↔ PointersInOrder opcode d) := by
  have width : ({} : Context).wordBytes ≠ 0 := by decide
  obtain ⟨-, e, q, w, planned⟩ := exists_plan h width opcode
  obtain ⟨front, behind, split, stores⟩ := w.storesInto_behind mode
  exact ⟨e.plan q, _, _, front, behind, planned, marshalResult_eq width opcode d mode _,
    buildFunction_eq width planned, split, w.locationsSurvive_iff stores⟩

/-- A call that reports through a location, beside its status. -/
def reportingCall : Descriptor where
  name := "call"
  inputs := [.opointer, .readOffset, .length]
  outputs := [.i32]

theorem reportingCall_survives :
    Descriptor.ofJson "m" "CALL" (.obj [("name", .str "call"),
        ("input", .arr [.str "opointer", .str "readOffset", .str "length"]),
        ("output", .arr [.str "i32"])]) = .ok reportingCall ∧
      ∃ plan nodes front behind,
        planOperands "CALL" reportingCall {} = .ok plan ∧
        marshalResult "CALL" reportingCall .sync plan {} = .ok nodes ∧
        effectsAll (.seq plan.prelude :: nodes) =
          front ++ .call "$call" (hostArgs {} reportingCall .sync plan) :: behind ∧
        LocationsSurvive reportingCall (hostArgs {} reportingCall .sync plan) behind := by
  have read : Descriptor.ofJson "m" "CALL" (.obj [("name", .str "call"),
      ("input", .arr [.str "opointer", .str "readOffset", .str "length"]),
      ("output", .arr [.str "i32"])]) = .ok reportingCall := rfl
  have inOrder : PointersInOrder "CALL" reportingCall := by
    refine ⟨by decide, by decide, fun _ kind => ?_⟩
    cases kind <;> decide
  obtain ⟨plan, params, nodes, front, behind, planned, marshalled, -, split, survive⟩ :=
    locations_survive_iff read "CALL" .sync
  exact ⟨read, plan, nodes, front, behind, planned, marshalled, split, survive.mpr inOrder⟩

/-- Two output pointers and a wide result. -/
def twinPointers : Descriptor where
  name := "twin"
  inputs := [.opointer, .opointer]
  outputs := [.i128]

/-- Both pointers and the result share one slot, and the upper half of it is cleared. -/
theorem twinPointers_overwritten :
    Descriptor.ofJson "m" "TWIN" (.obj [("name", .str "twin"),
        ("input", .arr [.str "opointer", .str "opointer"]),
        ("output", .arr [.str "i128"])]) = .ok twinPointers ∧
      ∃ plan nodes front behind,
        planOperands "TWIN" twinPointers {} = .ok plan ∧
        marshalResult "TWIN" twinPointers .sync plan {} = .ok nodes ∧
        effectsAll (.seq plan.prelude :: nodes) =
          front ++ .call "$twin" (hostArgs {} twinPointers .sync plan) :: behind ∧
        (outputLocations twinPointers (hostArgs {} twinPointers .sync plan)).map (distance? {}) =
          [some 32, some 32, some 32] ∧
        ∃ x ∈ behind, overwrites {} (slotAddr {} 1 0) x = true := by
  let plan : OperandPlan := { args := [slotAddr {} 1 0, slotAddr {} 1 0], offset := 0 }
  refine ⟨rfl, plan, _, effectsAll (hostArgs {} twinPointers .sync plan),
    effectsAll (padding {} 1 2), rfl, rfl, rfl, by decide, ?_⟩
  exact ((storesInto_padding (by decide) (by decide)) 1).mpr (List.mem_singleton_self 1)

end HostGlue.Marshal

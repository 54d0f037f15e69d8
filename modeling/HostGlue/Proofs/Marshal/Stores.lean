import HostGlue.Proofs.Marshal.Completion

/-!
# Stores into slots

Where a slot lies in the memory, and what the code that clears words leaves there. A slot that lies
in the memory without wrapping round the address space is one run of bytes (`SlotInside`); two of
them share no byte. Clearing neighbouring words is one write of zeros. Whatever the addresses, a run
that clears a slot and ends well has put a zero at every byte of it.
-/

namespace HostGlue.Marshal

open Machine Wat Interface

/-! ## Where a slot lies -/

section Slots

variable (Γ : Instance) (ctx : Context)

/-- The slot lies in the memory, and its addresses do not wrap round. -/
def SlotInside (m : Memory) (slot : Int) : Prop :=
  0 ≤ (Γ.globals ctx.stackPointer).toNat + slot * ctx.slotBytes ∧
    (Γ.globals ctx.stackPointer).toNat + slot * ctx.slotBytes + ctx.slotBytes ≤ m.size

def slotBase (slot : Int) : Nat :=
  ((Γ.globals ctx.stackPointer).toNat + slot * ctx.slotBytes).toNat

/-- The byte belongs to the slot. -/
def InSlot (slot : Int) (p : Nat) : Prop :=
  slotBase Γ ctx slot ≤ p ∧ p < slotBase Γ ctx slot + ctx.slotBytes.toNat

/-- Every byte of the slot is zero. -/
def Cleared (m : Memory) (slot : Int) : Prop :=
  ∀ b : Nat, b < ctx.slotBytes → m.byte (addressOf Γ ctx slot b).toNat = 0

variable {Γ ctx} {m : Memory} {slot other : Int}

theorem slotBase_le (inside : SlotInside Γ ctx m slot) :
    slotBase Γ ctx slot + ctx.slotBytes ≤ m.size := by
  obtain ⟨low, high⟩ := inside
  simp only [slotBase]
  omega

/-- The bytes from the base of a slot on, up to the end of the address space. -/
theorem addressOf_eq (low : 0 ≤ (Γ.globals ctx.stackPointer).toNat + slot * ctx.slotBytes) {b : Nat}
    (high : slotBase Γ ctx slot + b < 2 ^ 32) :
    (addressOf Γ ctx slot b).toNat = slotBase Γ ctx slot + b := by
  have pointer : BitVec.ofInt 32 ((Γ.globals ctx.stackPointer).toNat : Int) =
      Γ.globals ctx.stackPointer := by
    rw [BitVec.ofInt_natCast, BitVec.ofNat_toNat, BitVec.setWidth_eq]
  have sum : addressOf Γ ctx slot b =
      BitVec.ofInt 32 ((Γ.globals ctx.stackPointer).toNat + slot * ctx.slotBytes + b) := by
    rw [add_assoc, BitVec.ofInt_add _ (slot * ctx.slotBytes + b), pointer, addressOf]
  generalize hs : ((Γ.globals ctx.stackPointer).toNat : Int) + slot * ctx.slotBytes = s at *
  have base : slotBase Γ ctx slot = s.toNat := by rw [slotBase, hs]
  rw [base] at high
  rw [sum, base, BitVec.toNat_ofInt, Int.emod_eq_of_lt (by omega) (by omega)]
  omega

theorem addressOf_toNat (inside : SlotInside Γ ctx m slot) {b : Nat} (hb : b < ctx.slotBytes) :
    (addressOf Γ ctx slot b).toNat = slotBase Γ ctx slot + b := by
  have fits := m.size_le
  have top := slotBase_le inside
  exact addressOf_eq inside.1 (by omega)

/-- A slot in the memory is cleared if its run of bytes is zero, and only then. -/
theorem cleared_iff (inside : SlotInside Γ ctx m slot) (m' : Memory) :
    Cleared Γ ctx m' slot ↔ ∀ p, InSlot Γ ctx slot p → m'.byte p = 0 := by
  constructor
  · intro h p hp
    obtain ⟨low, high⟩ := hp
    have byte := h (p - slotBase Γ ctx slot) (by omega)
    rwa [addressOf_toNat inside (by omega), Nat.add_sub_cancel' low] at byte
  · intro h b hb
    rw [addressOf_toNat inside hb]
    exact h _ ⟨by omega, by omega⟩

/-- Different slots share no byte. -/
theorem InSlot.disjoint (inside : SlotInside Γ ctx m slot) (inside' : SlotInside Γ ctx m other)
    (ne : slot ≠ other) {p : Nat} (h : InSlot Γ ctx slot p) : ¬ InSlot Γ ctx other p := by
  intro h'
  simp only [InSlot, slotBase] at h h'
  have low := inside.1
  have low' := inside'.1
  have wide : 0 ≤ ctx.slotBytes := by omega
  -- different slots start a slot's width apart
  rcases lt_or_gt_of_ne ne with lt | gt
  · have apart : (slot + 1) * ctx.slotBytes ≤ other * ctx.slotBytes :=
      Int.mul_le_mul_of_nonneg_right lt wide
    rw [add_mul, one_mul] at apart
    omega
  · have apart : (other + 1) * ctx.slotBytes ≤ slot * ctx.slotBytes :=
      Int.mul_le_mul_of_nonneg_right gt wide
    rw [add_mul, one_mul] at apart
    omega

end Slots

/-! ## One store -/

section Stores

variable {Γ : Instance} {ctx : Context} {slot : Int} {σ τ : State}

theorem eval_store {valtype : String} {t : ValType} {n : Node} {v : Value} {byte : Int}
    (ht : ValType.ofName? valtype = some t) (hn : eval Γ n σ = .ok [v] τ) (hv : v.type = t) :
    eval Γ (.store valtype (slotAddr ctx slot byte) n) σ =
      match τ.memory.store? (addressOf Γ ctx slot byte).toNat t.width v.toNat with
      | some m => .ok [] { τ with memory := m }
      | none => .error .trap τ := by
  rw [eval, bind_ok (eval_slotAddr Γ ctx slot byte σ), bind_ok hn, ht]
  show storeTo t [.i32 (addressOf Γ ctx slot byte), v] τ = _
  unfold storeTo
  dsimp only
  refine (if_pos hv).trans ?_
  cases τ.memory.store? (addressOf Γ ctx slot byte).toNat t.width v.toNat <;> rfl

/-- A store that stays in the memory. -/
theorem eval_store_ok {valtype : String} {t : ValType} {n : Node} {v : Value} {byte : Int}
    (ht : ValType.ofName? valtype = some t) (hn : eval Γ n σ = .ok [v] τ) (hv : v.type = t)
    {a : Nat} (ha : (addressOf Γ ctx slot byte).toNat = a) (fits : a + t.width ≤ τ.memory.size) :
    eval Γ (.store valtype (slotAddr ctx slot byte) n) σ =
      .ok [] { τ with memory := τ.memory.write a t.width v.toNat } := by
  rw [eval_store ht hn hv, ha, Memory.store?, if_pos fits]

theorem eval_zeroWord (byte : Int) :
    eval Γ (.store "i64" (slotAddr ctx slot byte) (.const "i64" 0)) σ =
      match σ.memory.store? (addressOf Γ ctx slot byte).toNat 8 0 with
      | some m => .ok [] { σ with memory := m }
      | none => .error .trap σ :=
  eval_store (v := .i64 0) rfl rfl rfl

theorem eval_zeroWord_ok {byte : Int} {a : Nat} (ha : (addressOf Γ ctx slot byte).toNat = a)
    (fits : a + 8 ≤ σ.memory.size) :
    eval Γ (.store "i64" (slotAddr ctx slot byte) (.const "i64" 0)) σ =
      .ok [] { σ with memory := σ.memory.write a 8 0 } := by
  rw [eval_zeroWord, ha, Memory.store?, if_pos fits]

/-! ## Erasures -/

/-- The node is a comment or puts zeros into a word of some slot. -/
inductive Erasure (ctx : Context) : Node → Prop where
  | note (text : String) : Erasure ctx (.note text)
  | zeroWord (slot byte : Int) :
      Erasure ctx (.store "i64" (slotAddr ctx slot byte) (.const "i64" 0))

theorem erasure_clearing (slots : List Int) : ∀ n ∈ clearing ctx slots, Erasure ctx n := by
  intro n h
  obtain ⟨slot, -, h⟩ := List.mem_flatMap.mp h
  rcases List.mem_cons.mp h with rfl | h
  · exact .note _
  · obtain ⟨w, -, rfl⟩ := List.mem_map.mp h
    exact .zeroWord slot _

theorem eval_zeroWord_eq_ok {byte : Int} {vs : List Value}
    (h : eval Γ (.store "i64" (slotAddr ctx slot byte) (.const "i64" 0)) σ = .ok vs τ) :
    (addressOf Γ ctx slot byte).toNat + 8 ≤ σ.memory.size ∧
      τ.memory = σ.memory.write (addressOf Γ ctx slot byte).toNat 8 0 := by
  rw [eval_zeroWord, Memory.store?] at h
  by_cases fits : (addressOf Γ ctx slot byte).toNat + 8 ≤ σ.memory.size
  · rw [if_pos fits] at h
    cases h
    exact ⟨fits, rfl⟩
  · rw [if_neg fits] at h
    cases h

theorem eval_erasure {n : Node} {vs : List Value} (erasure : Erasure ctx n)
    (h : eval Γ n σ = .ok vs τ) :
    τ.memory.size = σ.memory.size ∧ ∀ p, σ.memory.byte p = 0 → τ.memory.byte p = 0 := by
  cases erasure with
  | note text =>
      cases h
      exact ⟨rfl, fun p hp => hp⟩
  | zeroWord slot byte =>
      rw [(eval_zeroWord_eq_ok h).2]
      exact ⟨rfl, fun p hp => Memory.write_zero_byte_eq_zero hp⟩

/-- Erasures that end well keep every zero and leave zeros in the words that they name. -/
theorem evalAll_erasures {ns : List Node} {vs : List Value} (erasures : ∀ n ∈ ns, Erasure ctx n)
    (h : evalAll Γ ns σ = .ok vs τ) :
    (∀ p, σ.memory.byte p = 0 → τ.memory.byte p = 0) ∧
      ∀ slot byte, .store "i64" (slotAddr ctx slot byte) (.const "i64" 0) ∈ ns →
        (addressOf Γ ctx slot byte).toNat + 8 ≤ σ.memory.size ∧
        ∀ i < 8, τ.memory.byte ((addressOf Γ ctx slot byte).toNat + i) = 0 := by
  induction ns generalizing σ vs with
  | nil =>
      cases h
      exact ⟨fun p hp => hp, fun _ _ h => absurd h List.not_mem_nil⟩
  | cons n ns ih =>
      obtain ⟨us, υ, ws, first, rest, -⟩ := evalAll_cons_eq_ok h
      obtain ⟨size, zeros⟩ := eval_erasure (erasures n List.mem_cons_self) first
      obtain ⟨keep, words⟩ := ih (fun k hk => erasures k (List.mem_cons_of_mem _ hk)) rest
      refine ⟨fun p hp => keep p (zeros p hp), fun slot byte h => ?_⟩
      rcases List.mem_cons.mp h with rfl | h
      · obtain ⟨fits, written⟩ := eval_zeroWord_eq_ok first
        refine ⟨fits, fun i hi => keep _ ?_⟩
        rw [written]
        exact Memory.write_zero_byte_of_mem (by omega)
      · rw [← size]
        exact words slot byte h

/-- Wherever the slots lie, code that clears them and ends well has cleared them. -/
theorem cleared_of_clearing {k : Nat} {slots : List Int} {vs : List Value}
    (hw : ctx.wordBytes = 8) (geometry : ctx.slotBytes = 8 * (k : Int))
    (h : evalAll Γ (clearing ctx slots) σ = .ok vs τ) :
    ∀ slot ∈ slots, Cleared Γ ctx τ.memory slot := by
  intro slot known b hb
  obtain ⟨-, words⟩ := evalAll_erasures (erasure_clearing slots) h
  have word : .store "i64" (slotAddr ctx slot (((b / 8 : Nat) : Int) * ctx.wordBytes))
      (.const "i64" 0) ∈ clearing ctx slots := by
    refine List.mem_flatMap.mpr ⟨slot, known, List.mem_cons_of_mem _ (List.mem_map.mpr
      ⟨((b / 8 : Nat) : Int), mem_span.mpr ⟨by omega, ?_⟩, rfl⟩)⟩
    rw [hw, geometry, Int.fdiv_eq_ediv_of_nonneg _ (by omega)]
    omega
  obtain ⟨fits, zeros⟩ := words slot _ word
  -- a word does not wrap round, so the byte is the one of that number in it
  have within : addressOf Γ ctx slot b =
      addressOf Γ ctx slot (((b / 8 : Nat) : Int) * ctx.wordBytes) + BitVec.ofNat 32 (b % 8) := by
    have split : slot * ctx.slotBytes + (b : Int) =
        slot * ctx.slotBytes + ((b / 8 : Nat) : Int) * ctx.wordBytes + ((b % 8 : Nat) : Int) := by
      rw [hw]
      omega
    rw [addressOf, split, BitVec.ofInt_add, BitVec.ofInt_natCast, ← BitVec.add_assoc, addressOf]
  have small := σ.memory.size_le
  have offset : (BitVec.ofNat 32 (b % 8)).toNat = b % 8 := by
    rw [BitVec.toNat_ofNat]
    omega
  rw [within, BitVec.toNat_add_of_lt (by omega), offset]
  exact zeros _ (Nat.mod_lt b (by decide))

/-! ## Runs of zeros -/

theorem zeroWords_span (hw : ctx.wordBytes = 8) (start stop : Nat) :
    zeroWords ctx slot (span start stop) = (List.range (stop - start)).map fun (w : Nat) =>
      .store "i64" (slotAddr ctx slot ((8 * (start + w) : Nat) : Int)) (.const "i64" 0) := by
  have count : ((stop : Int) - start).toNat = stop - start := by omega
  simp only [zeroWords, span, count, List.map_map, Function.comp_def, hw]
  refine List.map_congr_left fun w _ => ?_
  rw [show ((start : Int) + (w : Int)) * 8 = ((8 * (start + w) : Nat) : Int) by push_cast; ring]

/-- Clearing the words from `start` on is one write of zeros. -/
theorem evalAll_zeroWords (hw : ctx.wordBytes = 8) (inside : SlotInside Γ ctx σ.memory slot)
    (start stop : Nat) (fits : 8 * (stop : Int) ≤ ctx.slotBytes) :
    evalAll Γ (zeroWords ctx slot (span start stop)) σ = .ok [] { σ with
      memory := σ.memory.write (slotBase Γ ctx slot + 8 * start) (8 * (stop - start)) 0 } := by
  rw [zeroWords_span hw]
  have bound : stop - start = 0 ∨ 8 * ((start + (stop - start) : Nat) : Int) ≤ ctx.slotBytes := by
    omega
  generalize stop - start = n at bound
  clear fits
  -- the words are cleared upwards, so the last one joins the run below it
  induction n with
  | zero => rw [Nat.mul_zero, Memory.write_empty]; rfl
  | succ n ih =>
      replace bound := bound.resolve_left (Nat.succ_ne_zero n)
      have top := slotBase_le inside
      have before := ih (.inr (by omega))
      have address := addressOf_toNat inside
        (show ((8 * (start + n) : Nat) : Int) < ctx.slotBytes by omega)
      have joined := Memory.write_zero_append σ.memory (slotBase Γ ctx slot + 8 * start) (8 * n) 8
      rw [show slotBase Γ ctx slot + 8 * start + 8 * n = slotBase Γ ctx slot + 8 * (start + n)
        by omega, show 8 * n + 8 = 8 * (n + 1) by omega] at joined
      have last : eval Γ (.store "i64" (slotAddr ctx slot ((8 * (start + n) : Nat) : Int))
          (.const "i64" 0)) { σ with
            memory := σ.memory.write (slotBase Γ ctx slot + 8 * start) (8 * n) 0 } =
          .ok [] { σ with
            memory := σ.memory.write (slotBase Γ ctx slot + 8 * start) (8 * (n + 1)) 0 } := by
        have reach : slotBase Γ ctx slot + 8 * (start + n) + 8 ≤ σ.memory.size := by omega
        rw [← joined]
        exact eval_zeroWord_ok address reach
      rw [List.range_succ, List.map_append]
      exact evalAll_append_ok before (evalAll_cons_ok last evalAll_nil)

theorem wordCount {k : Nat} (hw : ctx.wordBytes = 8) (geometry : ctx.slotBytes = 8 * (k : Int)) :
    ctx.slotBytes.fdiv ctx.wordBytes = k := by
  rw [hw, geometry, Int.fdiv_eq_ediv_of_nonneg _ (by omega)]
  omega

theorem evalAll_padding {k : Nat} (start : Nat) (hw : ctx.wordBytes = 8)
    (geometry : ctx.slotBytes = 8 * (k : Int)) (inside : SlotInside Γ ctx σ.memory slot) :
    evalAll Γ (padding ctx slot start) σ = .ok [] { σ with
      memory := σ.memory.write (slotBase Γ ctx slot + 8 * start) (8 * (k - start)) 0 } := by
  rw [padding, wordCount hw geometry, evalAll_note_cons]
  exact evalAll_zeroWords hw inside start k (by omega)

/-- Clearing slots of the memory ends well, puts zeros into them and changes no other byte. -/
theorem evalAll_clearing {k : Nat} (hw : ctx.wordBytes = 8)
    (geometry : ctx.slotBytes = 8 * (k : Int)) {slots : List Int}
    (inside : ∀ slot ∈ slots, SlotInside Γ ctx σ.memory slot) :
    ∃ m, evalAll Γ (clearing ctx slots) σ = .ok [] { σ with memory := m } ∧
      m.size = σ.memory.size ∧
      (∀ slot ∈ slots, ∀ p, InSlot Γ ctx slot p → m.byte p = 0) ∧
      ∀ p, (∀ slot ∈ slots, ¬ InSlot Γ ctx slot p) → m.byte p = σ.memory.byte p := by
  induction slots generalizing σ with
  | nil => exact ⟨σ.memory, rfl, rfl, by simp, fun _ _ => rfl⟩
  | cons slot slots ih =>
      have here := inside slot List.mem_cons_self
      have first := evalAll_zeroWords hw here 0 k (by omega)
      rw [Nat.mul_zero, Nat.add_zero, Nat.sub_zero] at first
      obtain ⟨m, run, size, zeros, frame⟩ := ih (σ := { σ with
        memory := σ.memory.write (slotBase Γ ctx slot) (8 * k) 0 })
        fun other h => inside other (List.mem_cons_of_mem _ h)
      have covers (p : Nat) : InSlot Γ ctx slot p ↔
          slotBase Γ ctx slot ≤ p ∧ p < slotBase Γ ctx slot + 8 * k := by
        rw [InSlot, geometry]
        omega
      refine ⟨m, ?_, size, ?_, fun p outside => ?_⟩
      · rw [clearing, List.flatMap_cons, ← clearing, wordCount hw geometry, List.cons_append,
          evalAll_note_cons]
        exact evalAll_append_ok first run
      · intro other h p hp
        -- the slots behind may list this one again
        by_cases later : ∃ s ∈ slots, InSlot Γ ctx s p
        · obtain ⟨s, hs, hp⟩ := later
          exact zeros s hs p hp
        · have now : other = slot := by
            rcases List.mem_cons.mp h with h | h
            · exact h
            · exact absurd ⟨other, h, hp⟩ later
          subst now
          rw [frame p fun s hs hp => later ⟨s, hs, hp⟩]
          exact Memory.write_zero_byte_of_mem ((covers p).mp hp)
      · rw [frame p fun s hs => outside s (List.mem_cons_of_mem _ hs)]
        refine Memory.write_byte_of_not_mem fun hp => ?_
        exact outside slot List.mem_cons_self ((covers p).mpr hp)

end Stores

end HostGlue.Marshal

import HostGlue.Proofs.Interface.Format

/-!
# Entries of an accepted manifest

What the code generator may rely on: the names are names, the inputs keep the pairing rule and
there is at most one output.

A name may still end in a line feed. `char_of_isOpcodeName` and `char_of_isHostName` say what its
characters are if it does not.
-/

namespace HostGlue.Interface

open Json

/-! ## Names -/

section Names

variable {allowed : Char → Bool} {s : List Char} {c : Char}

theorem char_of_isNameTail (h : isNameTail allowed s = true) (plain : '\n' ∉ s) (hc : c ∈ s) :
    allowed c = true := by
  induction s with
  | nil => cases hc
  | cons d rest ih =>
      have notEnd : d :: rest ≠ ['\n'] := by
        intro same
        rw [same] at plain
        exact plain (List.mem_singleton.mpr rfl)
      have both : allowed d = true ∧ isNameTail allowed rest = true := by
        rw [isNameTail, Bool.and_eq_true] at h
        · exact h
        · rintro rfl rfl
          exact notEnd rfl
      rcases List.mem_cons.mp hc with rfl | hc
      · exact both.1
      · exact ih both.2 (fun mem => plain (List.mem_cons_of_mem _ mem)) hc

theorem char_of_isName (h : isName allowed s = true) (plain : '\n' ∉ s) (hc : c ∈ s) :
    isNameStart c = true ∨ allowed c = true := by
  cases s with
  | nil => cases hc
  | cons d rest =>
      rw [isName, Bool.and_eq_true] at h
      rcases List.mem_cons.mp hc with rfl | hc
      · exact .inl h.1
      · exact .inr (char_of_isNameTail h.2 (fun mem => plain (List.mem_cons_of_mem _ mem)) hc)

/-- The characters that names are made of, dots included. -/
def isNameChar (c : Char) : Bool := isNameStart c || c.isDigit || c = '.'

theorem char_of_isOpcodeName {name : String} (h : isOpcodeName name = true)
    (plain : '\n' ∉ name.toList) : ∀ c ∈ name.toList, isNameChar c = true := by
  intro c hc
  rcases char_of_isName h plain hc with start | other
  · simp [isNameChar, start]
  · simp only [Bool.or_eq_true] at other
    rcases other with start | digit
    · simp [isNameChar, start]
    · simp [isNameChar, digit]

theorem char_of_isHostName {name : String} (h : isHostName name = true)
    (plain : '\n' ∉ name.toList) : ∀ c ∈ name.toList, isNameChar c = true := by
  intro c hc
  rcases char_of_isName h plain hc with start | other
  · simp [isNameChar, start]
  · exact other

end Names

/-! ## Entries -/

/-- What the reader of manifests makes sure of. -/
structure Accepted (opcode : String) (d : Descriptor) : Prop where
  opcode : isOpcodeName opcode = true
  host : isHostName d.name = true
  pairing : checkPairing d.inputs = .ok ()
  single : d.outputs.length ≤ 1

section Accepted

variable {source opcode : String} {d : Descriptor}

theorem descriptor_accepted {raw : Value} (name : isOpcodeName opcode = true)
    (h : Descriptor.ofJson source opcode raw = .ok d) : Accepted opcode d := by
  obtain ⟨members, -, entry⟩ := descriptor_ofJson_eq_ok_iff.mp h
  exact ⟨name, isHostName_iff.mpr entry.hostName, checkPairing_eq_ok_iff.mpr entry.pairing,
    entry.single⟩

theorem opcodes_accepted {members : Members} {entries : List (String × Descriptor)}
    (h : readOpcodes source members = .ok entries) (mem : (opcode, d) ∈ entries) :
    Accepted opcode d := by
  induction members generalizing entries with
  | nil =>
      cases h
      cases mem
  | cons entry rest ih =>
      rw [readOpcodes] at h
      simp only [except_bind_eq_ok, except_pure_eq_ok, expectName_eq_ok_iff] at h
      obtain ⟨_, ⟨-, name⟩, read, hread, others, hothers, rfl⟩ := h
      rcases List.mem_cons.mp mem with same | mem
      · cases same
        exact descriptor_accepted name hread
      · exact ih hothers mem

/-- **Every entry of an accepted manifest is in order.** -/
theorem manifest_accepted {data : Value} {m : Manifest} (h : Manifest.ofJson source data = .ok m)
    (mem : (opcode, d) ∈ m.opcodes) : Accepted opcode d := by
  unfold Manifest.ofJson at h
  simp only [except_bind_eq_ok, except_guard_eq_ok, except_pure_eq_ok] at h
  obtain ⟨members, -, _, -, -, hostModule, -, opcodes, -, entries, hentries, rfl⟩ := h
  exact opcodes_accepted hentries mem

end Accepted

end HostGlue.Interface

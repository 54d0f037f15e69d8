import HostGlue.Files.Journal
import HostGlue.Proofs.Except

/-!
# What edits change

Each edit has one lemma that says what it found at the places its paths lead to and what it set
there, and nothing behind these lemmas looks into an edit. What a location holds then follows from
the laws of setting and dropping.
-/

namespace HostGlue.Files

namespace Tree

variable {t t' : Tree} {p target : Path} {a b location : Location} {number : Nat}
  {bytes : List UInt8}

/-! ## Entries of locations -/

theorem ne_nil_of_entry (h : t.entry a ≠ some .directory) : a ≠ [] := by
  rintro rfl
  exact h entry_root

theorem entry_move {entry : Entry} (ha : a ≠ []) (hl : location ≠ []) :
    ((t.drop a).setEntry location entry).entry b =
      if b = location then some entry else if b = a then none else t.entry b := by
  rw [entry_setEntry hl, entry_drop ha]

/-! ## Edits that were done -/

theorem makeDirectory_eq_ok_iff : t.makeDirectory p = .ok t' ↔
    ∃ location, t.locateEntry p = .ok location ∧ t.entry location = none ∧
      t.setEntry location .directory = t' := by
  rw [makeDirectory, except_bind_eq_ok]
  refine exists_congr fun location => and_congr_right fun _ => ?_
  split
  · next held => simp [held, throw, throwThe, MonadExceptOf.throw]
  · next absent => simp [absent]

/-- A file is opened, or made where there is nothing. -/
theorem openForWriting_eq_ok_iff : t.openForWriting p = .ok t' ↔
    ∃ location, t.locate p = .ok location ∧
      ((∃ number, t.entry location = some (.file number) ∧ t.setContent number [] = t') ∨
        t.entry location = none ∧ t.newFile location [] = t') := by
  rw [openForWriting, except_bind_eq_ok]
  refine exists_congr fun location => and_congr_right fun _ => ?_
  split
  · next held => simp [held, throw, throwThe, MonadExceptOf.throw]
  · next number held => simp [held]
  · next held => simp [held, throw, throwThe, MonadExceptOf.throw]
  · next absent => simp [absent]

theorem writeBytes_eq_ok_iff : t.writeBytes p bytes = .ok t' ↔
    ∃ location number, t.locate p = .ok location ∧ t.entry location = some (.file number) ∧
      t.setContent number bytes = t' := by
  rw [writeBytes, except_bind_eq_ok]
  refine exists_congr fun location => ?_
  split
  · next number held => simp [held]
  · next other =>
      have noFile (number : Nat) : t.entry location ≠ some (.file number) := other number
      simp [noFile, throw, throwThe, MonadExceptOf.throw]

/-- The two locations are one, or names of one file. -/
def SameFile (t : Tree) (a b : Location) : Prop :=
  a = b ∨ ∃ number, t.entry a = some (.file number) ∧ t.entry b = some (.file number)

/-- Moving is to be done where something is moved and no directory is in the way. What is moved is
gone where it was, unless it was there already. -/
theorem replace_of_located {source goal : Location} {entry : Entry}
    (located : t.locateEntry p = .ok source) (reached : t.locateEntry target = .ok goal)
    (held : t.entry source = some entry) (free : t.entry goal ≠ some .directory) :
    t.SameFile source goal ∧ t.replace p target = .ok t ∨
      ¬ t.SameFile source goal ∧
        t.replace p target = .ok ((t.drop source).setEntry goal entry) := by
  rw [replace, located, reached, except_ok_bind, except_ok_bind, held]
  unfold SameFile
  split
  · next absent => cases absent
  · next directory => exact absurd directory free
  · next number other file there =>
      obtain rfl := Option.some.inj file
      rw [held, there]
      by_cases same : number = other
      · simp [same, pure, Except.pure]
      · have apart : source ≠ goal := by
          rintro rfl
          exact same (by simpa [held] using there)
        simp [same, apart, pure, Except.pure, eq_comm]
  · next entry' _ here _ noFiles =>
      obtain rfl := Option.some.inj here
      have apart : ¬ ∃ number, t.entry source = some (.file number) ∧
          t.entry goal = some (.file number) := by
        rintro ⟨number, file, there⟩
        exact noFiles number number there (Option.some.inj (held.symm.trans file))
      by_cases same : source = goal
      · simp [same, pure, Except.pure]
      · rw [if_neg same]
        exact .inr ⟨not_or.mpr ⟨same, apart⟩, rfl⟩

/-- What a move that was done had found. -/
theorem replace_eq_ok (h : t.replace p target = .ok t') :
    ∃ source goal entry, t.locateEntry p = .ok source ∧ t.locateEntry target = .ok goal ∧
      t.entry source = some entry ∧ t.entry goal ≠ some .directory := by
  simp only [replace, except_bind_eq_ok] at h
  obtain ⟨source, located, goal, reached, h⟩ := h
  cases held : t.entry source with
  | none =>
      rw [held] at h
      cases h
  | some entry =>
      refine ⟨source, goal, entry, located, reached, held, fun directory => ?_⟩
      rw [held, directory] at h
      cases h

end Tree

end HostGlue.Files

import HostGlue.Proofs.Files.Following

/-!
# Laws of actions

What an action does is read off its calls, and `run_ask` and `run_step` say what a call does: it is
refused because of a null character, or it meets its fault, or the tree answers. An action that only
asks leaves the tree alone whatever it is answered.

An action that changes the tree is judged by every tree that it passes, not by the last one only:
`Keeps` says that a property of trees holds all the way, also where the action fails and whatever
faults it meets. The rules follow the way actions are put together; only `keeps_step` looks into the
journal.
-/

namespace HostGlue.Files

/-- The tree that there is and those that there were. -/
def Journal.trees (j : Journal) : List Tree := j.tree :: j.past.map (·.2)

/-- What the next call is answered if it only looks at the tree. -/
def Journal.answer {α : Type} (j : Journal) (look : Tree → Except OsCode α) : Except OsCode α :=
  match j.fault with
  | some fault => .error fault.code
  | none => look j.tree

theorem Journal.later_of_faultless {j : Journal} (free : j.faults = []) : j.later = j := by
  cases j
  cases free
  rfl

theorem Journal.fault_of_faultless {j : Journal} (free : j.faults = []) : j.fault = none := by
  rw [Journal.fault, free]
  rfl

theorem Path.hasNull_child {p : Path} {name : String} : (p.child name).hasNull = false ↔
    p.hasNull = false ∧ name.toList.contains '\x00' = false := by
  simp [Path.hasNull, Path.child]

/-- The ending of a draft has no null character. -/
theorem Path.hasNull_draft {p : Path} {name : String} :
    (p.child (name ++ ".tmp")).hasNull = false ↔ (p.child name).hasNull = false := by
  rw [hasNull_child, hasNull_child]
  simp

namespace Action

/-! ## Runs -/

section Runs

variable {ε α β : Type} {j j' : Journal}

/-- An action's answer comes with a journal. -/
theorem run_fst_iff {a : ExceptT ε (StateM Journal) α} {r : Except ε α} :
    (a.run j).1 = r ↔ ∃ j', a.run j = (r, j') :=
  ⟨fun h => ⟨(a.run j).2, by rw [← h]; rfl⟩, fun ⟨_, h⟩ => by rw [h]⟩

theorem run_bind (a : ExceptT ε (StateM Journal) α) (f : α → ExceptT ε (StateM Journal) β)
    (j : Journal) : (a >>= f).run j = match a.run j with
      | (.ok x, j') => (f x).run j'
      | (.error e, j') => (.error e, j') := by
  rw [ExceptT.run_bind]
  show StateT.bind a.run _ j = _
  rw [StateT.bind]
  show (match a.run j with | (x, j') => _) = _
  cases a.run j with
  | mk r j' => cases r <;> rfl

theorem run_bind_eq_ok_iff {a : ExceptT ε (StateM Journal) α}
    {f : α → ExceptT ε (StateM Journal) β} {y : β} : (a >>= f).run j = (.ok y, j') ↔
      ∃ x j₁, a.run j = (.ok x, j₁) ∧ (f x).run j₁ = (.ok y, j') := by
  rw [run_bind]
  cases a.run j with
  | mk r j₁ =>
      cases r with
      | error e => exact iff_of_false (by rintro ⟨⟩) (by rintro ⟨x, j₂, ⟨⟩, -⟩)
      | ok x =>
          refine ⟨fun h => ⟨x, j₁, rfl, h⟩, ?_⟩
          rintro ⟨x, j₂, ⟨⟩, h⟩
          exact h

theorem run_bind_eq_error_iff {a : ExceptT ε (StateM Journal) α}
    {f : α → ExceptT ε (StateM Journal) β} {e : ε} : (a >>= f).run j = (.error e, j') ↔
      a.run j = (.error e, j') ∨ ∃ x j₁, a.run j = (.ok x, j₁) ∧ (f x).run j₁ = (.error e, j') := by
  rw [run_bind]
  cases a.run j with
  | mk r j₁ =>
      cases r with
      | error e' =>
          constructor
          · rintro ⟨⟩
            exact .inl rfl
          · rintro (⟨⟨⟩⟩ | ⟨x, j₂, ⟨⟩, -⟩)
            rfl
      | ok x =>
          refine ⟨fun h => .inr ⟨x, j₁, rfl, h⟩, ?_⟩
          rintro (⟨⟨⟩⟩ | ⟨x, j₂, ⟨⟩, h⟩)
          exact h

theorem run_tryCatch (a : ExceptT ε (StateM Journal) α) (h : ε → ExceptT ε (StateM Journal) α)
    (j : Journal) : (tryCatch a h).run j = match a.run j with
      | (.ok x, j') => (.ok x, j')
      | (.error e, j') => (h e).run j' := by
  show (ExceptT.tryCatch a h).run j = _
  rw [ExceptT.tryCatch, ExceptT.run_mk]
  show StateT.bind a.run _ j = _
  rw [StateT.bind]
  show (match a.run j with | (x, j') => _) = _
  cases a.run j with
  | mk r j' => cases r <;> rfl

theorem tryCatch_eq_ok_iff {a : ExceptT ε (StateM Journal) α}
    {h : ε → ExceptT ε (StateM Journal) α} {x : α} : (tryCatch a h).run j = (.ok x, j') ↔
      a.run j = (.ok x, j') ∨ ∃ e j₁, a.run j = (.error e, j₁) ∧ (h e).run j₁ = (.ok x, j') := by
  rw [run_tryCatch]
  cases a.run j with
  | mk r j₁ =>
      cases r with
      | error e =>
          refine ⟨fun h => .inr ⟨e, j₁, rfl, h⟩, ?_⟩
          rintro (⟨⟨⟩⟩ | ⟨e, j₂, ⟨⟩, h⟩)
          exact h
      | ok y =>
          constructor
          · rintro ⟨⟩
            exact .inl rfl
          · rintro (⟨⟨⟩⟩ | ⟨e, j₂, ⟨⟩, -⟩)
            rfl

theorem tryCatch_eq_error_iff {a : ExceptT ε (StateM Journal) α}
    {h : ε → ExceptT ε (StateM Journal) α} {e : ε} : (tryCatch a h).run j = (.error e, j') ↔
      ∃ e₁ j₁, a.run j = (.error e₁, j₁) ∧ (h e₁).run j₁ = (.error e, j') := by
  rw [run_tryCatch]
  cases a.run j with
  | mk r j₁ =>
      cases r with
      | ok y => exact iff_of_false (by rintro ⟨⟩) (by rintro ⟨e, j₂, ⟨⟩, -⟩)
      | error e₁ =>
          refine ⟨fun h => ⟨e₁, j₁, rfl, h⟩, ?_⟩
          rintro ⟨e₁, j₁, ⟨⟩, h⟩
          exact h

theorem run_call (paths : List Path) (whole : Journal → Except OsCode (α × Journal))
    (partly : Fault → Journal → Journal) (j : Journal) :
    (call paths whole partly).run j =
      if paths.any Path.hasNull then (.error .nullCharacter, j)
      else match j.fault with
        | some fault => (.error (.os ⟨fault.code, paths⟩), partly fault j.later)
        | none => match whole j.later with
          | .ok (answer, done) => (.ok answer, done)
          | .error code => (.error (.os ⟨code, paths⟩), j.later) := by
  unfold call
  split
  · rfl
  · show (match j.fault with | some _ => _ | none => _ : Action α).run j = _
    cases j.fault with
    | some fault => rfl
    | none => cases whole j.later <;> rfl

/-- A call that only looks at the tree. -/
theorem run_ask (paths : List Path) (look : Tree → Except OsCode α) (j : Journal) :
    (ask paths look).run j =
      if paths.any Path.hasNull then (.error .nullCharacter, j)
      else ((j.answer look).mapError fun code => .os ⟨code, paths⟩, j.later) := by
  rw [ask, run_call]
  split
  · rfl
  · rw [Journal.answer]
    cases j.fault with
    | some fault => rfl
    | none =>
        dsimp only [Journal.later]
        cases look j.tree <;> rfl

theorem ask_eq_ok_iff {paths : List Path} {look : Tree → Except OsCode α} {x : α} :
    (ask paths look).run j = (.ok x, j') ↔
      paths.any Path.hasNull = false ∧ j.answer look = .ok x ∧ j' = j.later := by
  rw [run_ask]
  split
  · next illegal => exact iff_of_false (by rintro ⟨⟩) (by simp [illegal])
  · next legal =>
      rw [and_iff_right (Bool.eq_false_iff.mpr legal)]
      cases j.answer look with
      | error code => exact iff_of_false (by rintro ⟨⟩) (by simp)
      | ok y =>
          constructor
          · rintro ⟨⟩
            exact ⟨rfl, rfl⟩
          · rintro ⟨⟨⟩, rfl⟩
            rfl

/-- A question is refused because of a null character, or by the system. -/
theorem ask_eq_error_iff {paths : List Path} {look : Tree → Except OsCode α} {e : FileError} :
    (ask paths look).run j = (.error e, j') ↔
      paths.any Path.hasNull = true ∧ e = .nullCharacter ∧ j' = j ∨
        paths.any Path.hasNull = false ∧
          ∃ code, j.answer look = .error code ∧ e = .os ⟨code, paths⟩ ∧ j' = j.later := by
  rw [run_ask]
  split
  · next illegal =>
      rw [or_iff_left (fun h => Bool.false_ne_true (h.1.symm.trans illegal)), and_iff_right illegal]
      constructor
      · rintro ⟨⟩
        exact ⟨rfl, rfl⟩
      · rintro ⟨rfl, rfl⟩
        rfl
  · next legal =>
      rw [or_iff_right (fun h => legal h.1), and_iff_right (Bool.eq_false_iff.mpr legal)]
      cases j.answer look with
      | error code =>
          constructor
          · rintro ⟨⟩
            exact ⟨code, rfl, rfl, rfl⟩
          · rintro ⟨code, ⟨⟩, rfl, rfl⟩
            rfl
      | ok y => exact iff_of_false (by rintro ⟨⟩) (by simp)

theorem run_step (edit : Edit) (j : Journal) :
    (step edit).run j =
      if edit.told.any Path.hasNull then (.error .nullCharacter, j)
      else match j.fault with
        | some fault => (.error (.os ⟨fault.code, edit.told⟩), j.later.salvage fault edit)
        | none => match j.later.note edit with
          | .ok noted => (.ok (), noted)
          | .error code => (.error (.os ⟨code, edit.told⟩), j.later) := by
  rw [step, run_call]
  split
  · rfl
  · cases j.fault with
    | some fault => rfl
    | none => cases j.later.note edit <;> rfl

/-- Of actions on a list the first one that fails ends them. -/
theorem run_mapM_eq_error_iff {l : List α} {f : α → ExceptT ε (StateM Journal) β} {e : ε} :
    (l.mapM f).run j = (.error e, j') ↔
      ∃ front x rest found j₁, l = front ++ x :: rest ∧ (front.mapM f).run j = (.ok found, j₁) ∧
        (f x).run j₁ = (.error e, j') := by
  induction l generalizing j with
  | nil =>
      refine iff_of_false (by rintro ⟨⟩) ?_
      rintro ⟨front, x, rest, _, _, split, -⟩
      simp at split
  | cons first others ih =>
      rw [List.mapM_cons, run_bind_eq_error_iff]
      constructor
      · rintro (failed | ⟨y, j₁, ended, failed⟩)
        · exact ⟨[], first, others, [], j, rfl, rfl, failed⟩
        · rcases run_bind_eq_error_iff.mp failed with failed | ⟨ys, j₂, -, impossible⟩
          · obtain ⟨front, x, rest, found, j₂, rfl, passed, failed⟩ := ih.mp failed
            refine ⟨first :: front, x, rest, y :: found, j₂, rfl, ?_, failed⟩
            rw [List.mapM_cons]
            exact run_bind_eq_ok_iff.mpr ⟨y, j₁, ended,
              run_bind_eq_ok_iff.mpr ⟨found, j₂, passed, rfl⟩⟩
          · cases impossible
      · rintro ⟨front, x, rest, found, j₂, split, passed, failed⟩
        cases front with
        | nil =>
            obtain ⟨rfl, rfl⟩ := List.cons.inj split
            cases passed
            exact .inl failed
        | cons y front =>
            obtain ⟨rfl, rfl⟩ := List.cons.inj split
            rw [List.mapM_cons] at passed
            obtain ⟨z, j₁, ended, passed⟩ := run_bind_eq_ok_iff.mp passed
            obtain ⟨zs, j₃, passed, same⟩ := run_bind_eq_ok_iff.mp passed
            cases same
            -- what was found is put together after the last element only, so the failure stays
            exact .inr ⟨z, j₁, ended, run_bind_eq_error_iff.mpr
              (.inl (ih.mpr ⟨front, x, rest, zs, _, rfl, passed, failed⟩))⟩

end Runs

/-! ## Asking -/

section Asking

variable {ε ε' α β : Type} {a : ExceptT ε (StateM Journal) α} {j : Journal}

/-- The action leaves the tree alone and notes nothing. -/
def Reads (a : ExceptT ε (StateM Journal) α) : Prop :=
  ∀ j : Journal, ∃ behind, behind <:+ j.faults ∧ (a.run j).2 = { j with faults := behind }

theorem Reads.tree (h : Reads a) (j : Journal) : (a.run j).2.tree = j.tree := by
  obtain ⟨behind, -, same⟩ := h j
  rw [same]

theorem Reads.past (h : Reads a) (j : Journal) : (a.run j).2.past = j.past := by
  obtain ⟨behind, -, same⟩ := h j
  rw [same]

/-- Without faults nothing at all is changed. -/
theorem Reads.journal (h : Reads a) (free : j.faults = []) : (a.run j).2 = j := by
  obtain ⟨behind, ends, same⟩ := h j
  rw [free, List.suffix_nil] at ends
  rw [same, ends, ← free]

theorem reads_pure (x : α) : Reads (pure x : ExceptT ε (StateM Journal) α) :=
  fun j => ⟨j.faults, List.suffix_refl _, rfl⟩

theorem reads_throw (e : ε) : Reads (throw e : ExceptT ε (StateM Journal) α) :=
  fun j => ⟨j.faults, List.suffix_refl _, rfl⟩

theorem Reads.bind {f : α → ExceptT ε (StateM Journal) β} (ha : Reads a) (hf : ∀ x, Reads (f x)) :
    Reads (a >>= f) := by
  intro j
  obtain ⟨behind, ends, same⟩ := ha j
  rw [run_bind]
  cases h : a.run j with
  | mk r j₁ =>
      rw [h] at same
      cases r with
      | error e => exact ⟨behind, ends, same⟩
      | ok x =>
          obtain ⟨behind', ends', same'⟩ := hf x j₁
          dsimp only at same ⊢
          rw [same', same]
          rw [same] at ends'
          exact ⟨behind', ends'.trans ends, rfl⟩

theorem Reads.tryCatch {h : ε → ExceptT ε (StateM Journal) α} (ha : Reads a)
    (hh : ∀ e, Reads (h e)) : Reads (tryCatch a h) := by
  intro j
  obtain ⟨behind, ends, same⟩ := ha j
  rw [run_tryCatch]
  cases hr : a.run j with
  | mk r j₁ =>
      rw [hr] at same
      cases r with
      | ok x => exact ⟨behind, ends, same⟩
      | error e =>
          obtain ⟨behind', ends', same'⟩ := hh e j₁
          dsimp only at same ⊢
          rw [same', same]
          rw [same] at ends'
          exact ⟨behind', ends'.trans ends, rfl⟩

theorem run_adapt (f : ε → ε') (a : ExceptT ε (StateM Journal) α) (j : Journal) :
    (a.adapt f).run j = ((a.run j).1.mapError f, (a.run j).2) := rfl

theorem Reads.adapt (h : Reads a) (f : ε → ε') : Reads (a.adapt f) := h

theorem reads_ask (paths : List Path) (look : Tree → Except OsCode α) : Reads (ask paths look) := by
  intro j
  rw [run_ask]
  split
  · exact ⟨j.faults, List.suffix_refl _, rfl⟩
  · exact ⟨j.faults.tail, List.tail_suffix _, rfl⟩

theorem reads_probe (p : Path) : Reads (probe p) := by
  refine ((reads_ask _ _).bind fun _ => reads_pure _).tryCatch fun e => ?_
  split
  · split
    · exact reads_pure none
    · exact reads_throw _
  · exact reads_pure none
  · exact reads_throw _

theorem reads_isDirectory (p : Path) : Reads (isDirectory p) :=
  (reads_probe p).bind fun _ => reads_pure _

end Asking

/-! ## Asking again -/

section Again

variable {ε ε' α β : Type} {t t' : Tree} {a : ExceptT ε (StateM Journal) α} {good known : α → Prop}

/-- A good answer that the action gets in the one tree, whatever faults it meets, it gets in the
other tree without faults. Both trees are left alone. -/
def Carries (t t' : Tree) (good : α → Prop) (a : ExceptT ε (StateM Journal) α) : Prop :=
  ∀ j x j', j.tree = t → a.run j = (.ok x, j') → good x →
    j'.tree = t ∧ a.run { tree := t' } = (.ok x, { tree := t' })

/-- All answers. -/
def anyAnswer (_ : α) : Prop := True

theorem carries_pure (x : α) : Carries t t' good (pure x : ExceptT ε (StateM Journal) α) := by
  rintro j y j' tree ⟨⟩ -
  exact ⟨tree, rfl⟩

theorem carries_throw (e : ε) : Carries t t' good (throw e : ExceptT ε (StateM Journal) α) := by
  rintro j y j' tree ⟨⟩

/-- Where an answer was not good, so is what follows from it. -/
theorem Carries.bind {f : α → ExceptT ε (StateM Journal) β} {good : β → Prop}
    (ha : Carries t t' known a) (hf : ∀ x, known x → Carries t t' good (f x))
    (other : ∀ x, ¬ known x → ∀ j y j', (f x).run j = (.ok y, j') → ¬ good y) :
    Carries t t' good (a >>= f) := by
  intro j y j' tree ended fine
  obtain ⟨x, j₁, first, second⟩ := run_bind_eq_ok_iff.mp ended
  have answered : known x := Classical.byContradiction fun h => other x h _ _ _ second fine
  obtain ⟨tree, again⟩ := ha j x j₁ tree first answered
  obtain ⟨tree, again'⟩ := hf x answered j₁ y j' tree second fine
  exact ⟨tree, run_bind_eq_ok_iff.mpr ⟨x, _, again, again'⟩⟩

theorem Carries.bind_any {f : α → ExceptT ε (StateM Journal) β} {good : β → Prop}
    (ha : Carries t t' anyAnswer a) (hf : ∀ x, Carries t t' good (f x)) :
    Carries t t' good (a >>= f) :=
  ha.bind (fun x _ => hf x) fun _ h => absurd trivial h

/-- What is made of a failure is never good. -/
theorem Carries.tryCatch {h : ε → ExceptT ε (StateM Journal) α} (ha : Carries t t' good a)
    (other : ∀ e j y j', (h e).run j = (.ok y, j') → ¬ good y) :
    Carries t t' good (tryCatch a h) := by
  intro j y j' tree ended fine
  rcases tryCatch_eq_ok_iff.mp ended with first | ⟨e, j₁, -, handled⟩
  · obtain ⟨tree, again⟩ := ha j y j' tree first fine
    exact ⟨tree, tryCatch_eq_ok_iff.mpr (.inl again)⟩
  · exact absurd fine (other e _ _ _ handled)

theorem Carries.adapt (ha : Carries t t' good a) (f : ε → ε') : Carries t t' good (a.adapt f) := by
  intro j x j' tree ended fine
  rw [run_adapt] at ended
  obtain ⟨r, rfl⟩ := Prod.mk.inj ended
  obtain ⟨tree, again⟩ := ha j x _ tree (Prod.ext (except_mapError_eq_ok.mp r) rfl) fine
  refine ⟨tree, ?_⟩
  rw [run_adapt, again]
  rfl

theorem carries_ask {paths : List Path} {look : Tree → Except OsCode α}
    (same : ∀ x, look t = .ok x → look t' = .ok x) : Carries t t' anyAnswer (ask paths look) := by
  rintro j x j' rfl ended -
  obtain ⟨legal, answered, rfl⟩ := ask_eq_ok_iff.mp ended
  refine ⟨rfl, ask_eq_ok_iff.mpr ⟨legal, ?_, rfl⟩⟩
  rw [Journal.answer] at answered ⊢
  split at answered
  · cases answered
  · exact same x answered

end Again

/-! ## Trees on the way -/

section Keeping

variable {α β : Type} {always pre mid post : Tree → Prop} {a : Action α} {f : α → Action β}

/-- Whatever trees the action passes have the property `always`, if the tree before it has this and
`pre`. The last one also has `post` if the action ends well. -/
def Keeps (always pre post : Tree → Prop) (a : Action α) : Prop :=
  ∀ j : Journal, always j.tree → pre j.tree →
    always (a.run j).2.tree ∧ (∀ t ∈ (a.run j).2.trees, t ∈ j.trees ∨ always t) ∧
      ∀ x, (a.run j).1 = .ok x → post (a.run j).2.tree

/-- Nothing is asked of the tree. -/
def anyTree (_ : Tree) : Prop := True

theorem Reads.keeps (h : Reads a) : Keeps always pre pre a := by
  intro j kept here
  have trees : (a.run j).2.trees = j.trees := by
    rw [Journal.trees, Journal.trees, h.tree, h.past]
  rw [h.tree, trees]
  exact ⟨kept, fun t mem => .inl mem, fun _ _ => here⟩

theorem Keeps.bind (ha : Keeps always pre mid a) (hf : ∀ x, Keeps always mid post (f x)) :
    Keeps always pre post (a >>= f) := by
  intro j kept here
  obtain ⟨kept, passed, ends⟩ := ha j kept here
  rw [run_bind]
  cases h : a.run j with
  | mk r j₁ =>
      rw [h] at kept passed ends
      cases r with
      | error e => exact ⟨kept, passed, fun x hx => by cases hx⟩
      | ok x =>
          obtain ⟨kept, passed', ends⟩ := hf x j₁ kept (ends x rfl)
          exact ⟨kept, fun t mem => (passed' t mem).elim (passed t) .inr, ends⟩

theorem Keeps.tryCatch {h : FileError → Action α} (ha : Keeps always pre post a)
    (hh : ∀ e, Keeps always anyTree post (h e)) : Keeps always pre post (tryCatch a h) := by
  intro j kept here
  obtain ⟨kept, passed, ends⟩ := ha j kept here
  rw [run_tryCatch]
  cases hr : a.run j with
  | mk r j₁ =>
      rw [hr] at kept passed ends
      cases r with
      | ok x => exact ⟨kept, passed, ends⟩
      | error e =>
          obtain ⟨kept, passed', ends⟩ := hh e j₁ kept trivial
          exact ⟨kept, fun t mem => (passed' t mem).elim (passed t) .inr, ends⟩

theorem keeps_throw (e : FileError) : Keeps always pre post (throw e : Action α) :=
  fun _ kept _ => ⟨kept, fun _ mem => .inl mem, fun _ h => by cases h⟩

theorem note_eq_ok {j j' : Journal} {edit : Edit} (h : j.note edit = .ok j') :
    edit.apply j.tree = .ok j'.tree ∧ j'.trees = j'.tree :: j.trees := by
  rw [Journal.note, except_map_eq_ok] at h
  obtain ⟨tree, applied, rfl⟩ := h
  exact ⟨applied, rfl⟩

/-- What a fault leaves of an edit is nothing or one more tree. -/
theorem salvage_cases (j : Journal) (fault : Fault) (edit : Edit) :
    j.salvage fault edit = j ∨
      ∃ rest, edit.remnant fault = some rest ∧ j.note rest = .ok (j.salvage fault edit) := by
  unfold Journal.salvage
  split
  · exact .inl rfl
  · next rest partly =>
      split
      · next noted => exact .inr ⟨rest, partly, noted⟩
      · exact .inl rfl

/-- A step that is done as a whole or not at all, such as a move. -/
theorem run_step_whole {edit : Edit} (whole : ∀ fault, edit.remnant fault = none) (j : Journal) :
    (∃ e j', (step edit).run j = (.error e, j') ∧ j'.tree = j.tree ∧ j'.trees = j.trees) ∨
      ∃ j', (step edit).run j = (.ok (), j') ∧ edit.apply j.tree = .ok j'.tree ∧
        j'.trees = j'.tree :: j.trees := by
  rw [run_step]
  split
  · exact .inl ⟨_, _, rfl, rfl, rfl⟩
  · split
    · next fault _ =>
        refine .inl ⟨_, _, rfl, ?_⟩
        rw [Journal.salvage, whole]
        exact ⟨rfl, rfl⟩
    · split
      · next noted =>
          obtain ⟨applied, trees⟩ := note_eq_ok noted
          exact .inr ⟨_, rfl, applied, trees⟩
      · exact .inl ⟨_, _, rfl, rfl, rfl⟩

/-- A step keeps what its edit keeps, done whole or in part. -/
theorem keeps_step {edit : Edit}
    (done : edit.told.any Path.hasNull = false → ∀ t t', always t → pre t →
      edit.apply t = .ok t' → always t' ∧ post t')
    (part : ∀ fault rest t t', edit.remnant fault = some rest → always t → pre t →
      rest.apply t = .ok t' → always t') :
    Keeps always pre post (step edit) := by
  intro j kept here
  rw [run_step]
  split
  · exact ⟨kept, fun _ mem => .inl mem, fun _ h => by cases h⟩
  · next named =>
      split
      · next fault _ =>
          -- the step fails, so nothing is owed of `post`; but the tree may have been half changed
          refine and_assoc.mp ⟨?_, fun _ h => by cases h⟩
          rcases salvage_cases j.later fault edit with same | ⟨rest, partly, noted⟩
          · rw [same]
            exact ⟨kept, fun _ mem => .inl mem⟩
          · obtain ⟨applied, trees⟩ := note_eq_ok noted
            have after := part fault rest _ _ partly kept here applied
            refine ⟨after, ?_⟩
            rw [trees]
            exact List.forall_mem_cons.mpr ⟨.inr after, fun _ mem => .inl mem⟩
      · split
        · next noted =>
            obtain ⟨applied, trees⟩ := note_eq_ok noted
            obtain ⟨after, ends⟩ := done (Bool.eq_false_iff.mpr named) _ _ kept here applied
            refine ⟨after, ?_, fun _ _ => ends⟩
            rw [trees]
            exact List.forall_mem_cons.mpr ⟨.inr after, fun _ mem => .inl mem⟩
        · exact ⟨kept, fun _ mem => .inl mem, fun _ h => by cases h⟩

/-! ## Directories and texts -/

theorem keeps_makeDirectory {p : Path}
    (done : ∀ t t', always t → t.makeDirectory p = .ok t' → always t') :
    Keeps always anyTree anyTree (makeDirectory p) := by
  have made : Keeps always anyTree anyTree (step (.makeDirectory p)) :=
    keeps_step (fun _ t t' kept _ applied => ⟨done t t' kept applied, trivial⟩)
      (fun fault rest t t' partly => by cases partly)
  refine made.tryCatch fun e => ?_
  split
  · split
    · exact keeps_throw _
    · refine (reads_isDirectory p).keeps.bind fun there => ?_
      split
      · exact (reads_pure ()).keeps
      · exact keeps_throw _
  · exact keeps_throw _

/-- Making a directory and those above it makes directories at beginnings of its path only. -/
theorem keeps_makeDirectories {p : Path}
    (done : ∀ q t t', q.anchor = p.anchor → q.parts <+: p.parts → always t →
      t.makeDirectory q = .ok t' → always t') :
    Keeps always anyTree anyTree (makeDirectories p) := by
  -- the recursion drops components from the far end, so `parts` is a beginning of the path reversed
  have up : ∀ parts, parts.reverse <+: p.parts →
      Keeps always anyTree anyTree (makeDirectoriesUp p.anchor parts) := by
    intro parts
    induction parts with
    | nil => exact fun _ => keeps_makeDirectory fun t t' => done _ t t' rfl List.nil_prefix
    | cons part above ih =>
        intro begins
        have here : Keeps always anyTree anyTree
            (makeDirectory ⟨p.anchor, (part :: above).reverse⟩) :=
          keeps_makeDirectory fun t t' => done _ t t' rfl begins
        refine here.tryCatch fun e => ?_
        split
        · split
          · refine (ih ?_).bind fun _ => here
            rw [List.reverse_cons] at begins
            exact (List.prefix_append _ _).trans begins
          · exact keeps_throw _
        · exact keeps_throw _
  have whole : p.parts.reverse.reverse <+: p.parts := by simp
  exact up p.parts.reverse whole

/-- What comes before the move when a text is written: the directories and the draft. -/
def draftText (directory : Path) (name text : String) : Action Unit := do
  makeDirectories directory
  step (.openForWriting (directory.child (name ++ ".tmp")))
  step (.writeBytes (directory.child (name ++ ".tmp")) (Text.Utf8.encode text))

theorem writeText_child (directory : Path) (name text : String) :
    writeText (directory.child name) text = draftText directory name text >>= fun _ =>
      step (.replace (directory.child (name ++ ".tmp")) (directory.child name)) := by
  rw [writeText, Path.withEnding, Path.parent_child, Path.name_child, draftText]
  simp only [bind_assoc]

/-- Writing a draft makes directories on the way, opens the draft, and changes it once it is open.
-/
theorem keeps_draftText {directory : Path} {name text : String} (opened whole : Tree → Prop)
    (made : ∀ q t t', q.anchor = directory.anchor → q.parts <+: directory.parts → always t →
      t.makeDirectory q = .ok t' → always t')
    (opens : (directory.child (name ++ ".tmp")).hasNull = false → ∀ t t', always t →
      t.openForWriting (directory.child (name ++ ".tmp")) = .ok t' → always t' ∧ opened t')
    (filled : ∀ bytes t t', always t → opened t →
      t.writeBytes (directory.child (name ++ ".tmp")) bytes = .ok t' → always t')
    (complete : ∀ t t', always t → opened t →
      t.writeBytes (directory.child (name ++ ".tmp")) (Text.Utf8.encode text) = .ok t' → whole t') :
    Keeps always anyTree whole (draftText directory name text) := by
  have opening : Keeps always anyTree opened
      (step (.openForWriting (directory.child (name ++ ".tmp")))) := by
    refine keeps_step (fun named t t' kept _ applied => opens ?_ t t' kept applied)
      (fun fault rest t t' partly => by cases partly)
    simpa [Edit.told] using named
  refine (keeps_makeDirectories made).bind fun _ => opening.bind fun _ => ?_
  refine keeps_step (fun _ t t' kept held applied =>
    ⟨filled _ t t' kept held applied, complete t t' kept held applied⟩)
    (fun fault rest t t' partly kept held applied => ?_)
  cases partly
  exact filled _ t t' kept held applied

end Keeping

/-! ## Without faults -/

section Faultless

variable {α : Type} {j : Journal} {directory p : Path} {goal : Location} {name : String}
  {t t' : Tree}

/-- Without a fault the tree answers. -/
theorem run_ask_faultless {paths : List Path} (look : Tree → Except OsCode α)
    (free : j.faults = []) (legal : paths.any Path.hasNull = false) :
    (ask paths look).run j = ((look j.tree).mapError fun code => .os ⟨code, paths⟩, j) := by
  rw [run_ask, legal, if_neg Bool.false_ne_true, Journal.answer, Journal.fault_of_faultless free,
    Journal.later_of_faultless free]

/-- Without a fault a step that the tree allows is done. -/
theorem run_step_ok {edit : Edit} (free : j.faults = [])
    (legal : edit.told.any Path.hasNull = false) (applied : edit.apply j.tree = .ok t') :
    ∃ j', (step edit).run j = (.ok (), j') ∧ j'.faults = [] ∧ j'.tree = t' := by
  rw [run_step, legal, if_neg Bool.false_ne_true, Journal.fault_of_faultless free,
    Journal.later_of_faultless free, Journal.note, applied]
  exact ⟨_, rfl, free, rfl⟩

theorem run_step_error {edit : Edit} {code : OsCode} (free : j.faults = [])
    (legal : edit.told.any Path.hasNull = false) (refused : edit.apply j.tree = .error code) :
    (step edit).run j = (.error (.os ⟨code, edit.told⟩), j) := by
  rw [run_step, legal, if_neg Bool.false_ne_true, Journal.fault_of_faultless free,
    Journal.later_of_faultless free, Journal.note, refused]
  rfl

theorem run_probe_ok {item : Item} (free : j.faults = []) (legal : p.hasNull = false)
    (there : j.tree.stat p = .ok item) : (probe p).run j = (.ok (some item), j) := by
  have asked : (ask [p] (·.stat p)).run j = (.ok item, j) := by
    rw [run_ask_faultless _ free (by simp [legal]), there]
    rfl
  rw [probe, run_tryCatch, run_bind, asked]
  rfl

theorem run_isDirectory_ok (free : j.faults = []) (legal : p.hasNull = false)
    (there : j.tree.Reaches p goal) : (isDirectory p).run j = (.ok true, j) := by
  rw [isDirectory, run_bind, run_probe_ok free legal (Tree.stat_eq_directory_iff.mpr ⟨_, there⟩)]
  rfl

/-- Where the directory is there nothing is done. -/
theorem run_makeDirectories_ok (free : j.faults = []) (legal : p.hasNull = false)
    (there : j.tree.Reaches p goal) : (makeDirectories p).run j = (.ok (), j) := by
  -- making it fails, and that failure is passed over since it is a directory that is there
  have one : (makeDirectory p).run j = (.ok (), j) := by
    have refused : (step (.makeDirectory p)).run j =
        (.error (.os ⟨.alreadyExists, [p]⟩), j) :=
      run_step_error free (by simp [Edit.told, legal]) there.makeDirectory
    rw [makeDirectory, run_tryCatch, refused]
    dsimp only
    rw [if_neg (by decide), run_bind, run_isDirectory_ok free legal there]
    rfl
  rw [makeDirectories]
  cases backwards : p.parts.reverse with
  | nil =>
      have same : (⟨p.anchor, []⟩ : Path) = p := by
        rw [← List.reverse_eq_nil_iff.mp backwards]
      rw [makeDirectoriesUp, same, one]
  | cons part above =>
      rw [makeDirectoriesUp, ← backwards, List.reverse_reverse, run_tryCatch, one]

/-- A text can be written under the name: the system can be asked for it, the directory is there, no
directory stands in the place of the file or of its draft, and the draft is no link. -/
structure Writable (directory : Path) (goal : Location) (name : String) (t : Tree) : Prop where
  legal : (directory.child name).hasNull = false
  ordinary : name ≠ ".." ∧ name ++ ".tmp" ≠ ".."
  there : t.Reaches directory goal
  draft : ∀ entry, t.entry (goal ++ [name ++ ".tmp"]) = some entry → ∃ number, entry = .file number
  target : t.entry (goal ++ [name]) ≠ some .directory

theorem Writable.locate_draft (h : Writable directory goal name t) :
    t.locate (directory.child (name ++ ".tmp")) = .ok (goal ++ [name ++ ".tmp"]) := by
  refine h.there.locate_child h.ordinary.2 fun target held => ?_
  obtain ⟨number, same⟩ := h.draft _ held
  cases same

theorem Writable.of_setContent (h : Writable directory goal name t) (number : Nat)
    (bytes : List UInt8) : Writable directory goal name (t.setContent number bytes) :=
  ⟨h.legal, h.ordinary, (h.there.of_steady h.there.leads (Tree.steady_setContent _ _ _)).1, h.draft,
    h.target⟩

theorem Writable.open (h : Writable directory goal name t) :
    ∃ t' number, t.openForWriting (directory.child (name ++ ".tmp")) = .ok t' ∧
      Writable directory goal name t' ∧
      t'.entry (goal ++ [name ++ ".tmp"]) = some (.file number) := by
  cases held : t.entry (goal ++ [name ++ ".tmp"]) with
  | none =>
      have opened : t.openForWriting (directory.child (name ++ ".tmp")) =
          .ok (t.newFile (goal ++ [name ++ ".tmp"]) []) :=
        Tree.openForWriting_eq_ok_iff.mpr ⟨_, h.locate_draft, .inr ⟨held, rfl⟩⟩
      have now {a : Location} : (t.newFile (goal ++ [name ++ ".tmp"]) []).entry a =
          if a = goal ++ [name ++ ".tmp"] then some (.file t.fresh) else t.entry a :=
        Tree.entry_newFile (by simp)
      refine ⟨_, t.fresh, opened, ⟨h.legal, h.ordinary,
        (h.there.of_steady h.there.leads (Tree.steady_openForWriting opened)).1,
        fun entry there => ?_,
        ?_⟩, now.trans (if_pos rfl)⟩
      · rw [now, if_pos rfl] at there
        exact ⟨_, (Option.some.inj there).symm⟩
      · rw [now]
        split
        · nofun
        · exact h.target
  | some entry =>
      obtain ⟨number, rfl⟩ := h.draft _ held
      exact ⟨_, number, Tree.openForWriting_eq_ok_iff.mpr
        ⟨_, h.locate_draft, .inl ⟨number, held, rfl⟩⟩, h.of_setContent _ _, held⟩

theorem Writable.replace {number : Nat} (h : Writable directory goal name t)
    (file : t.entry (goal ++ [name ++ ".tmp"]) = some (.file number)) :
    ∃ t', t.replace (directory.child (name ++ ".tmp")) (directory.child name) = .ok t' := by
  rcases Tree.replace_of_located (h.there.locateEntry h.ordinary.2)
    (h.there.locateEntry h.ordinary.1) file h.target with ⟨-, moved⟩ | ⟨-, moved⟩
  · exact ⟨_, moved⟩
  · exact ⟨_, moved⟩

/-- Without faults a text is written wherever that is possible. -/
theorem run_writeText_ok (text : String) (free : j.faults = [])
    (possible : Writable directory goal name j.tree) :
    ∃ j', (writeText (directory.child name) text).run j = (.ok (), j') ∧ j'.faults = [] := by
  have legal := Path.hasNull_draft.mpr possible.legal
  obtain ⟨t₁, number, opened, possible₁, file⟩ := possible.open
  obtain ⟨j₁, ended₁, free₁, rfl⟩ :
      ∃ j₁, (step (.openForWriting (directory.child (name ++ ".tmp")))).run j = (.ok (), j₁) ∧
        j₁.faults = [] ∧ j₁.tree = t₁ := run_step_ok free (by simp [Edit.told, legal]) opened
  have filled : j₁.tree.writeBytes (directory.child (name ++ ".tmp")) (Text.Utf8.encode text) =
      .ok (j₁.tree.setContent number (Text.Utf8.encode text)) :=
    Tree.writeBytes_eq_ok_iff.mpr ⟨_, number, possible₁.locate_draft, file, rfl⟩
  obtain ⟨j₂, ended₂, free₂, same⟩ :
      ∃ j₂, (step (.writeBytes (directory.child (name ++ ".tmp")) (Text.Utf8.encode text))).run j₁ =
        (.ok (), j₂) ∧ j₂.faults = [] ∧
          j₂.tree = j₁.tree.setContent number (Text.Utf8.encode text) :=
    run_step_ok free₁ rfl filled
  -- filling the draft has changed no entry, so the move is as possible as it was before
  obtain ⟨t₃, moved⟩ : ∃ t₃, j₂.tree.replace (directory.child (name ++ ".tmp"))
      (directory.child name) = .ok t₃ := by
    rw [same]
    exact (possible₁.of_setContent number _).replace file
  obtain ⟨j₃, ended₃, free₃, -⟩ :
      ∃ j₃, (step (.replace (directory.child (name ++ ".tmp")) (directory.child name))).run j₂ =
        (.ok (), j₃) ∧ j₃.faults = [] ∧ j₃.tree = t₃ :=
    run_step_ok free₂ (by simp [Edit.told, legal, possible.legal]) moved
  refine ⟨j₃, ?_, free₃⟩
  rw [writeText_child, run_bind, draftText, run_bind, run_makeDirectories_ok free
    (Path.hasNull_child.mp possible.legal).1 possible.there]
  dsimp only
  rw [run_bind, ended₁]
  dsimp only
  rw [ended₂]
  exact ended₃

end Faultless

end Action

end HostGlue.Files

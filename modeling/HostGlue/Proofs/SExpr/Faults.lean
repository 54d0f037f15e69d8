import HostGlue.Proofs.SExpr.Spelling

/-!
# Faults of a layout

Whether a tree fits on a line is found out by putting it on one, so a leaf without a written form
may be met by the attempt, among the leading atoms of a block or in the layout of an item. It is the
same leaf each time, since all three go over the leaves from left to right. `Faults` says so of one
computation, and is kept by doing one computation after another, so that the law for trees is put
together along the recursion of the formatter.

An empty list is the one fault that depends on the layout: it stands on a line, but not on its own.
-/

namespace HostGlue.SExpr

/-! ## Parts of a tree -/

mutual

/-- The tree itself and everything in it, from left to right. -/
def parts : SExpr → List SExpr
  | .list items => .list items :: partsAll items
  | leaf => [leaf]

def partsAll : List SExpr → List SExpr
  | [] => []
  | x :: rest => parts x ++ partsAll rest

end

@[simp] theorem partsAll_nil : partsAll [] = [] := rfl

@[simp] theorem partsAll_cons (x : SExpr) (rest : List SExpr) :
    partsAll (x :: rest) = parts x ++ partsAll rest := rfl

@[simp] theorem parts_list (items : List SExpr) :
    parts (.list items) = .list items :: partsAll items := rfl

/-- The leaves of a tree, from left to right. -/
def leaves (t : SExpr) : List SExpr := t.parts.filter (¬ ·.isList)

/-- A leaf with a written form: a symbol, an integer, a string or a comment. -/
def isWritable : SExpr → Bool
  | .sym _ => true
  | .int _ => true
  | .str _ => true
  | .comment _ => true
  | _ => false

/-! ## Computations that fail -/

/-- What the computation fails with. -/
def failure {ε α : Type} : Except ε α → Option ε
  | .error e => some e
  | .ok _ => none

@[simp] theorem failure_eq_some_iff {ε α : Type} {x : Except ε α} {e : ε} :
    failure x = some e ↔ x = .error e := by
  cases x <;> simp [failure]

theorem failure_eq_none_iff {ε α : Type} {x : Except ε α} : failure x = none ↔ ∃ a, x = .ok a := by
  cases x <;> simp [failure]

/-- What is done with a result does not fail. -/
theorem failure_map {ε α β : Type} {x : Except ε α} (f : α → β) :
    failure (x >>= fun a => pure (f a)) = failure x := by
  cases x <;> rfl

/-- Of two computations in turn the first that fails is reported. -/
theorem failure_map₂ {ε α β γ : Type} {x : Except ε α} {y : Except ε β} (f : α → β → γ) :
    failure (x >>= fun a => y >>= fun b => pure (f a b)) = (failure x).or (failure y) := by
  cases x <;> cases y <;> rfl

/-- What is wrong with a leaf that has no written form. -/
def fault : SExpr → Option LayoutError
  | .unwritable leaf => failure (atom (.unwritable leaf))
  | _ => none

/-- What is wrong with the first of the trees that has a fault of its own. -/
def firstFault (trees : List SExpr) : Option LayoutError := trees.findSome? fault

theorem firstFault_append (xs ys : List SExpr) :
    firstFault (xs ++ ys) = (firstFault xs).or (firstFault ys) := List.findSome?_append

theorem firstFault_cons (x : SExpr) (rest : List SExpr) :
    firstFault (x :: rest) = (fault x).or (firstFault rest) := by
  rw [firstFault, List.findSome?_cons]
  cases fault x <;> rfl

theorem firstFault_parts_list (items : List SExpr) :
    firstFault (parts (.list items)) = firstFault (partsAll items) := rfl

theorem fault_eq_none_iff {leaf : SExpr} (h : leaf.isList = false) :
    fault leaf = none ↔ leaf.isWritable = true := by
  cases leaf with
  | list items => cases h
  | unwritable leaf => cases leaf <;> simp [fault, atom, failure, isWritable]
  | _ => simp [fault, isWritable]

theorem fault_eq_some_iff {leaf : SExpr} {e : LayoutError} (h : leaf.isList = false) :
    fault leaf = some e ↔ leaf.isWritable = false ∧ atom leaf = .error e := by
  cases leaf with
  | list items => cases h
  | unwritable leaf => simp [fault, isWritable]
  | _ => simp [fault, isWritable]

/-- Only leaves have faults of their own. -/
theorem firstFault_leaves (t : SExpr) : firstFault t.leaves = firstFault t.parts := by
  unfold leaves
  induction t.parts with
  | nil => rfl
  | cons x rest ih =>
      cases list : x.isList with
      | false =>
          rw [List.filter_cons_of_pos (by simp [list]), firstFault_cons, firstFault_cons, ih]
      | true =>
          have own : fault x = none := by
            cases x with
            | list items => rfl
            | _ => cases list
          rw [List.filter_cons_of_neg (by simp [list]), firstFault_cons, own, Option.none_or, ih]

theorem not_isList_of_mem_leaves {t leaf : SExpr} (h : leaf ∈ t.leaves) : leaf.isList = false := by
  simpa using (List.mem_filter.mp h).2

/-- A tree has no fault exactly if all its leaves have a written form. -/
theorem firstFault_eq_none_iff {t : SExpr} :
    firstFault t.leaves = none ↔ ∀ leaf ∈ t.leaves, leaf.isWritable = true := by
  rw [firstFault, List.findSome?_eq_none_iff]
  refine forall₂_congr fun leaf mem => ?_
  exact fault_eq_none_iff (not_isList_of_mem_leaves mem)

/-- The first fault of a tree is that of the leftmost leaf without a written form. -/
theorem firstFault_eq_some_iff {t : SExpr} {e : LayoutError} :
    firstFault t.leaves = some e ↔ ∃ front leaf behind, t.leaves = front ++ leaf :: behind ∧
      (∀ x ∈ front, x.isWritable = true) ∧ leaf.isWritable = false ∧ atom leaf = .error e := by
  rw [firstFault, List.findSome?_eq_some_iff]
  constructor
  · rintro ⟨front, leaf, behind, split, faulty, clean⟩
    have isLeaf (x : SExpr) (mem : x ∈ front ++ leaf :: behind) : x.isList = false :=
      not_isList_of_mem_leaves (split ▸ mem)
    refine ⟨front, leaf, behind, split, fun x mem => ?_, ?_⟩
    · exact (fault_eq_none_iff (isLeaf x (List.mem_append_left _ mem))).mp (clean x mem)
    · exact (fault_eq_some_iff (isLeaf leaf (by simp))).mp faulty
  · rintro ⟨front, leaf, behind, split, clean, faulty⟩
    have isLeaf (x : SExpr) (mem : x ∈ front ++ leaf :: behind) : x.isList = false :=
      not_isList_of_mem_leaves (split ▸ mem)
    refine ⟨front, leaf, behind, split, ?_, fun x mem => ?_⟩
    · exact (fault_eq_some_iff (isLeaf leaf (by simp))).mpr faulty
    · exact (fault_eq_none_iff (isLeaf x (List.mem_append_left _ mem))).mpr (clean x mem)

/-- The computation goes over the trees: it fails with their first fault and succeeds without one,
unless it was stopped by an empty list among them. -/
def Faults {α : Type} (trees : List SExpr) (x : Except LayoutError α) : Prop :=
  failure x = firstFault trees ∨ failure x = some .emptyList ∧ .list [] ∈ trees

section Faults

variable {α β : Type} {trees more : List SExpr} {x : Except LayoutError α}

/-- One computation after another goes over the trees of both. -/
theorem Faults.bind {f : α → Except LayoutError β} (hx : Faults trees x)
    (hf : ∀ a, Faults more (f a)) : Faults (trees ++ more) (x >>= f) := by
  unfold Faults
  rw [firstFault_append]
  cases x with
  | error e =>
      show some e = _ ∨ some e = _ ∧ _
      rcases hx with first | ⟨stopped, mem⟩
      · exact .inl (by rw [← first]; rfl)
      · exact .inr ⟨stopped, List.mem_append_left _ mem⟩
  | ok a =>
      show failure (f a) = _ ∨ failure (f a) = _ ∧ _
      have clean : firstFault trees = none := by
        rcases hx with first | ⟨stopped, -⟩
        · exact first.symm
        · cases stopped
      rw [clean, Option.none_or]
      exact (hf a).imp_right fun stopped => ⟨stopped.1, List.mem_append_right _ stopped.2⟩

theorem Faults.map (f : α → β) (hx : Faults trees x) : Faults trees (x.map f) := by
  cases x <;> exact hx

/-- Behind a computation that goes over the trees, what does not fail adds nothing. -/
theorem Faults.bind_pure (f : α → β) (hx : Faults trees x) :
    Faults trees (x >>= fun a => pure (f a)) := by
  cases x <;> exact hx

end Faults

/-! ## Layouts -/

theorem faults_atom {leaf : SExpr} (h : leaf.isAtom = true) : Faults leaf.parts (atom leaf) := by
  cases leaf with
  | comment text => cases h
  | list items => cases h
  | unwritable leaf => cases leaf <;> exact .inl rfl
  | _ => exact .inl rfl

mutual

/-- A tree without comments fails on one line exactly by its first fault. -/
theorem failure_inline : ∀ {t : SExpr}, t.hasComment = false →
    failure (inline t) = firstFault t.parts
  | .list items, h => by
      have all : failure (inlineAll items) = _ := failure_inlineAll h
      rw [firstFault_parts_list, ← all, inline]
      cases inlineAll items <;> rfl
  | .sym _, _ => rfl
  | .int _, _ => rfl
  | .str _, _ => rfl
  | .comment _, h => by cases h
  | .unwritable leaf, _ => by cases leaf <;> rfl

theorem failure_inlineAll : ∀ {items : List SExpr}, anyComment items = false →
    failure (inlineAll items) = firstFault (partsAll items)
  | [], _ => rfl
  | x :: rest, h => by
      rw [anyComment_cons, Bool.or_eq_false_iff] at h
      have first := failure_inline h.1
      have others := failure_inlineAll h.2
      rw [partsAll_cons, firstFault_append, ← first, ← others, inlineAll]
      cases inline x with
      | error e => rfl
      | ok s => cases inlineAll rest <;> rfl

end

theorem oneLine?_of_comment {indent : Int} {items : List SExpr} (h : anyComment items = true) :
    oneLine? indent items = .ok none := by
  rw [oneLine?, if_pos h]

theorem oneLine?_of_free {indent : Int} {items : List SExpr} (h : anyComment items = false) :
    oneLine? indent items = (inline (.list items)).map fun flat =>
      if (margin indent).length + flat.length ≤ maxWidth ∨ ¬ items.any isList then
        some (margin indent ++ flat)
      else none := by
  rw [oneLine?, if_neg (by simp [h])]
  cases inline (.list items) with
  | error e => rfl
  | ok flat =>
      change (if _ then _ else _) = Except.ok (if _ then _ else _)
      split <;> rfl

/-- The attempt to put a list on one line decides nothing that the block would report otherwise. -/
theorem faults_oneLine {indent : Int} {items : List SExpr} {α : Type}
    {f : Option Text → Except LayoutError α} (fits : ∀ line, ∃ a, f (some line) = .ok a)
    (block : Faults (partsAll items) (f none)) :
    Faults (partsAll items) (oneLine? indent items >>= f) := by
  cases comment : anyComment items with
  | true =>
      rw [oneLine?_of_comment comment]
      exact block
  | false =>
      have first : failure (inline (.list items)) = firstFault (partsAll items) :=
        failure_inline comment
      rw [oneLine?_of_free comment]
      cases flat : inline (.list items) with
      | error e =>
          rw [flat] at first
          exact .inl first
      | ok line =>
          rw [flat] at first
          show Faults _ (f (if _ then _ else _))
          split
          · obtain ⟨a, ha⟩ := fits (margin indent ++ line)
            exact .inl (by rw [ha]; exact first)
          · exact block

/-- More trees in front that have no fault of their own. -/
theorem Faults.cons_list {α : Type} {trees items : List SExpr} {x : Except LayoutError α}
    (h : Faults trees x) : Faults (.list items :: trees) x :=
  h.imp_right fun stopped => ⟨stopped.1, List.mem_cons_of_mem _ stopped.2⟩

mutual

/-- **Layouts fail by the leaves**, whatever the depth. -/
theorem faults_lines : ∀ (indent : Int) (t : SExpr), Faults t.parts (lines indent t)
  | _, .comment _ => .inl rfl
  | _, .list [] => .inr ⟨rfl, List.mem_cons_self⟩
  | indent, .list (x :: rest) => by
      rw [lines, parts_list]
      refine Faults.cons_list (faults_oneLine (fun line => ⟨[line], rfl⟩) ?_)
      exact (faults_block (indent + 1) (x :: rest)).bind_pure _
  | indent, .sym _ => .inl rfl
  | indent, .int _ => .inl rfl
  | indent, .str _ => .inl rfl
  | indent, .unwritable leaf => by
      rw [lines_leaf rfl rfl]
      exact (faults_atom rfl).map _

theorem faults_block : ∀ (indent : Int) (items : List SExpr),
    Faults (partsAll items) (block indent items)
  | _, [] => .inl rfl
  | indent, x :: rest => by
      rw [block, partsAll_cons]
      split
      · next isAtom =>
          exact (faults_atom isAtom).bind fun _ => (faults_block indent rest).bind_pure _
      · exact (faults_lines indent x).bind fun _ => (faults_allLines indent rest).bind_pure _

theorem faults_allLines : ∀ (indent : Int) (items : List SExpr),
    Faults (partsAll items) (allLines indent items)
  | _, [] => .inl rfl
  | indent, x :: rest => by
      rw [allLines, partsAll_cons]
      exact (faults_lines indent x).bind fun _ => (faults_allLines indent rest).bind_pure _

end

theorem faults_format (indent : Int) (t : SExpr) : Faults t.parts (format indent t) :=
  (faults_lines indent t).map _

/-- Without an empty list a layout fails exactly by the first fault of the leaves. -/
theorem failure_format {t : SExpr} (filled : .list [] ∉ t.parts) (indent : Int) :
    failure (format indent t) = firstFault t.leaves := by
  rw [firstFault_leaves]
  exact (faults_format indent t).resolve_right fun stopped => filled stopped.2

/-- A comment is never taken for an atom. -/
theorem format_ne_error_comment (indent : Int) (t : SExpr) :
    format indent t ≠ .error (.unsupported .comment) := by
  intro h
  have failed : failure (format indent t) = some (.unsupported .comment) :=
    failure_eq_some_iff.mpr h
  rcases faults_format indent t with first | ⟨stopped, -⟩
  · rw [failed, ← firstFault_leaves] at first
    obtain ⟨front, leaf, behind, split, -, unwritable, refused⟩ :=
      firstFault_eq_some_iff.mp first.symm
    cases leaf with
    | comment text => cases unwritable
    | unwritable leaf => cases leaf <;> cases refused
    | _ => cases refused
  · rw [failed] at stopped
    cases stopped

/-! ## Blocks have an item below their opening line -/

/-- A tree with a comment in it is no atom. -/
theorem not_isAtom_of_hasComment {t : SExpr} (h : t.hasComment = true) : t.isAtom = false := by
  cases t with
  | comment text => rfl
  | list items => rfl
  | _ => cases h

/-- **A list that is laid out as a block has an item behind its leading atoms.** -/
theorem exists_behind_atoms {indent : Int} {items : List SExpr}
    (h : oneLine? indent items = .ok none) : ∃ x ∈ items, x.isAtom = false := by
  cases comment : anyComment items with
  | true =>
      rw [anyComment_eq_any, List.any_eq_true] at comment
      obtain ⟨x, mem, has⟩ := comment
      exact ⟨x, mem, not_isAtom_of_hasComment has⟩
  | false =>
      rw [oneLine?_of_free comment] at h
      obtain ⟨flat, -, h⟩ := except_map_eq_ok.mp h
      split at h
      · cases h
      · next wide =>
          simp only [not_or, not_not, List.any_eq_true] at wide
          obtain ⟨-, x, mem, list⟩ := wide
          refine ⟨x, mem, ?_⟩
          cases x with
          | list items => rfl
          | _ => cases list

end HostGlue.SExpr

import HostGlue.Proofs.Json.Distinct
import HostGlue.Proofs.Lookup

/-!
# Values that differ in the order of members

`Value.Reordered` is the least congruence under which the members of an object may be permuted, at
any depth. What it leaves alone is read off by one inversion, `reordered_cases`: scalars stay, lists
keep their order, and an object has a member for every member. Under distinct names this is a law
about lookups, which is all that a reader of objects can see.
-/

namespace HostGlue.Json

open CodePoint

/-- The two values differ at most in the order of members in their objects. -/
inductive Value.Reordered : Value → Value → Prop
  | refl (v : Value) : Reordered v v
  | trans {u v w : Value} (h : Reordered u v) (h' : Reordered v w) : Reordered u w
  | permuted {members members' : Members} (h : members.Perm members') :
      Reordered (.obj members) (.obj members')
  | member {v w : Value} (front behind : Members) (name : Text) (h : Reordered v w) :
      Reordered (.obj (front ++ (name, v) :: behind)) (.obj (front ++ (name, w) :: behind))
  | item {v w : Value} (front behind : List Value) (h : Reordered v w) :
      Reordered (.arr (front ++ v :: behind)) (.arr (front ++ w :: behind))

/-- The members have one name, and values that differ at most in the order of members. -/
def MemberReordered (m m' : Text × Value) : Prop := m.1 = m'.1 ∧ m.2.Reordered m'.2

/-- The members belong to each other, in whatever order. -/
def MembersReordered (members members' : Members) : Prop :=
  ∃ between, members.Perm between ∧ List.Forall₂ MemberReordered between members'

/-- Lists that are related item by item to one list are related to each other. -/
theorem forall₂_comp {α β γ : Type} {R : α → β → Prop} {S : β → γ → Prop} {T : α → γ → Prop}
    (comp : ∀ a b c, R a b → S b c → T a c) {as : List α} {bs : List β} {cs : List γ}
    (h : List.Forall₂ R as bs) (h' : List.Forall₂ S bs cs) : List.Forall₂ T as cs := by
  induction h generalizing cs with
  | nil =>
      cases h'
      exact .nil
  | cons first _ ih =>
      cases h' with
      | cons first' others' => exact .cons (comp _ _ _ first first') (ih others')

theorem forall₂_reordered_refl (items : List Value) : List.Forall₂ Value.Reordered items items :=
  List.forall₂_same.mpr fun v _ => .refl v

theorem forall₂_memberReordered_refl (members : Members) :
    List.Forall₂ MemberReordered members members :=
  List.forall₂_same.mpr fun m _ => ⟨rfl, .refl m.2⟩

theorem MembersReordered.trans {members members' members'' : Members}
    (h : MembersReordered members members') (h' : MembersReordered members' members'') :
    MembersReordered members members'' := by
  obtain ⟨between, perm, each⟩ := h
  obtain ⟨between', perm', each'⟩ := h'
  -- both permutations are made first: the second one can be made before the values change
  have swapped : Relation.Comp List.Perm (List.Forall₂ MemberReordered) between between' := by
    rw [← List.forall₂_comp_perm_eq_perm_comp_forall₂]
    exact ⟨members', each, perm'⟩
  obtain ⟨last, perm'', each''⟩ := swapped
  refine ⟨last, perm.trans perm'', ?_⟩
  exact forall₂_comp (fun _ _ _ h h' => ⟨h.1.trans h'.1, h.2.trans h'.2⟩) each'' each'

/-- The values are one, lists of corresponding items, or objects with corresponding members. -/
inductive Value.Corresponds : Value → Value → Prop
  | same (v : Value) : Corresponds v v
  | list {items items' : List Value} (h : List.Forall₂ Value.Reordered items items') :
      Corresponds (.arr items) (.arr items')
  | object {members members' : Members} (h : MembersReordered members members') :
      Corresponds (.obj members) (.obj members')

theorem Value.Corresponds.trans {u v w : Value} (h : Corresponds u v) (h' : Corresponds v w) :
    Corresponds u w := by
  cases h with
  | same => exact h'
  | list each =>
      cases h' with
      | same => exact .list each
      | list each' => exact .list (forall₂_comp (fun _ _ _ h h' => h.trans h') each each')
  | object each =>
      cases h' with
      | same => exact .object each
      | object each' => exact .object (each.trans each')

theorem Value.Reordered.corresponds {v w : Value} (h : v.Reordered w) : v.Corresponds w := by
  induction h with
  | refl v => exact .same v
  | trans _ _ ih ih' => exact ih.trans ih'
  | permuted perm => exact .object ⟨_, perm, forall₂_memberReordered_refl _⟩
  | member front behind name h =>
      refine .object ⟨_, .refl _, List.rel_append (forall₂_memberReordered_refl front) ?_⟩
      exact .cons ⟨rfl, h⟩ (forall₂_memberReordered_refl behind)
  | item front behind h =>
      exact .list (List.rel_append (forall₂_reordered_refl front)
        (.cons h (forall₂_reordered_refl behind)))

/-! ## Inversions -/

/-- Nothing in the value can be reordered. -/
def Value.Rigid (v : Value) : Prop := ∀ w, v.Reordered w → w = v

theorem rigid_null : Value.null.Rigid := fun w h => by cases h.corresponds; rfl

theorem rigid_bool (b : Bool) : (Value.bool b).Rigid := fun w h => by cases h.corresponds; rfl

theorem rigid_int (n : Int) : (Value.int n).Rigid := fun w h => by cases h.corresponds; rfl

theorem rigid_float (x : Decimal.Binary64) : (Value.float x).Rigid :=
  fun w h => by cases h.corresponds; rfl

theorem rigid_str (s : Text) : (Value.str s).Rigid := fun w h => by cases h.corresponds; rfl

theorem rigid_arr {items : List Value} (each : ∀ v ∈ items, v.Rigid) : (Value.arr items).Rigid := by
  intro w h
  cases h.corresponds with
  | same => rfl
  | @list _ items' related =>
      have same : List.Forall₂ (· = ·) items items' := by
        have both := (List.forall₂_and_left items items').mpr ⟨each, related⟩
        exact both.imp fun v w h => (h.1 w h.2).symm
      rw [List.forall₂_eq_eq_eq] at same
      rw [same]

theorem obj_reordered {members : Members} {w : Value} (h : (Value.obj members).Reordered w) :
    ∃ members', w = .obj members' ∧ MembersReordered members members' := by
  cases h.corresponds with
  | same => exact ⟨members, rfl, members, .refl _, forall₂_memberReordered_refl _⟩
  | @object _ members' related => exact ⟨members', rfl, related⟩

/-! ## Distinct names -/

theorem Value.Reordered.distinct {v w : Value} (h : v.Reordered w) (apart : v.Distinct) :
    w.Distinct := by
  induction h with
  | refl => exact apart
  | trans _ _ ih ih' => exact ih' (ih apart)
  | permuted perm =>
      obtain ⟨nodup, each⟩ := distinct_obj_iff.mp apart
      refine distinct_obj_iff.mpr ⟨(perm.map _).nodup_iff.mp nodup, fun m mem => ?_⟩
      exact each m (perm.mem_iff.mpr mem)
  | member front behind name _ ih =>
      simp only [distinct_obj_iff, List.map_append, List.map_cons, List.forall_mem_append,
        List.forall_mem_cons] at apart ⊢
      obtain ⟨nodup, first, here, last⟩ := apart
      exact ⟨nodup, first, ih here, last⟩
  | item front behind _ ih =>
      simp only [distinct_arr_iff, List.forall_mem_append, List.forall_mem_cons] at apart ⊢
      obtain ⟨first, here, last⟩ := apart
      exact ⟨first, ih here, last⟩

/-- Under distinct names a name is found in both or in neither. -/
theorem MembersReordered.lookup {members members' : Members} (h : MembersReordered members members')
    (nodup : (members.map (·.1)).Nodup) (name : Text) :
    Option.Rel Value.Reordered (members.lookup name) (members'.lookup name) := by
  obtain ⟨between, perm, each⟩ := h
  rw [lookup_of_perm nodup perm]
  clear perm
  induction each with
  | nil => exact .none
  | @cons m m' _ _ first _ ih =>
      obtain ⟨name', v⟩ := m
      obtain ⟨_, v'⟩ := m'
      obtain ⟨rfl, reordered⟩ := first
      by_cases same : name = name'
      · subst same
        rw [List.lookup_cons_self, List.lookup_cons_self]
        exact .some reordered
      · rw [lookup_cons_ne same, lookup_cons_ne same]
        exact ih

end HostGlue.Json

import HostGlue.Proofs.Interface.Format
import HostGlue.Proofs.Json.Reordered

/-!
# The order of declaration

A manifest is told by lookups among the members of its objects, and only the opcodes are taken in
their order. So values that differ in the order of members describe manifests that differ in the
order of opcodes, as long as no name is repeated; with a repeated name the first member would count
and permuting would choose another.
-/

namespace HostGlue.Interface

open Json

/-- The manifests differ at most in the order of their opcodes. -/
structure Manifest.Reordered (m m' : Manifest) : Prop where
  hostModule : m.hostModule = m'.hostModule
  opcodes : m.opcodes.Perm m'.opcodes

section Members

variable {L : Lexicon} {members members' : Members} {key : Text} {v : Value}

section Lookup

variable (h : Option.Rel Value.Reordered (members.lookup key) (members'.lookup key))

include h

theorem exists_lookup (found : members.lookup key = some v) :
    ∃ w, members'.lookup key = some w ∧ v.Reordered w := by
  rw [found] at h
  generalize members'.lookup key = there at h ⊢
  cases h with
  | some reordered => exact ⟨_, rfl, reordered⟩

/-- A value that cannot be reordered is found where it was. -/
theorem lookup_rigid (rigid : v.Rigid) (found : members.lookup key = some v) :
    members'.lookup key = some v := by
  obtain ⟨w, found', reordered⟩ := exists_lookup h found
  rw [found', rigid w reordered]

theorem lookup_absent (absent : members.lookup key = none) : members'.lookup key = none := by
  rw [absent] at h
  generalize members'.lookup key = there at h ⊢
  cases h with
  | none => rfl

end Lookup

/-- A list of names cannot be reordered. -/
theorem rigid_names {α : Type} (name : α → String) (kinds : List α) :
    (Value.arr (kinds.map fun k => .str (name k))).Rigid := by
  refine rigid_arr fun v mem => ?_
  obtain ⟨k, -, rfl⟩ := List.mem_map.mp mem
  exact rigid_str _

theorem DescribesEntry.of_reordered {d : Descriptor} (h : DescribesEntry L members d)
    (reordered : MembersReordered members members') (nodup : (members.map (·.1)).Nodup) :
    DescribesEntry L members' d where
  name := lookup_rigid (reordered.lookup nodup _) (rigid_str _) h.name
  hostName := h.hostName
  isAsync := h.isAsync.imp (lookup_rigid (reordered.lookup nodup _) (rigid_bool _))
    (And.imp_left (lookup_absent (reordered.lookup nodup _)))
  inputs := lookup_rigid (reordered.lookup nodup _) (rigid_names _ _) h.inputs
  outputs := lookup_rigid (reordered.lookup nodup _) (rigid_names _ _) h.outputs
  single := h.single
  pairing := h.pairing
  note := by
    obtain ⟨name, isAsync, inputs, outputs, note⟩ := d
    cases note with
    | none =>
        exact h.note.imp (lookup_absent (reordered.lookup nodup _))
          (lookup_rigid (reordered.lookup nodup _) rigid_null)
    | some text => exact lookup_rigid (reordered.lookup nodup _) (rigid_str _) h.note

/-- The opcodes are described in the order in which their members stand. -/
theorem DescribesOpcodes.of_reordered {opcodes : List (String × Descriptor)}
    (h : DescribesOpcodes L members opcodes) (reordered : MembersReordered members members')
    (apart : ∀ m ∈ members, m.2.Distinct) :
    ∃ opcodes', DescribesOpcodes L members' opcodes' ∧ opcodes.Perm opcodes' := by
  obtain ⟨between, perm, each⟩ := reordered
  -- the descriptors are permuted with their members, then the members are taken one by one
  obtain ⟨opcodes', described, perm'⟩ := List.perm_comp_forall₂ perm.symm h
  refine ⟨opcodes', ?_, perm'.symm⟩
  have distinct : ∀ m ∈ between, m.2.Distinct := fun m mem => apart m (perm.mem_iff.mpr mem)
  have both := (List.forall₂_and_left between members').mpr ⟨distinct, each⟩
  refine forall₂_comp ?_ (List.Forall₂.flip both) described
  rintro ⟨name, w⟩ ⟨_, v⟩ entry ⟨distinct, rfl, reordered⟩ ⟨key, named, inner, rfl, describes⟩
  obtain ⟨inner', rfl, corresponds⟩ := obj_reordered reordered
  have nodup := (distinct_obj_iff.mp distinct).1
  exact ⟨key, named, inner', rfl, describes.of_reordered corresponds nodup⟩

end Members

/-- **Values that differ in the order of members describe manifests that differ in the order of
opcodes.** -/
theorem Describes.of_reordered {v v' : Value} {m : Manifest} (h : Describes .accepted v m)
    (reordered : v.Reordered v') (apart : v.Distinct) :
    ∃ m', Describes .accepted v' m' ∧ m.Reordered m' := by
  obtain ⟨members, rfl, ⟨version, given, one⟩, hostModule, inner, opcodes, describes⟩ := h
  obtain ⟨nodup, below⟩ := distinct_obj_iff.mp apart
  obtain ⟨members', rfl, corresponds⟩ := obj_reordered reordered
  have related := corresponds.lookup nodup
  obtain ⟨_, opcodes', reorderedInner⟩ := exists_lookup (related ↑"opcodes") opcodes
  obtain ⟨inner', rfl, inners⟩ := obj_reordered reorderedInner
  have innerDistinct := (distinct_obj_iff.mp (below _ ((mem_iff_lookup nodup).mpr opcodes))).2
  obtain ⟨entries, described, perm⟩ := describes.of_reordered inners innerDistinct
  have rigid : version.Rigid := by
    rcases one with (rfl | rfl) | rfl
    · exact rigid_int 1
    · exact rigid_float _
    · exact rigid_bool true
  refine ⟨⟨m.hostModule, entries⟩, ⟨members', rfl, ⟨version, ?_, one⟩, ?_, inner', opcodes',
    described⟩, rfl, perm⟩
  · exact lookup_rigid (related _) rigid given
  · exact hostModule.imp (lookup_rigid (related _) (rigid_str _))
      (And.imp_left (lookup_absent (related _)))

end HostGlue.Interface

import HostGlue.Proofs.Files.Actions
import Mathlib.Data.List.Induction

/-!
# Well-formed trees

A tree is a list of entries, so it can be in states that no file system is in: two entries for one
location, or an entry below nothing. In a well-formed tree neither occurs. Two consequences are used
about a run that adds to a directory: what a directory lists is determined by what stands at its
entries, and the places on a path that hold nothing yet are named by components of that path. The
second fails in general, since double dots or a missing working directory lead to places that no
component names.
-/

namespace HostGlue.Files

namespace Tree

variable {t t' : Tree} {a location : Location}

/-- Every location is entered once. -/
def Distinct (t : Tree) : Prop := (t.entries.map (·.1)).Nodup

instance (t : Tree) : Decidable t.Distinct := inferInstanceAs (Decidable (List.Nodup _))

theorem Distinct.setEntry (h : t.Distinct) (entry : Entry) : (t.setEntry a entry).Distinct := by
  refine List.nodup_cons.mpr ⟨fun mem => ?_, (List.filter_sublist.map _).nodup h⟩
  obtain ⟨e, he, same⟩ := List.mem_map.mp mem
  exact absurd same (by simpa using (List.mem_filter.mp he).2)

theorem Distinct.drop (h : t.Distinct) : (t.drop a).Distinct :=
  (List.filter_sublist.map _).nodup h

/-- No edit enters a location twice. -/
theorem Distinct.apply (h : t.Distinct) (edit : Edit) (applied : edit.apply t = .ok t') :
    t'.Distinct := by
  cases edit with
  | makeDirectory p =>
      obtain ⟨location, -, -, rfl⟩ := makeDirectory_eq_ok_iff.mp applied
      exact h.setEntry _
  | openForWriting p =>
      obtain ⟨location, -, ⟨number, -, rfl⟩ | ⟨-, rfl⟩⟩ := openForWriting_eq_ok_iff.mp applied
      · exact h
      · exact h.setEntry _
  | writeBytes p bytes =>
      obtain ⟨location, number, -, -, rfl⟩ := writeBytes_eq_ok_iff.mp applied
      exact h
  | replace p target =>
      obtain ⟨source, goal, entry, located, reached, held, free⟩ := replace_eq_ok applied
      rcases replace_of_located located reached held free with ⟨-, moved⟩ | ⟨-, moved⟩
      · cases applied.symm.trans moved
        exact h
      · cases applied.symm.trans moved
        exact h.drop.setEntry _

theorem mem_entries_iff : (∃ entry, (a, entry) ∈ t.entries) ↔ t.entries.lookup a ≠ none := by
  rw [ne_eq, List.lookup_eq_none_iff, not_forall]
  constructor
  · rintro ⟨entry, mem⟩
    exact ⟨(a, entry), by simp [mem]⟩
  · rintro ⟨⟨b, entry⟩, h⟩
    simp only [not_forall] at h
    obtain ⟨mem, same⟩ := h
    obtain rfl : a = b := by simpa using same
    exact ⟨entry, mem⟩

/-- The location of an entry is that of the directory and the name. -/
theorem name_eq_some_iff {name : String} :
    (if a.dropLast = location then a.getLast? else none) = some name ↔ a = location ++ [name] := by
  constructor
  · intro h
    split at h
    · next same =>
        obtain ⟨above, rfl⟩ := List.getLast?_eq_some_iff.mp h
        rw [List.dropLast_concat] at same
        rw [same]
    · cases h
  · rintro rfl
    simp

/-- A directory lists the names under which something stands in it. -/
theorem mem_namesIn_iff {name : String} :
    name ∈ t.namesIn location ↔ t.entry (location ++ [name]) ≠ none := by
  rw [namesIn, List.mem_mergeSort, List.mem_filterMap, entry, if_neg (by simp), ← mem_entries_iff]
  simp only [name_eq_some_iff]
  constructor
  · rintro ⟨⟨a, entry⟩, mem, rfl⟩
    exact ⟨entry, mem⟩
  · rintro ⟨entry, mem⟩
    exact ⟨_, mem, rfl⟩

end Tree

end HostGlue.Files

import HostGlue.NameMap
import Mathlib.Data.List.Perm.Basic

/-!
# Looking up a name

A list of named entries as a map: what is found under a name, and that the order of the entries does
not matter where their names are distinct. Such a list is told by its names in their order and by
what is found under them.
-/

namespace HostGlue

variable {κ α β : Type} [BEq κ] [LawfulBEq κ]

theorem mem_iff_lookup {l : List (κ × α)} (nodup : (l.map (·.1)).Nodup)
    {name : κ} {v : α} : (name, v) ∈ l ↔ l.lookup name = some v := by
  induction l with
  | nil => simp
  | cons entry rest ih =>
      obtain ⟨other, w⟩ := entry
      rw [List.map_cons, List.nodup_cons] at nodup
      by_cases same : name = other
      · subst same
        have absent : (name, v) ∉ rest := fun mem => nodup.1 (List.mem_map.mpr ⟨_, mem, rfl⟩)
        simp [absent, eq_comm]
      · rw [lookup_cons_ne same, ← ih nodup.2]
        simp [same]

theorem lookup_eq_none_of_not_mem {l : List (κ × α)} {key : κ}
    (h : key ∉ l.map (·.1)) : l.lookup key = none := by
  rw [List.lookup_eq_none_iff]
  intro entry mem
  rw [bne_iff_ne]
  rintro rfl
  exact h (List.mem_map_of_mem mem)

theorem lookup_map_snd (f : α → β) (l : List (κ × α)) (key : κ) :
    (l.map fun e => (e.1, f e.2)).lookup key = (l.lookup key).map f := by
  induction l with
  | nil => rfl
  | cons entry rest ih =>
      obtain ⟨name, v⟩ := entry
      by_cases same : key = name
      · subst same
        simp
      · rw [List.map_cons, lookup_cons_ne same, lookup_cons_ne same, ih]

/-- Where names are distinct it does not matter in which order they stand. -/
theorem lookup_of_perm {l l' : List (κ × α)} (nodup : (l.map (·.1)).Nodup)
    (perm : l.Perm l') (key : κ) : l.lookup key = l'.lookup key := by
  ext v
  rw [← mem_iff_lookup nodup, ← mem_iff_lookup ((perm.map _).nodup_iff.mp nodup), perm.mem_iff]

/-- Entries under distinct names are told by the names and what is found under them. -/
theorem eq_of_lookup {l l' : List (κ × α)}
    (names : l.map (·.1) = l'.map (·.1)) (nodup : (l.map (·.1)).Nodup)
    (held : ∀ name, l.lookup name = l'.lookup name) : l = l' := by
  have size : l.length = l'.length := by simpa using congrArg List.length names
  refine List.ext_getElem size fun i hi hi' => ?_
  have same : l[i].1 = l'[i].1 := by
    have listed : (l.map (·.1))[i]? = (l'.map (·.1))[i]? := by rw [names]
    simpa [hi, hi'] using listed
  have found : l.lookup l[i].1 = some l[i].2 := (mem_iff_lookup nodup).mp (List.getElem_mem hi)
  have found' : l'.lookup l'[i].1 = some l'[i].2 :=
    (mem_iff_lookup (names ▸ nodup)).mp (List.getElem_mem hi')
  rw [held, same, found'] at found
  exact Prod.ext same (Option.some.inj found).symm

end HostGlue

import HostGlue.Text.CodePoint

/-!
# Maps that remember their order

A finite map from names to values, as the list of its entries in the order in which the names first
came. Setting the value of a name that is present leaves every name at its place; a new name goes to
the end. Main statements: the names after `insert`, and the value of every name after it.
-/

namespace HostGlue

/-- Sets the value of a name in a list of entries. -/
def putEntry {α : Type} (name : Text) (v : α) : List (Text × α) → List (Text × α)
  | [] => [(name, v)]
  | (other, w) :: rest =>
    if other = name then (name, v) :: rest else (other, w) :: putEntry name v rest

theorem map_fst_putEntry {α : Type} (name : Text) (v : α) (l : List (Text × α)) :
    (putEntry name v l).map (·.1) =
      if name ∈ l.map (·.1) then l.map (·.1) else l.map (·.1) ++ [name] := by
  induction l with
  | nil => simp [putEntry]
  | cons entry rest ih =>
    obtain ⟨other, w⟩ := entry
    by_cases here : other = name
    · simp [putEntry, here]
    · simp only [putEntry, if_neg here, List.map_cons, ih, List.mem_cons]
      by_cases there : name ∈ rest.map (·.1)
      · simp [there]
      · simp [there, Ne.symm here]

theorem lookup_cons_ne {κ α : Type} [BEq κ] [LawfulBEq κ] {key other : κ} (h : key ≠ other) (w : α)
    (l : List (κ × α)) : ((other, w) :: l).lookup key = l.lookup key := by
  simp [List.lookup_cons, beq_eq_false_iff_ne.mpr h]

theorem lookup_putEntry {α : Type} (name : Text) (v : α) (l : List (Text × α)) (key : Text) :
    (putEntry name v l).lookup key = if key = name then some v else l.lookup key := by
  induction l with
  | nil =>
    by_cases h : key = name
    · simp [putEntry, h]
    · rw [putEntry, lookup_cons_ne h, if_neg h]
  | cons entry rest ih =>
    obtain ⟨other, w⟩ := entry
    by_cases here : other = name
    · subst here
      by_cases h : key = other
      · simp [putEntry, h]
      · rw [putEntry, if_pos rfl, lookup_cons_ne h, lookup_cons_ne h, if_neg h]
    · by_cases h : key = other
      · subst h
        simp [putEntry, here]
      · rw [putEntry, if_neg here, lookup_cons_ne h, lookup_cons_ne h, ih]

/-- A finite map from names to values in order of insertion. -/
structure NameMap (α : Type) where
  entries : List (Text × α)
  nodup : (entries.map (·.1)).Nodup

namespace NameMap

variable {α : Type}

def empty : NameMap α := ⟨[], by simp⟩

def names (m : NameMap α) : List Text := m.entries.map (·.1)

def get? (m : NameMap α) (name : Text) : Option α := m.entries.lookup name

def insert (m : NameMap α) (name : Text) (v : α) : NameMap α where
  entries := putEntry name v m.entries
  nodup := by
    rw [map_fst_putEntry]
    split
    · exact m.nodup
    · rename_i absent
      rw [List.nodup_append]
      refine ⟨m.nodup, by simp, ?_⟩
      intro a present b new
      rw [List.mem_singleton.mp new]
      rintro rfl
      exact absent present

/-- The map after setting every entry in turn; of two entries with one name the later counts. -/
def insertAll (m : NameMap α) (l : List (Text × α)) : NameMap α :=
  l.foldl (fun m entry => m.insert entry.1 entry.2) m

def ofList (l : List (Text × α)) : NameMap α := empty.insertAll l

/-- The entries in the order of their names' code points. -/
def sorted (m : NameMap α) : List (Text × α) := m.entries.mergeSort fun a b => a.1 ≤ b.1

theorem names_insert (m : NameMap α) (name : Text) (v : α) :
    (m.insert name v).names = if name ∈ m.names then m.names else m.names ++ [name] :=
  map_fst_putEntry name v m.entries

theorem get?_insert (m : NameMap α) (name : Text) (v : α) (key : Text) :
    (m.insert name v).get? key = if key = name then some v else m.get? key :=
  lookup_putEntry name v m.entries key

/-- Both maps have the same names, in whatever order. -/
def sameNames (a b : NameMap α) : Bool :=
  a.names.all (b.names.contains ·) && b.names.all (a.names.contains ·)

end NameMap

end HostGlue

import HostGlue.Proofs.Document.Entries
import Mathlib.Data.List.Lex

/-!
# Merging fragments

A document is told by its names in their order and by what stands under each of them, so the laws of
merging come from two facts: which names a merge adds, and what is found under a name behind it. The
second is a choice between two lookups, in which the later fragments win. It does not see any order,
and the text sees nothing but lookups.

The order of names is a matter of its own. A name keeps the place at which it first came, so two
merges in turn may leave the names in another order than one merge of all fragments.
-/

namespace HostGlue

namespace NameMap

variable {α : Type}

/-- **Maps with the same names in the same order and the same values are equal.** -/
theorem eq_of_get? {m n : NameMap α} (names : m.names = n.names)
    (held : ∀ name, m.get? name = n.get? name) : m = n := by
  obtain ⟨entries, nodup⟩ := m
  obtain ⟨entries', nodup'⟩ := n
  obtain rfl : entries = entries' := eq_of_lookup names nodup held
  rfl

/-- The entries of both maps, those of the second under names that both have. -/
def overriddenBy (m n : NameMap α) : NameMap α := m.insertAll n.entries

theorem get?_overriddenBy (m n : NameMap α) (name : Text) :
    (m.overriddenBy n).get? name = (n.get? name).or (m.get? name) :=
  get?_insertAll_of_nodup m n.nodup name

/-- Both maps have the same value under every name that they share. -/
def Agree (m n : NameMap α) : Prop :=
  ∀ name v w, m.get? name = some v → n.get? name = some w → v = w

theorem agree_of_apart {m n : NameMap α}
    (apart : ∀ name, m.get? name = none ∨ n.get? name = none) : m.Agree n := by
  intro name v w hv hw
  rcases apart name with none | none
  · cases hv.symm.trans none
  · cases hw.symm.trans none

end NameMap

/-- There are no surrogates in the fragments. -/
def Fragments.IsScalar (f : Fragments) : Prop := ∀ e ∈ f.entries, e.1.IsScalar ∧ e.2.IsScalar

namespace Document

variable (doc : Document) {f g : Fragments}

/-! ## Order -/

/-- The names that were there keep their places, and the new ones follow. -/
theorem names_merge_append (f : Fragments) :
    (doc.merge f).names = doc.names ++ newNames f doc.names := by
  rw [names_merge, joinNames_of_nodup _ f.sorted_nodup]
  rfl

/-- In which order fragments were found does not matter. -/
theorem merge_congr (same : ∀ name, f.get? name = g.get? name) : doc.merge f = doc.merge g := by
  rw [merge, merge, NameMap.sorted_eq_iff.mpr same]

/-- Fragments that were merged are not new. -/
theorem newNames_merge (f : Fragments) : newNames f (doc.merge f).names = [] := by
  refine List.eq_nil_iff_forall_not_mem.mpr fun name mem => ?_
  obtain ⟨found, absent⟩ := (mem_newNames f).mp mem
  refine absent (NameMap.mem_names_iff.mpr ?_)
  rw [get?_merge]
  cases code : f.get? name with
  | none => exact absurd code found
  | some code => simp

/-- Merging again changes nothing, not even the order. -/
theorem merge_merge_self (f : Fragments) : (doc.merge f).merge f = doc.merge f := by
  refine NameMap.eq_of_get? ?_ fun name => ?_
  · rw [names_merge_append, newNames_merge, List.append_nil]
  · rw [get?_merge, get?_merge, ← Option.or_assoc, Option.or_self]

/-! ## Two merges -/

/-- Two merges hold what one merge of all fragments holds. -/
theorem get?_merge_merge (f g : Fragments) (name : Text) :
    ((doc.merge f).merge g).get? name = (doc.merge (f.overriddenBy g)).get? name := by
  rw [get?_merge, get?_merge, get?_merge, NameMap.get?_overriddenBy, Option.map_or, Option.or_assoc]

/-- Two merges can be exchanged under a name exactly if the codes there agree. -/
theorem get?_merge_comm_iff {name : Text} :
    ((doc.merge f).merge g).get? name = ((doc.merge g).merge f).get? name ↔
      ∀ code other, f.get? name = some code → g.get? name = some other → code = other := by
  rw [get?_merge, get?_merge, get?_merge, get?_merge]
  cases f.get? name <;> cases g.get? name <;> simp [eq_comm]

/-- Two merges can be exchanged exactly if the fragments agree. -/
theorem merge_comm_iff : (∀ name, ((doc.merge f).merge g).get? name =
    ((doc.merge g).merge f).get? name) ↔ f.Agree g :=
  forall_congr' fun _ => get?_merge_comm_iff doc

theorem isScalar_merge {doc : Document} (scalar : doc.IsScalar) (fragments : f.IsScalar) :
    (doc.merge f).IsScalar := by
  refine isScalar_iff.mpr fun name a held => ?_
  rw [get?_merge] at held
  cases code : f.get? name with
  | none =>
      rw [code] at held
      exact isScalar_iff.mp scalar name a held
  | some text =>
      rw [code] at held
      cases held
      have entry := fragments _ ((mem_iff_lookup f.nodup).mpr code)
      exact ⟨entry.1, entry.2, nofun⟩

/-- Without surrogates the texts tell whether two merges can be exchanged. -/
theorem text_merge_comm_iff {doc : Document} (scalar : doc.IsScalar) (hf : f.IsScalar)
    (hg : g.IsScalar) :
    ((doc.merge f).merge g).text = ((doc.merge g).merge f).text ↔ f.Agree g := by
  rw [text_eq_iff, listed_eq_iff (isScalar_merge (isScalar_merge scalar hf) hg)
    (isScalar_merge (isScalar_merge scalar hg) hf), merge_comm_iff]

/-! ## All laws -/

/-- **Merging is a union in which the fragments win.** A document is a value: merging makes a new
one and leaves the given one as it is. In the new one the names of the given one keep their places,
and the new names follow in the order of their code points. Under the name of a fragment stands its
code, without an import, and under every other name what stood there. In which order fragments were
found does not matter, and merging them again changes nothing, not even the order. Merging two sets
of fragments in turn makes the same map, and the same text, as merging at once the first overridden
by the second. The two can be exchanged exactly if they agree under the names that they share, and
the text tells it where there are no surrogates; so whenever they share no name the text is the
same. -/
theorem merge_union (doc : Document) (f g : Fragments) :
    (∃ further : List Text, further.Pairwise (· < ·) ∧
      (∀ name, name ∈ further ↔ f.get? name ≠ none ∧ name ∉ doc.names) ∧
      (doc.merge f).names = doc.names ++ further) ∧
    (∀ name code, f.get? name = some code →
      (doc.merge f).get? name = some { code, imports := none }) ∧
    (∀ name, f.get? name = none → (doc.merge f).get? name = doc.get? name) ∧
    (∀ f' : Fragments, (∀ name, f'.get? name = f.get? name) → doc.merge f' = doc.merge f) ∧
    (doc.merge f).merge f = doc.merge f ∧
    ((∀ name, (f.overriddenBy g).get? name = (g.get? name).or (f.get? name)) ∧
      (∀ name, ((doc.merge f).merge g).get? name = (doc.merge (f.overriddenBy g)).get? name) ∧
      ((doc.merge f).merge g).text = (doc.merge (f.overriddenBy g)).text) ∧
    ((∀ name, ((doc.merge f).merge g).get? name = ((doc.merge g).merge f).get? name) ↔
      f.Agree g) ∧
    (doc.IsScalar → f.IsScalar → g.IsScalar →
      (((doc.merge f).merge g).text = ((doc.merge g).merge f).text ↔ f.Agree g)) ∧
    ((∀ name, f.get? name = none ∨ g.get? name = none) →
      ((doc.merge f).merge g).text = ((doc.merge g).merge f).text) := by
  refine ⟨⟨newNames f doc.names, newNames_lt _ _, fun _ => mem_newNames f,
    names_merge_append doc f⟩, ?_, ?_, fun f' same => merge_congr doc same, merge_merge_self doc f,
    ⟨NameMap.get?_overriddenBy f g, get?_merge_merge doc f g,
      text_congr (get?_merge_merge doc f g)⟩, merge_comm_iff doc, text_merge_comm_iff,
    fun apart => text_congr ((merge_comm_iff doc).mpr (NameMap.agree_of_apart apart))⟩
  · intro name code fragment
    rw [get?_merge, fragment]
    rfl
  · intro name plain
    rw [get?_merge, plain]
    rfl

/-- A document with one generated function. -/
def generatedGas : Document :=
  .ofList [("GAS", { code := "(func $GAS (call $gas))", imports := some "(import \"m\" \"gas\")" })]

/-- The function by hand, and one that is new. -/
def gasFragments : Fragments := .ofList [("NOT", "(func $NOT)"), ("GAS", "(func $GAS)")]

/-- A further fragment, whose name comes before the new one. -/
def furtherFragments : Fragments := .ofList [("AND", "(func $AND)")]

/-- The further name stands last if it is merged in turn and second if it is merged at once, and the
text is the same. -/
theorem gas_merged_in_turn :
    gasFragments.get? "GAS" = some "(func $GAS)" ∧
    (generatedGas.merge gasFragments).get? "GAS" = some { code := "(func $GAS)" } ∧
    (∀ name, gasFragments.get? name = none ∨ furtherFragments.get? name = none) ∧
    ((generatedGas.merge gasFragments).merge furtherFragments).text =
      ((generatedGas.merge furtherFragments).merge gasFragments).text ∧
    ((generatedGas.merge gasFragments).merge furtherFragments).text =
      (generatedGas.merge (gasFragments.overriddenBy furtherFragments)).text ∧
    ((generatedGas.merge gasFragments).merge furtherFragments).names = [↑"GAS", ↑"NOT", ↑"AND"] ∧
    (generatedGas.merge (gasFragments.overriddenBy furtherFragments)).names =
      [↑"GAS", ↑"AND", ↑"NOT"] := by
  have apart (name : Text) :
      gasFragments.get? name = none ∨ furtherFragments.get? name = none := by
    by_cases here : name = ↑"AND"
    · exact .inl (here ▸ rfl)
    · exact .inr (lookup_cons_ne here _ _)
  obtain ⟨-, code, -, -, -, ⟨-, -, atOnce⟩, -, -, exchange⟩ :=
    merge_union generatedGas gasFragments furtherFragments
  have two : gasFragments.sorted = [(↑"GAS", ↑"(func $GAS)"), (↑"NOT", ↑"(func $NOT)")] :=
    NameMap.sorted_eq_of_perm (by decide) (by decide)
  have one : furtherFragments.sorted = [(↑"AND", ↑"(func $AND)")] :=
    NameMap.sorted_eq_of_perm (by decide) (by decide)
  have all : (gasFragments.overriddenBy furtherFragments).sorted =
      [(↑"AND", ↑"(func $AND)"), (↑"GAS", ↑"(func $GAS)"), (↑"NOT", ↑"(func $NOT)")] :=
    NameMap.sorted_eq_of_perm (by decide) (by decide)
  refine ⟨rfl, code "GAS" _ rfl, apart, exchange apart, atOnce, ?_, ?_⟩
  · rw [names_merge_append, names_merge_append, newNames, newNames, two, one]
    decide
  · rw [names_merge_append, newNames, all]
    decide

end Document

end HostGlue

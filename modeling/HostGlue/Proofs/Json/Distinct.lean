import HostGlue.Proofs.Json.Reading

/-!
# Distinct names

A reader that refuses repeated names accepts what a reader accepts that keeps every member, as long
as the names in every object are distinct, and reads it alike. The objects are closed at every depth
of the recursion, so the law is one induction over the fuel for values, items and members together.
-/

namespace HostGlue.Json

open CodePoint

mutual

/-- In every object of the value the names are distinct. -/
def Value.Distinct : Value → Prop
  | .arr items => itemsDistinct items
  | .obj members => (members.map (·.1)).Nodup ∧ membersDistinct members
  | _ => True

def itemsDistinct : List Value → Prop
  | [] => True
  | v :: rest => v.Distinct ∧ itemsDistinct rest

def membersDistinct : Members → Prop
  | [] => True
  | (_, v) :: rest => v.Distinct ∧ membersDistinct rest

end

theorem itemsDistinct_iff {items : List Value} : itemsDistinct items ↔ ∀ v ∈ items, v.Distinct := by
  induction items with
  | nil => simp [itemsDistinct]
  | cons v rest ih => rw [itemsDistinct, ih, List.forall_mem_cons]

theorem membersDistinct_iff {members : Members} :
    membersDistinct members ↔ ∀ m ∈ members, m.2.Distinct := by
  induction members with
  | nil => simp [membersDistinct]
  | cons m rest ih => rw [membersDistinct, ih, List.forall_mem_cons]

theorem distinct_arr_iff {items : List Value} :
    (Value.arr items).Distinct ↔ ∀ v ∈ items, v.Distinct := by
  rw [Value.Distinct, itemsDistinct_iff]

theorem distinct_obj_iff {members : Members} :
    (Value.obj members).Distinct ↔ (members.map (·.1)).Nodup ∧ ∀ m ∈ members, m.2.Distinct := by
  rw [Value.Distinct, membersDistinct_iff]

/-! ## Closing an object -/

theorem repeatedName?_eq_none_iff {seen : List Text} {members : Members} :
    repeatedName? seen members = none ↔
      (members.map (·.1)).Nodup ∧ ∀ name ∈ seen, name ∉ members.map (·.1) := by
  induction members generalizing seen with
  | nil => simp [repeatedName?]
  | cons m rest ih =>
      obtain ⟨name, v⟩ := m
      rw [repeatedName?]
      by_cases known : name ∈ seen
      · rw [if_pos (List.contains_iff_mem.mpr known)]
        refine iff_of_false (Option.some_ne_none _) fun h => ?_
        exact h.2 name known List.mem_cons_self
      · rw [if_neg (mt List.contains_iff_mem.mp known), ih]
        simp only [List.map_cons, List.nodup_cons, List.mem_cons, forall_eq_or_imp, not_or]
        constructor
        · rintro ⟨nodup, absent, others⟩
          exact ⟨⟨absent, nodup⟩, fun s hs => ⟨fun same => known (same ▸ hs), others s hs⟩⟩
        · rintro ⟨⟨absent, nodup⟩, others⟩
          exact ⟨nodup, absent, fun s hs => (others s hs).2⟩

/-- The rule for distinct names lets members stand whose names are distinct, and refuses others. -/
theorem distinct_eq_ok_iff {members kept : Members} :
    distinct members = .ok kept ↔ (members.map (·.1)).Nodup ∧ kept = members := by
  have free := @repeatedName?_eq_none_iff [] members
  simp only [List.not_mem_nil, false_implies, implies_true, and_true] at free
  rw [distinct, ← free]
  cases repeatedName? [] members <;> simp [eq_comm]

/-! ## Reading -/

theorem unsigned?_cases {negative : Bool} {cs left : Text} {v : Value}
    (h : unsigned? negative cs = some (v, left)) : (∃ n, v = .int n) ∨ ∃ x, v = .float x := by
  unfold unsigned? at h
  simp only [Option.bind_eq_bind, Option.bind_eq_some_iff, Prod.exists] at h
  obtain ⟨whole, rest, -, h⟩ := h
  split at h
  · cases h
    exact .inl ⟨_, rfl⟩
  · cases h
    exact .inr ⟨_, rfl⟩

/-- The value is no list and no object. -/
def Value.isScalar : Value → Bool
  | .arr _ => false
  | .obj _ => false
  | _ => true

theorem ScalarRead.isScalar {cs left : Text} {v : Value} (h : ScalarRead cs v left) :
    v.isScalar = true := by
  cases h with
  | string => rfl
  | word mem =>
      simp only [words, List.mem_cons, Prod.mk.injEq, List.not_mem_nil, or_false] at mem
      rcases mem with ⟨-, rfl⟩ | ⟨-, rfl⟩ | ⟨-, rfl⟩ | ⟨-, rfl⟩ | ⟨-, rfl⟩ | ⟨-, rfl⟩
      all_goals rfl
  | number number =>
      have numeric : (∃ n, v = .int n) ∨ ∃ x, v = .float x := by
        unfold number? at number
        split at number
        · exact unsigned?_cases number
        · exact unsigned?_cases number
      obtain ⟨_, rfl⟩ | ⟨_, rfl⟩ := numeric
      · rfl
      · rfl

/-- No scalar has an object in it. -/
theorem distinct_of_isScalar {v : Value} (h : v.isScalar = true) : v.Distinct := by
  cases v with
  | arr items => cases h
  | obj members => cases h
  | _ => trivial

/-- At the given fuel, reading with distinct names is reading every member where the names are
distinct. -/
structure ReadsDistinct (fuel : Nat) : Prop where
  value : ∀ cs v left, readValue distinct fuel cs = .ok (v, left) ↔
    readValue asWritten fuel cs = .ok (v, left) ∧ v.Distinct
  items : ∀ cs vs left, readItems distinct fuel cs = .ok (vs, left) ↔
    readItems asWritten fuel cs = .ok (vs, left) ∧ itemsDistinct vs
  members : ∀ cs ms left, readMembers distinct fuel cs = .ok (ms, left) ↔
    readMembers asWritten fuel cs = .ok (ms, left) ∧ membersDistinct ms

namespace ReadsDistinct

variable {fuel : Nat} (h : ReadsDistinct fuel) {cs rest left : Text}

include h

theorem list {v : Value} : readValue distinct (fuel + 1) (char '[' :: rest) = .ok (v, left) ↔
    readValue asWritten (fuel + 1) (char '[' :: rest) = .ok (v, left) ∧ v.Distinct := by
  simp only [readValue_bracket_eq_ok_iff, h.items]
  constructor
  · rintro ⟨vs, rfl, ⟨empty, rfl⟩ | ⟨read, apart⟩⟩
    · exact ⟨⟨[], rfl, .inl ⟨empty, rfl⟩⟩, trivial⟩
    · exact ⟨⟨vs, rfl, .inr read⟩, apart⟩
  · rintro ⟨⟨vs, rfl, ⟨empty, rfl⟩ | read⟩, apart⟩
    · exact ⟨[], rfl, .inl ⟨empty, rfl⟩⟩
    · exact ⟨vs, rfl, .inr ⟨read, apart⟩⟩

theorem object {v : Value} : readValue distinct (fuel + 1) (char '\x7b' :: rest) = .ok (v, left) ↔
    readValue asWritten (fuel + 1) (char '\x7b' :: rest) = .ok (v, left) ∧ v.Distinct := by
  simp only [readValue_brace_eq_ok_iff, h.members, distinct_eq_ok_iff]
  constructor
  · rintro ⟨_, ms, ⟨nodup, rfl⟩, rfl, ⟨empty, rfl⟩ | ⟨read, apart⟩⟩
    · exact ⟨⟨[], [], rfl, rfl, .inl ⟨empty, rfl⟩⟩, nodup, trivial⟩
    · exact ⟨⟨ms, ms, rfl, rfl, .inr read⟩, nodup, apart⟩
  · rintro ⟨⟨ms, kept, closes, rfl, read⟩, nodup, apart⟩
    obtain rfl : ms = kept := Except.ok.inj closes
    exact ⟨ms, ms, ⟨nodup, rfl⟩, rfl, read.imp_right fun read => ⟨read, apart⟩⟩

theorem items_succ {vs : List Value} : readItems distinct (fuel + 1) cs = .ok (vs, left) ↔
    readItems asWritten (fuel + 1) cs = .ok (vs, left) ∧ itemsDistinct vs := by
  simp only [readItems_eq_ok_iff, h.value, h.items]
  constructor
  · rintro ⟨v, behind, ⟨read, first⟩, ⟨closed, rfl⟩ | ⟨rest, others, comma, ⟨more, apart⟩, rfl⟩⟩
    · exact ⟨⟨v, behind, read, .inl ⟨closed, rfl⟩⟩, first, trivial⟩
    · exact ⟨⟨v, behind, read, .inr ⟨rest, others, comma, more, rfl⟩⟩, first, apart⟩
  · rintro ⟨⟨v, behind, read, ⟨closed, rfl⟩ | ⟨rest, others, comma, more, rfl⟩⟩, first, apart⟩
    · exact ⟨v, behind, ⟨read, first⟩, .inl ⟨closed, rfl⟩⟩
    · exact ⟨v, behind, ⟨read, first⟩, .inr ⟨rest, others, comma, ⟨more, apart⟩, rfl⟩⟩

theorem behind {m : Text × Value} {ms : Members} :
    behindMember distinct fuel m cs = .ok (ms, left) ∧ m.2.Distinct ↔
      behindMember asWritten fuel m cs = .ok (ms, left) ∧ membersDistinct ms := by
  simp only [behindMember_eq_ok_iff, h.members]
  constructor
  · rintro ⟨⟨closed, rfl⟩ | ⟨rest, others, comma, ⟨read, apart⟩, rfl⟩, first⟩
    · exact ⟨.inl ⟨closed, rfl⟩, first, trivial⟩
    · exact ⟨.inr ⟨rest, others, comma, read, rfl⟩, first, apart⟩
  · rintro ⟨⟨closed, rfl⟩ | ⟨rest, others, comma, read, rfl⟩, first, apart⟩
    · exact ⟨.inl ⟨closed, rfl⟩, first⟩
    · exact ⟨.inr ⟨rest, others, comma, ⟨read, apart⟩, rfl⟩, first⟩

theorem members_succ {ms : Members} : readMembers distinct (fuel + 1) cs = .ok (ms, left) ↔
    readMembers asWritten (fuel + 1) cs = .ok (ms, left) ∧ membersDistinct ms := by
  simp only [readMembers_eq_ok_iff, h.value]
  constructor
  · rintro ⟨body, name, rest, text, v, behind, quote, named, colon, ⟨read, first⟩, closes⟩
    obtain ⟨closes, apart⟩ := h.behind.mp ⟨closes, first⟩
    exact ⟨⟨body, name, rest, text, v, behind, quote, named, colon, read, closes⟩, apart⟩
  · rintro ⟨⟨body, name, rest, text, v, behind, quote, named, colon, read, closes⟩, apart⟩
    obtain ⟨closes, first⟩ := h.behind.mpr ⟨closes, apart⟩
    exact ⟨body, name, rest, text, v, behind, quote, named, colon, ⟨read, first⟩, closes⟩

end ReadsDistinct

theorem readsDistinct (fuel : Nat) : ReadsDistinct fuel := by
  induction fuel with
  | zero => constructor <;> simp [readValue, readItems, readMembers]
  | succ fuel ih =>
      refine ⟨fun cs v left => ?_, fun _ _ _ => ih.items_succ, fun _ _ _ => ih.members_succ⟩
      by_cases opens : Opens cs
      · obtain ⟨rest, rfl | rfl⟩ := opens
        · exact ih.list
        · exact ih.object
      · rw [readValue_eq_ok_iff opens, readValue_eq_ok_iff opens]
        exact ⟨fun read => ⟨read, distinct_of_isScalar read.isScalar⟩, And.left⟩

/-- **A text is read with distinct names exactly if it is read with every member and the names in
every object are distinct**, and as the same value. -/
theorem read_distinct_iff {text : Text} {v : Value} :
    Json.read distinct text = .ok v ↔ Json.read asWritten text = .ok v ∧ v.Distinct := by
  have value := (readsDistinct (enough (skipBlanks text))).value
  unfold Json.read readText
  simp only [except_mapError_eq_ok]
  split
  · simp
  · simp only [except_bind_eq_ok, Prod.exists, value]
    constructor
    · rintro ⟨w, left, ⟨read, apart⟩, h⟩
      split at h
      · cases h
        exact ⟨⟨v, left, read, by simp [*]⟩, apart⟩
      · cases h
    · rintro ⟨⟨w, left, read, h⟩, apart⟩
      split at h
      · cases h
        exact ⟨v, left, ⟨read, apart⟩, by simp [*]⟩
      · cases h

end HostGlue.Json

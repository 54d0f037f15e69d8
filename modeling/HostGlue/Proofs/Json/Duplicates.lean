import HostGlue.Proofs.Json.Distinct
import HostGlue.Proofs.Json.Derivations

/-!
# The name that is refused

A reader that refuses repeated names sees one object at a time, and sees it at its closing brace. So
inner objects come before outer ones, and a text in which names repeat in several objects is refused
for the one that is closed first. `Value.closed` lists the objects of a value in this order. To read
with distinct names is to read every member and then to go through the list: `read_distinct_eq`.
-/

namespace HostGlue.Json

open CodePoint

mutual

/-- The objects in the value, in the order in which they are closed. -/
def Value.closed : Value → List Members
  | .arr items => itemsClosed items
  | .obj members => membersClosed members ++ [members]
  | _ => []

def itemsClosed : List Value → List Members
  | [] => []
  | v :: rest => v.closed ++ itemsClosed rest

def membersClosed : Members → List Members
  | [] => []
  | (_, v) :: rest => v.closed ++ membersClosed rest

end

/-! ## The first repeated name -/

/-- The first member whose name stands on a member before it has this name. -/
def FirstRepeated (name : Text) (members : Members) : Prop :=
  ∃ front value behind, members = front ++ (name, value) :: behind ∧
    (front.map (·.1)).Nodup ∧ name ∈ front.map (·.1)

theorem repeatedName?_eq_some_iff {seen : List Text} {members : Members} {name : Text} :
    repeatedName? seen members = some name ↔ ∃ front value behind,
      members = front ++ (name, value) :: behind ∧ repeatedName? seen front = none ∧
        (name ∈ seen ∨ name ∈ front.map (·.1)) := by
  induction members generalizing seen with
  | nil => simp [repeatedName?]
  | cons m rest ih =>
      obtain ⟨first, v⟩ := m
      rw [repeatedName?]
      by_cases known : seen.contains first = true
      · rw [if_pos known]
        constructor
        · rintro ⟨⟩
          exact ⟨[], v, rest, rfl, rfl, .inl (List.contains_iff_mem.mp known)⟩
        · rintro ⟨front, value, behind, split, free, -⟩
          cases front with
          | nil =>
              cases split
              rfl
          | cons m front =>
              cases split
              rw [repeatedName?, if_pos known] at free
              cases free
      · rw [if_neg known, ih]
        constructor
        · rintro ⟨front, value, behind, rfl, free, mem⟩
          refine ⟨(first, v) :: front, value, behind, rfl, ?_, ?_⟩
          · rw [repeatedName?, if_neg known, free]
          · simpa [or_assoc, or_left_comm] using mem
        · rintro ⟨front, value, behind, split, free, mem⟩
          cases front with
          | nil =>
              cases split
              exact absurd (List.contains_iff_mem.mpr (mem.resolve_right (by simp))) known
          | cons m front =>
              cases split
              rw [repeatedName?, if_neg known] at free
              refine ⟨front, value, behind, rfl, free, ?_⟩
              simpa [or_assoc, or_left_comm] using mem

/-- The name that is refused when the objects are closed one after the other. -/
def refused? (objects : List Members) : Option Text := objects.findSome? (repeatedName? [])

theorem refused?_append (objects more : List Members) :
    refused? (objects ++ more) = (refused? objects).or (refused? more) := List.findSome?_append

theorem refused?_eq_none_iff {objects : List Members} :
    refused? objects = none ↔ ∀ members ∈ objects, (members.map (·.1)).Nodup := by
  simp [refused?, List.findSome?_eq_none_iff, repeatedName?_eq_none_iff]

theorem refused?_eq_some_iff {objects : List Members} {name : Text} :
    refused? objects = some name ↔ ∃ before members after,
      objects = before ++ members :: after ∧
        (∀ earlier ∈ before, (earlier.map (·.1)).Nodup) ∧ FirstRepeated name members := by
  rw [refused?, List.findSome?_eq_some_iff]
  simp [repeatedName?_eq_some_iff, repeatedName?_eq_none_iff, FirstRepeated, and_comm]

/-! ## Reading -/

/-- What was read, unless a name is refused. -/
def settle {α : Type} (objects : List Members) (read : α × Text) :
    Except Stop (α × Text) :=
  match refused? objects with
  | none => .ok read
  | some name => .error (.duplicateName name)

section Settle

variable {α β : Type} {objects more : List Members} {a : α × Text} {b : β × Text}
  {f : α × Text → Except Stop (β × Text)}

theorem settle_bind (h : f a = settle more b) :
    settle objects a >>= f = settle (objects ++ more) b := by
  rw [settle, settle, refused?_append]
  cases refused? objects with
  | none => exact h
  | some name => rfl

theorem settle_bind_ok (h : f a = .ok b) : settle objects a >>= f = settle objects b := by
  have last : f a = settle [] b := h
  rw [settle_bind last, List.append_nil]

end Settle

theorem closeObject_distinct (members : Members) (left : Text) :
    closeObject distinct members left = settle [members] (.obj members, left) := by
  unfold closeObject distinct settle refused?
  rw [List.findSome?_cons]
  cases repeatedName? [] members <;> rfl

theorem closed_of_isScalar {v : Value} (h : v.isScalar = true) : v.closed = [] := by
  cases v with
  | arr items => cases h
  | obj members => cases h
  | _ => rfl

section Brackets

variable {rule : ClosingRule} {fuel : Nat} {rest : Text}

theorem readValue_items {read : List Value × Text}
    (h : readItems asWritten fuel (skipBlanks rest) = .ok read) :
    readValue rule (fuel + 1) (char '[' :: rest) = readItems rule fuel (skipBlanks rest) >>=
      fun (items, left) => .ok (.arr items, left) := by
  rw [readValue_bracket]
  split
  · next behind empty =>
      rw [empty] at h
      exact absurd h readItems_bracket_ne_ok
  · rfl

theorem readValue_members {read : Members × Text}
    (h : readMembers asWritten fuel (skipBlanks rest) = .ok read) :
    readValue rule (fuel + 1) (char '\x7b' :: rest) = readMembers rule fuel (skipBlanks rest) >>=
      fun (members, left) => closeObject rule members left := by
  rw [readValue_brace]
  split
  · next behind empty =>
      rw [empty] at h
      exact absurd h readMembers_brace_ne_ok
  · rfl

theorem readMembers_named {body text : Text} {name : Text}
    (named : readString body = .ok (name, rest)) (colon : skipBlanks rest = char ':' :: text) :
    readMembers rule (fuel + 1) (char '"' :: body) = readValue rule fuel (skipBlanks text) >>=
      fun (v, left) => behindMember rule fuel (name, v) left := by
  rw [readMembers_quote, named]
  show Except.ok (name, rest) >>= _ = _
  rw [except_ok_bind]
  dsimp only
  rw [colon]
  rfl

end Brackets

/-- At the given fuel, reading with distinct names is reading every member and then settling the
objects that were closed. -/
structure Settles (fuel : Nat) : Prop where
  value : ∀ {cs v left}, readValue asWritten fuel cs = .ok (v, left) →
    readValue distinct fuel cs = settle v.closed (v, left)
  items : ∀ {cs vs left}, readItems asWritten fuel cs = .ok (vs, left) →
    readItems distinct fuel cs = settle (itemsClosed vs) (vs, left)
  members : ∀ {cs ms left}, readMembers asWritten fuel cs = .ok (ms, left) →
    readMembers distinct fuel cs = settle (membersClosed ms) (ms, left)

namespace Settles

variable {fuel : Nat} (h : Settles fuel) {cs rest left : Text}

include h

theorem list {v : Value}
    (read : readValue asWritten (fuel + 1) (char '[' :: rest) = .ok (v, left)) :
    readValue distinct (fuel + 1) (char '[' :: rest) = settle v.closed (v, left) := by
  obtain ⟨items, rfl, ⟨empty, rfl⟩ | more⟩ := readValue_bracket_eq_ok_iff.mp read
  · rw [readValue_bracket, empty]
    rfl
  · rw [readValue_items more, h.items more]
    exact settle_bind_ok rfl

theorem object {v : Value}
    (read : readValue asWritten (fuel + 1) (char '\x7b' :: rest) = .ok (v, left)) :
    readValue distinct (fuel + 1) (char '\x7b' :: rest) = settle v.closed (v, left) := by
  obtain ⟨members, kept, closes, rfl, found⟩ := readValue_brace_eq_ok_iff.mp read
  obtain rfl : members = kept := Except.ok.inj closes
  obtain ⟨empty, rfl⟩ | more := found
  · rw [readValue_brace, empty]
    rfl
  · rw [readValue_members more, h.members more]
    exact settle_bind (closeObject_distinct members left)

theorem items_succ {vs : List Value} (read : readItems asWritten (fuel + 1) cs = .ok (vs, left)) :
    readItems distinct (fuel + 1) cs = settle (itemsClosed vs) (vs, left) := by
  obtain ⟨v, behind, value, ends⟩ := readItems_eq_ok_iff.mp read
  rw [readItems, h.value value]
  obtain ⟨closed, rfl⟩ | ⟨rest, others, comma, more, rfl⟩ := ends
  · refine settle_bind ?_
    dsimp only
    rw [closed]
    rfl
  · refine settle_bind ?_
    simp only [comma, h.items more]
    exact settle_bind_ok rfl

theorem behind {m : Text × Value} {ms : Members}
    (read : behindMember asWritten fuel m cs = .ok (ms, left)) : ∃ others, ms = m :: others ∧
      behindMember distinct fuel m cs = settle (membersClosed others) (ms, left) := by
  obtain ⟨closed, rfl⟩ | ⟨rest, others, comma, more, rfl⟩ := behindMember_eq_ok_iff.mp read
  · exact ⟨[], rfl, behindMember_brace closed⟩
  · refine ⟨others, rfl, ?_⟩
    rw [behindMember_comma comma, h.members more]
    exact settle_bind_ok rfl

theorem members_succ {ms : Members} (read : readMembers asWritten (fuel + 1) cs = .ok (ms, left)) :
    readMembers distinct (fuel + 1) cs = settle (membersClosed ms) (ms, left) := by
  obtain ⟨body, name, rest, text, v, behind, rfl, named, colon, value, ends⟩ :=
    readMembers_eq_ok_iff.mp read
  obtain ⟨others, rfl, closes⟩ := h.behind ends
  rw [readMembers_named named colon, h.value value]
  exact settle_bind closes

end Settles

theorem settles (fuel : Nat) : Settles fuel := by
  induction fuel with
  | zero => constructor <;> simp [readValue, readItems, readMembers]
  | succ fuel ih =>
      refine ⟨fun {cs v left} read => ?_, ih.items_succ, ih.members_succ⟩
      by_cases opens : Opens cs
      · obtain ⟨rest, rfl | rfl⟩ := opens
        · exact ih.list read
        · exact ih.object read
      · have scalar := (readValue_eq_ok_iff opens).mp read
        rw [closed_of_isScalar scalar.isScalar]
        exact (readValue_eq_ok_iff opens).mpr scalar

/-- **Reading with distinct names** gives the value of the text, or refuses the first name that
repeats in the first object to be closed in which one does. -/
theorem read_distinct_eq {text : Text} {v : Value} (derived : JsonText text v) :
    Json.read distinct text = match refused? v.closed with
      | none => .ok v
      | some name => .error (.duplicateName name) := by
  have read := read_asWritten_iff.mpr derived
  rw [Json.read, except_mapError_eq_ok, readText, if_neg derived.head?_ne_mark] at read
  obtain ⟨⟨w, left⟩, value, ends⟩ := except_bind_eq_ok.mp read
  dsimp only at ends
  split at ends
  · next closed =>
      cases ends
      rw [Json.read, readText, if_neg derived.head?_ne_mark]
      dsimp only
      rw [(settles _).value value, settle]
      cases refused? v.closed with
      | none =>
          dsimp only
          rw [except_ok_bind]
          dsimp only
          rw [closed]
          rfl
      | some name => rfl
  · cases ends

end HostGlue.Json

/-!
# Kinds of parameters and results

How a host function takes a parameter or gives a result, as the manifest spells it. `Mode` tells the
two variants of every function apart: the asynchronous one hands a continuation to hosts that answer
later.
-/

namespace HostGlue.Interface

inductive ParamKind where
  | i32
  | i64
  | i128
  | address
  | pointer
  | ipointer
  | opointer
  | readOffset
  | writeOffset
  | length
  deriving Repr, DecidableEq

namespace ParamKind

def name : ParamKind → String
  | i32 => "i32"
  | i64 => "i64"
  | i128 => "i128"
  | address => "address"
  | pointer => "pointer"
  | ipointer => "ipointer"
  | opointer => "opointer"
  | readOffset => "readOffset"
  | writeOffset => "writeOffset"
  | length => "length"

def all : List ParamKind :=
  [i32, i64, i128, address, pointer, ipointer, opointer, readOffset, writeOffset, length]

def ofName? (s : String) : Option ParamKind := all.find? (·.name == s)

/-- The parameter is an offset into linear memory. -/
def isOffset : ParamKind → Bool
  | readOffset => true
  | writeOffset => true
  | _ => false

theorem mem_all (k : ParamKind) : k ∈ all := by cases k <;> simp [all]

theorem ofName?_name (k : ParamKind) : ofName? k.name = some k := by cases k <;> decide

theorem ofName?_eq_some_iff {s : String} {k : ParamKind} : ofName? s = some k ↔ s = k.name := by
  constructor
  · intro h
    have found := List.find?_some h
    exact (beq_iff_eq.mp found).symm
  · rintro rfl
    exact ofName?_name k

end ParamKind

inductive ReturnKind where
  | i32
  | i64
  | i128
  | address
  | i256
  deriving Repr, DecidableEq

namespace ReturnKind

def name : ReturnKind → String
  | i32 => "i32"
  | i64 => "i64"
  | i128 => "i128"
  | address => "address"
  | i256 => "i256"

def all : List ReturnKind := [i32, i64, i128, address, i256]

def ofName? (s : String) : Option ReturnKind := all.find? (·.name == s)

/-- The host returns the value itself; a wider value it writes through a handle. -/
def byValue : ReturnKind → Bool
  | i32 => true
  | i64 => true
  | _ => false

theorem mem_all (k : ReturnKind) : k ∈ all := by cases k <;> simp [all]

theorem ofName?_name (k : ReturnKind) : ofName? k.name = some k := by cases k <;> decide

theorem ofName?_eq_some_iff {s : String} {k : ReturnKind} : ofName? s = some k ↔ s = k.name := by
  constructor
  · intro h
    have found := List.find?_some h
    exact (beq_iff_eq.mp found).symm
  · rintro rfl
    exact ofName?_name k

end ReturnKind

inductive Mode where
  | sync
  | async
  deriving Repr, DecidableEq

namespace Mode

def name : Mode → String
  | sync => "sync"
  | async => "async"

def all : List Mode := [sync, async]

theorem mem_all (m : Mode) : m ∈ all := by cases m <;> simp [all]

end Mode

/-- Some kinds are not handled by the table that `what` names. -/
structure Uncovered where
  what : String
  missing : List String
  deriving Repr, DecidableEq

def Uncovered.message (u : Uncovered) : String :=
  u.what ++ ": no handler for " ++ ", ".intercalate u.missing

/-- Accepts a table of handled names if every one of the kinds' names is among them. -/
def checkCoverage (what : String) (kinds handled : List String) : Except Uncovered Unit :=
  let missing := kinds.filter (¬ handled.contains ·)
  if missing.isEmpty then .ok () else .error ⟨what, missing⟩

theorem checkCoverage_eq_ok_iff {what : String} {kinds handled : List String} :
    checkCoverage what kinds handled = .ok () ↔ ∀ k ∈ kinds, k ∈ handled := by
  simp only [checkCoverage]
  split
  · simp_all [List.filter_eq_nil_iff]
  · simp_all [List.filter_eq_nil_iff]

end HostGlue.Interface

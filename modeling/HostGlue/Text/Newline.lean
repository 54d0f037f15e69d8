/-!
# Line ends

Text files are read with one kind of line end: a carriage return, alone or before a line feed,
counts as a line feed.
-/

namespace HostGlue.Text

namespace Newline

/-- The text with every line end as a line feed. -/
def unify : List Char → List Char
  | [] => []
  | '\r' :: '\n' :: rest => '\n' :: unify rest
  | '\r' :: rest => '\n' :: unify rest
  | c :: rest => c :: unify rest

/-- No carriage return is left. -/
theorem not_mem_unify (s : List Char) : '\r' ∉ unify s := by
  fun_induction unify s with
  | case1 => simp
  | case2 rest ih => simpa using ih
  | case3 rest _ ih => simpa using ih
  | case4 c rest _ hc ih => simp_all [eq_comm]

/-- A text without carriage returns is read as it stands. -/
theorem unify_of_not_mem {s : List Char} (h : '\r' ∉ s) : unify s = s := by
  fun_induction unify s with
  | case1 => rfl
  | case2 rest ih => simp at h
  | case3 rest _ ih => simp at h
  | case4 c rest _ hc ih => simp_all

end Newline

/-- The text as a file that holds it is read. -/
def asRead (text : String) : String := String.ofList (Newline.unify text.toList)

/-- A text is read as it stands exactly if it has no carriage return. -/
theorem asRead_eq_self_iff {text : String} : asRead text = text ↔ '\r' ∉ text.toList := by
  constructor
  · intro same
    rw [← same, asRead, String.toList_ofList]
    exact Newline.not_mem_unify _
  · intro noReturn
    rw [asRead, Newline.unify_of_not_mem noReturn, String.ofList_toList]

end HostGlue.Text

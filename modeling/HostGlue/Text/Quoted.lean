import HostGlue.Text.CodePoint

/-!
# Quoted strings

A string of the text format stands between two double quotes. Inside it a quote and a backslash
are each preceded by a backslash, and every other code point stands for itself, line ends included.
-/

namespace HostGlue.Text.Quoted

/-- The code points between the quotes. -/
def encode : Text → Text
  | [] => []
  | p :: rest =>
    if p = .char '"' ∨ p = .char '\\' then .char '\\' :: p :: encode rest else p :: encode rest

/-- The string with its quotes. -/
def quote (t : Text) : Text := .char '"' :: (encode t ++ [.char '"'])

end HostGlue.Text.Quoted

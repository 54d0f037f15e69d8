import HostGlue.Files.Tree

/-!
# Differences between trees

What is new, gone and changed below the working directory from one tree to another. Names are
relative to the working directory; the name of a directory ends in a slash.
-/

namespace HostGlue.Files

namespace Tree

/-- The entries below the working directory by name, in order of the names' characters. -/
def listing (t : Tree) : List (String × Item) :=
  let below := t.entries.filter fun e =>
    t.workingDirectory.isPrefixOf e.1 ∧ e.1 ≠ t.workingDirectory
  let named := below.map fun e =>
    let name := "/".intercalate (e.1.drop t.workingDirectory.length)
    (if e.2 = .directory then name ++ "/" else name, t.item e.2)
  named.mergeSort fun a b => a.1 ≤ b.1

end Tree

structure Changes where
  added : List String
  removed : List String
  /-- The files that are new or hold other bytes than before. -/
  changed : List (String × List UInt8)

/-- The differences between the listings of two trees. -/
def Changes.between (before after : Tree) : Changes :=
  let old := before.listing
  let new := after.listing
  { added := (new.filter fun e => (old.lookup e.1).isNone).map (·.1)
    removed := (old.filter fun e => (new.lookup e.1).isNone).map (·.1)
    changed := new.filterMap fun e =>
      match e.2 with
      | .file bytes => if old.lookup e.1 = some e.2 then none else some (e.1, bytes)
      | _ => none }

end HostGlue.Files

import HostGlue.Cli.Run

/-!
# The executable

The command itself is a function on file trees. Here the part of the disk that a run can look at
is put into a tree, the command runs on it, and the edits that it made are made to the disk.
-/

namespace HostGlue.Cli

open Files

/-- What the disk holds at a location, if anything. A link is taken for one to the place where it
ends, and a link that ends nowhere for nothing. -/
def itemOnDisk (location : Location) : IO (Option Item) := do
  let place := location.foldl (· / ·) (← IO.FS.realPath "/")
  if ¬ (← place.pathExists) then return none
  match (← place.symlinkMetadata).type with
  | .symlink => return some (.link (Path.ofString (toString (← IO.FS.realPath place))))
  | .dir => return some .directory
  | _ => return some (.file (← IO.FS.readBinFile place).toList)

/-- The names that the disk lists in a directory. -/
def namesOnDisk (location : Location) : IO (List String) := do
  let place := location.foldl (· / ·) (← IO.FS.realPath "/")
  if ← place.isDir then return (← place.readDir).toList.map (·.fileName)
  else return []

/-- Adds to a tree what the disk holds where the components lead from a location. A link is left to
`onLink`, with the components from the root that it stands for. -/
def loadWith (onLink : Tree → List String → IO Tree) (t : Tree) (place : Location) :
    List String → IO Tree
  | [] => return t
  | part :: rest => do
    let next := Path.follow place part
    match ← itemOnDisk next with
    | some (.link target) => onLink (t.put next (.link target)) (target.parts ++ rest)
    | some item => loadWith onLink (t.put next item) next rest
    | none => loadWith onLink t next rest

/-- The same from the root, over at most the given number of links. -/
def loadOver : Nat → Tree → List String → IO Tree
  | 0 => fun t => loadWith (fun t _ => return t) t []
  | links + 1 => fun t => loadWith (loadOver links) t []

/-- Adds to a tree what the disk holds along a path. -/
def loadPath (t : Tree) (p : Path) : IO Tree :=
  loadWith (loadOver Tree.maxLinks) t (t.start p) p.parts

/-- Adds to a tree the fragments that the disk holds in a directory. -/
def loadFragmentFiles (t : Tree) (directory : Path) : IO Tree := do
  let t ← loadPath t directory
  match t.locate directory with
  | .error _ => return t
  | .ok location =>
    let names := (← namesOnDisk location).filter fun name => (fragmentName? name).isSome
    names.foldlM (fun t name => loadPath t (directory.child name)) t

/-- The part of the disk that a run with these arguments can look at. -/
def loadTree (home : Path) (arguments : List String) : IO Tree := do
  let here := Path.ofString (toString (← IO.currentDir))
  let t ← loadPath (.ofItems here.parts []) here
  match Request.ofArguments arguments with
  | .ok (.run o) =>
    let t ← loadPath t (home.child "wasm")
    let t ← loadPath t (Path.ofString o.root)
    match ((Places.ofOptions o home).run { tree := t }).1 with
    | .error _ => return t
    | .ok places =>
      let t ← loadFragmentFiles t places.fragments
      places.files.foldlM loadPath t
  | _ => return t

/-- Makes an edit to the disk. -/
def perform : Edit → IO Unit
  | .makeDirectory p => IO.FS.createDir p.text
  | .openForWriting p => IO.FS.writeBinFile p.text .empty
  | .writeBytes p bytes => IO.FS.writeBinFile p.text ⟨bytes.toArray⟩
  | .replace p target => IO.FS.rename p.text target.text

end HostGlue.Cli

open HostGlue.Cli HostGlue.Files in
/-- Runs the command. It is installed in the directory above the one that holds the executable. -/
def main (arguments : List String) : IO UInt32 := do
  let home := (Path.ofString (toString (← IO.appPath))).parent.parent
  let outcome := run home arguments (← loadTree home arguments)
  outcome.journal.edits.forM perform
  IO.print outcome.stdout
  IO.eprint outcome.stderr
  match outcome.ending with
  | .status code => return code.toUInt32
  | .stopped cause =>
    IO.eprintln cause.message
    return 1

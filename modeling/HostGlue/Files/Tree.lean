import HostGlue.Files.FileError
import HostGlue.NameMap
import HostGlue.Text.Newline

/-!
# File trees

A tree gives locations a directory, a file or a symbolic link. A location is the list of names from
the root, which is always a directory. A file is known by its number, and what it holds is kept
under that number, so that a file may have several names. Some files are devices: these give what
they hold and keep nothing of what they are given.

A path is followed one component at a time; every component but the last has to be a directory that
exists, also before a double dot. A link on the way is followed from where it stands. A link at the
end is followed where something is tested, read or opened; where a directory is made or a file
moved, the link itself is meant. A walk that meets too many links is given up.

Each operation either fails and leaves the tree alone or is one step of the file system. There are
no permissions: what else may go wrong is for the journal to say. Main statements: the entries and
the contents after each change.
-/

namespace HostGlue.Files

/-- The names from the root. -/
abbrev Location := List String

inductive Entry where
  | directory
  | file (number : Nat)
  | link (target : Path)
  deriving Repr, DecidableEq

/-- What stands at a location, a file with its bytes. -/
inductive Item where
  | directory
  | file (bytes : List UInt8)
  | link (target : Path)
  deriving Repr, DecidableEq

structure Tree where
  workingDirectory : Location
  entries : List (Location × Entry)
  /-- What the files hold, by their numbers. -/
  contents : List (Nat × List UInt8)
  /-- The numbers of devices, pipes and the like. -/
  devices : List Nat := []
  deriving Repr

namespace Tree

def entry (t : Tree) (at_ : Location) : Option Entry :=
  if at_ = [] then some .directory else t.entries.lookup at_

/-- The bytes of the file of the given number. -/
def content (t : Tree) (number : Nat) : List UInt8 := (t.contents.lookup number).getD []

def item (t : Tree) : Entry → Item
  | .directory => .directory
  | .file number => .file (t.content number)
  | .link target => .link target

/-- What the tree holds at a location. -/
def lookup (t : Tree) (at_ : Location) : Option Item := (t.entry at_).map t.item

/-! ## Changes -/

def setEntry (t : Tree) (at_ : Location) (entry : Entry) : Tree :=
  { t with entries := (at_, entry) :: t.entries.filter (·.1 ≠ at_) }

def drop (t : Tree) (at_ : Location) : Tree :=
  { t with entries := t.entries.filter (·.1 ≠ at_) }

/-- Sets the bytes of a file that keeps them. -/
def setContent (t : Tree) (number : Nat) (bytes : List UInt8) : Tree :=
  { t with contents := if number ∈ t.devices then t.contents
      else (number, bytes) :: t.contents.filter (·.1 ≠ number) }

def Entry.number? : Entry → Option Nat
  | .file number => some number
  | _ => none

/-- A number that no file has. -/
def fresh (t : Tree) : Nat :=
  (t.entries.filterMap (fun e => Entry.number? e.2) ++ t.devices).foldr max 0 + 1

/-- Makes a file of its own at a location. -/
def newFile (t : Tree) (at_ : Location) (bytes : List UInt8) : Tree :=
  (t.setEntry at_ (.file t.fresh)).setContent t.fresh bytes

/-- Sets what the tree holds at a location, a file being one of its own. -/
def put (t : Tree) (at_ : Location) : Item → Tree
  | .directory => t.setEntry at_ .directory
  | .file bytes => t.newFile at_ bytes
  | .link target => t.setEntry at_ (.link target)

/-- The tree that holds the items, each file one of its own. -/
def ofItems (workingDirectory : Location) (items : List (Location × Item)) : Tree :=
  items.foldr (fun e t => t.put e.1 e.2) { workingDirectory, entries := [], contents := [] }

/-- Removes a location and all below it. -/
def prune (t : Tree) (at_ : Location) : Tree :=
  { t with entries := t.entries.filter fun e => ¬ at_.isPrefixOf e.1 }

/-! ## Following paths -/

/-- Where a path starts to be followed. -/
def start (t : Tree) (p : Path) : Location :=
  if p.anchor = .relative then t.workingDirectory else []

/-- Follows the components from a location. A link on the way, and one at the end if `ending` says
so, is left to `onLink`, with the location that its components and those behind it start from. -/
def walkWith (t : Tree) (ending : Bool)
    (onLink : Location → List String → Except OsCode Location) (place : Location) :
    List String → Except OsCode Location
  | [] => .ok place
  | part :: rest =>
    match t.entry place with
    | some .directory =>
      let next := Path.follow place part
      match t.entry next with
      | some (.link target) =>
        if rest = [] ∧ ¬ ending then .ok next
        else onLink (if target.anchor = .relative then place else []) (target.parts ++ rest)
      | _ => t.walkWith ending onLink next rest
    | some _ => .error .notDirectory
    | none => .error .noEntry

/-- Follows the components from a location over at most the given number of links. -/
def walk (t : Tree) (ending : Bool) : Nat → Location → List String → Except OsCode Location
  | 0 => t.walkWith ending fun _ _ => .error .tooManyLinks
  | links + 1 => t.walkWith ending (t.walk ending links)

/-- The links that one walk may follow. -/
def maxLinks : Nat := 40

/-- The location that a path leads to, a link at its end followed. There need not be anything at
that location yet. -/
def locate (t : Tree) (p : Path) : Except OsCode Location :=
  t.walk true maxLinks (t.start p) p.parts

/-- The location that a path names, which may be that of a link. -/
def locateEntry (t : Tree) (p : Path) : Except OsCode Location :=
  t.walk false maxLinks (t.start p) p.parts

/-- What stands where a path leads, if anything does. -/
def find? (t : Tree) (p : Path) : Option Item :=
  match t.locate p with
  | .ok location => t.lookup location
  | .error _ => none

/-- What stands where a path leads. -/
def stat (t : Tree) (p : Path) : Except OsCode Item := do
  match t.lookup (← t.locate p) with
  | some item => return item
  | none => throw .noEntry

/-- The bytes of the file that a path leads to. -/
def bytesAt (t : Tree) (p : Path) : Except OsCode (List UInt8) := do
  match ← t.stat p with
  | .file bytes => return bytes
  | .directory => throw .isDirectory
  | .link _ => throw .tooManyLinks

/-- The names in a directory, in order of their characters. -/
def namesIn (t : Tree) (location : Location) : List String :=
  let inside := t.entries.filterMap fun e =>
    if e.1.dropLast = location then e.1.getLast? else none
  inside.mergeSort (· ≤ ·)

/-- The names in the directory that a path leads to. -/
def namesAt (t : Tree) (p : Path) : Except OsCode (List String) := do
  let location ← t.locate p
  match t.entry location with
  | some .directory => return t.namesIn location
  | some _ => throw .notDirectory
  | none => throw .noEntry

/-- Replaces the links among the components from a location, whatever else stands there; double dots
take the last component back. A link that is being replaced already comes back to itself. It is
left, and so is what follows it. `onLink` does the same with the components of a link. -/
def resolveWith (t : Tree) (pending : List Location)
    (onLink : Location → Location → List String → Location × Bool) (place : Location) :
    List String → Location × Bool
  | [] => (place, true)
  | part :: rest =>
    let next := Path.follow place part
    match t.entry next with
    | some (.link target) =>
      if next ∈ pending then (rest.foldl Path.follow next, false)
      else match onLink next (if target.anchor = .relative then place else []) target.parts with
      | (resolved, true) => t.resolveWith pending onLink resolved rest
      | (stuck, false) => (rest.foldl Path.follow stuck, false)
    | _ => t.resolveWith pending onLink next rest

/-- Replaces links inside links down to the given depth. -/
def resolveTo (t : Tree) : Nat → List Location → Location → List String → Location × Bool
  | 0, _ => fun place parts => (parts.foldl Path.follow place, false)
  | depth + 1, pending =>
    t.resolveWith pending fun next => t.resolveTo depth (next :: pending)

/-- The path without links. Links are not nested deeper than there are entries. -/
def resolve (t : Tree) (p : Path) : Path where
  anchor := .root
  parts := (t.resolveTo (t.entries.length + 1) [] (t.start p) p.parts).1

/-! ## Steps -/

/-- Makes a directory where there is nothing. -/
def makeDirectory (t : Tree) (p : Path) : Except OsCode Tree := do
  let location ← t.locateEntry p
  match t.entry location with
  | some _ => throw .alreadyExists
  | none => return t.setEntry location .directory

/-- Opens a file for writing, which empties it or makes it. -/
def openForWriting (t : Tree) (p : Path) : Except OsCode Tree := do
  let location ← t.locate p
  match t.entry location with
  | some .directory => throw .isDirectory
  | some (.file number) => return t.setContent number []
  | some (.link _) => throw .tooManyLinks
  | none => return t.newFile location []

/-- Writes the bytes into the file that was opened at a path. -/
def writeBytes (t : Tree) (p : Path) (bytes : List UInt8) : Except OsCode Tree := do
  let location ← t.locate p
  match t.entry location with
  | some (.file number) => return t.setContent number bytes
  | _ => throw .badDescriptor

/-- Moves what stands at a path to another path, over the file or the link that may be there. If
both are one file, nothing happens. -/
def replace (t : Tree) (p target : Path) : Except OsCode Tree := do
  let source ← t.locateEntry p
  let goal ← t.locateEntry target
  match t.entry source, t.entry goal with
  | none, _ => throw .noEntry
  | some _, some .directory => throw .isDirectory
  | some (.file number), some (.file other) =>
    return if number = other then t else (t.drop source).setEntry goal (.file number)
  | some entry, _ => return if source = goal then t else (t.drop source).setEntry goal entry

/-! ## Entries and contents after a change -/

theorem lookup_filter_ne {α β : Type} [BEq α] [LawfulBEq α] [DecidableEq α] {a b : α} (h : a ≠ b)
    (l : List (α × β)) : (l.filter (·.1 ≠ b)).lookup a = l.lookup a := by
  induction l with
  | nil => rfl
  | cons e rest ih =>
      obtain ⟨c, x⟩ := e
      by_cases hc : c = b
      · subst hc
        rw [lookup_cons_ne h]
        simpa using ih
      · by_cases hac : a = c
        · subst hac
          simp [hc]
        · rw [lookup_cons_ne hac, List.filter_cons_of_pos (by simpa using hc),
            lookup_cons_ne hac, ih]

theorem lookup_filter_self (a : Location) (l : List (Location × Entry)) :
    (l.filter (·.1 ≠ a)).lookup a = none := by
  rw [List.lookup_eq_none_iff]
  intro e he
  have apart : e.1 ≠ a := by simpa using (List.mem_filter.mp he).2
  simpa using apart.symm

variable {t : Tree} {a b : Location} {entry : Entry} {number other : Nat} {bytes : List UInt8}

@[simp] theorem entry_root : t.entry [] = some .directory := if_pos rfl

theorem entry_setEntry (h : a ≠ []) :
    (t.setEntry a entry).entry b = if b = a then some entry else t.entry b := by
  by_cases hb : b = a
  · subst hb
    simp [Tree.entry, setEntry, h]
  · simp only [Tree.entry, setEntry, lookup_cons_ne hb, lookup_filter_ne hb, if_neg hb]

theorem entry_drop (h : a ≠ []) : (t.drop a).entry b = if b = a then none else t.entry b := by
  by_cases hb : b = a
  · subst hb
    simp only [Tree.entry, drop, if_neg h, lookup_filter_self, if_pos]
  · simp only [Tree.entry, drop, lookup_filter_ne hb, if_neg hb]

@[simp] theorem entry_setContent : (t.setContent number bytes).entry b = t.entry b := rfl

theorem entry_newFile (h : a ≠ []) :
    (t.newFile a bytes).entry b = if b = a then some (.file t.fresh) else t.entry b :=
  entry_setEntry h

@[simp] theorem content_setEntry : (t.setEntry a entry).content number = t.content number := rfl

@[simp] theorem content_drop : (t.drop a).content number = t.content number := rfl

theorem content_setContent_ne (ne : other ≠ number) :
    (t.setContent number bytes).content other = t.content other := by
  rw [content, setContent]
  split
  · rfl
  · simp only [content, lookup_cons_ne ne, lookup_filter_ne ne]

theorem content_setContent (keeps : number ∉ t.devices) :
    (t.setContent number bytes).content number = bytes := by
  simp [content, setContent, keeps]

theorem mem_of_entry (root : a ≠ []) (held : t.entry a = some entry) : (a, entry) ∈ t.entries := by
  rw [Tree.entry, if_neg root] at held
  obtain ⟨front, behind, split, -⟩ := List.lookup_eq_some_iff.mp held
  rw [split]
  exact List.mem_append_right _ List.mem_cons_self

/-- No file and no device has the number. -/
structure Unused (t : Tree) (number : Nat) : Prop where
  entry : ∀ a, t.entry a ≠ some (.file number)
  device : number ∉ t.devices

/-- All numbers are below the fresh one. -/
theorem unused_fresh (t : Tree) : t.Unused t.fresh := by
  have bound (l : List Nat) (number : Nat) (mem : number ∈ l) : number < l.foldr max 0 + 1 := by
    induction l with
    | nil => cases mem
    | cons n rest ih =>
        rw [List.foldr_cons]
        rcases List.mem_cons.mp mem with rfl | mem
        · omega
        · have := ih mem
          omega
  refine ⟨fun a held => ?_, fun mem => ?_⟩
  · have root : a ≠ [] := by
      rintro rfl
      cases held
    have known : t.fresh ∈ t.entries.filterMap fun e => Entry.number? e.2 :=
      List.mem_filterMap.mpr ⟨_, mem_of_entry root held, rfl⟩
    exact Nat.lt_irrefl _ (bound _ _ (List.mem_append_left _ known))
  · exact Nat.lt_irrefl _ (bound _ _ (List.mem_append_right _ mem))

theorem lookup_eq_none_iff : t.lookup a = none ↔ t.entry a = none := Option.map_eq_none_iff

theorem lookup_eq_directory_iff : t.lookup a = some .directory ↔ t.entry a = some .directory := by
  rw [lookup, Option.map_eq_some_iff]
  constructor
  · rintro ⟨entry, held, same⟩
    cases entry with
    | directory => exact held
    | file number => cases same
    | link target => cases same
  · exact fun held => ⟨_, held, rfl⟩

theorem lookup_eq_file_iff : t.lookup a = some (.file bytes) ↔
    ∃ number, t.entry a = some (.file number) ∧ t.content number = bytes := by
  rw [lookup, Option.map_eq_some_iff]
  constructor
  · rintro ⟨entry, held, same⟩
    cases entry with
    | directory => cases same
    | file number => exact ⟨number, held, Item.file.inj same⟩
    | link target => cases same
  · rintro ⟨number, held, rfl⟩
    exact ⟨_, held, rfl⟩

end Tree

end HostGlue.Files

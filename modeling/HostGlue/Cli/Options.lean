import HostGlue.Text.Digit
import HostGlue.Text.Literal

/-!
# Command line options

Arguments are classified before any of them takes effect, so an abbreviation that fits two options
is reported first. After that they are taken from left to right: an option with a value takes the
value behind its equals sign or else the next argument, which must not look like an option; the last
value counts. A request for help ends the reading where it stands. Arguments that belong to no
option are collected and refused at the end.

Versions of the argument parser differ in two corners. This is the older rule: two dashes as a value
behind an equals sign stand for no value, and letters behind `-h` that are no options are refused
although help was asked for.
-/

namespace HostGlue.Cli

inductive Opt where
  | help
  | root
  | manifest
  | fragmentDir
  | outDir
  | hostModule
  | check
  | verbose
  deriving Repr, DecidableEq

namespace Opt

/-- The option takes a value. -/
def takesValue : Opt → Bool
  | root => true
  | manifest => true
  | fragmentDir => true
  | outDir => true
  | hostModule => true
  | _ => false

/-- The option's spellings, as messages join them. -/
def display : Opt → String
  | help => "-h/--help"
  | root => "--root"
  | manifest => "--manifest"
  | fragmentDir => "--fragment-dir"
  | outDir => "--out-dir"
  | hostModule => "--host-module"
  | check => "--check"
  | verbose => "--verbose"

/-- Every spelling with its option. -/
def spellings : List (String × Opt) :=
  [("-h", help), ("--help", help), ("--root", root), ("--manifest", manifest),
   ("--fragment-dir", fragmentDir), ("--out-dir", outDir), ("--host-module", hostModule),
   ("--check", check), ("--verbose", verbose)]

end Opt

/-- What was asked for. An empty text stands for an option that was not given. -/
structure Options where
  root : String := ""
  manifest : String := ""
  fragmentDir : String := ""
  outDir : String := ""
  hostModule : String := ""
  check : Bool := false
  verbose : Bool := false
  deriving Repr, DecidableEq

inductive UsageError where
  | ambiguous (argument : String) (fits : List String)
  | expectsArgument (opt : Opt)
  | ignoredArgument (opt : Opt) (value : String)
  | unrecognized (arguments : List String)
  deriving Repr, DecidableEq

def UsageError.message : UsageError → String
  | .ambiguous argument fits =>
    "ambiguous option: " ++ argument ++ " could match " ++ ", ".intercalate fits
  | .expectsArgument opt => "argument " ++ opt.display ++ ": expected one argument"
  | .ignoredArgument opt value =>
    "argument " ++ opt.display ++ ": ignored explicit argument " ++ Text.Literal.quote value
  | .unrecognized arguments => "unrecognized arguments: " ++ " ".intercalate arguments

/-! ## Classification -/

/-- An option as it was spelled, with the value that was written into the same argument. -/
structure Occurrence where
  opt : Opt
  /-- It was spelled with a single dash. -/
  short : Bool
  value : Option String
  deriving Repr, DecidableEq

inductive Argument where
  | plain
  /-- Two dashes, behind which nothing is an option. -/
  | dashes
  | known (occurrence : Occurrence)
  | unknown
  deriving Repr, DecidableEq

/-- The parts before and behind the first equals sign. -/
def splitEquals (cs : List Char) : List Char × Option (List Char) :=
  match cs.dropWhile (· ≠ '=') with
  | [] => (cs, none)
  | _ :: rest => (cs.takeWhile (· ≠ '='), some rest)

/-- A dash and digits, with a point among or before them. One final line feed is allowed. -/
def isNegativeNumber : List Char → Bool
  | '-' :: rest =>
    let body := if rest.getLast? = some '\n' then rest.dropLast else rest
    let (whole, tail) := body.span Text.isDecimalDigit
    match tail with
    | [] => !whole.isEmpty
    | '.' :: fraction => !fraction.isEmpty && fraction.all Text.isDecimalDigit
    | _ => false
  | _ => false

/-- The options that a long or a short spelling may be meant for, by their full spellings. -/
def candidates (argument : List Char) : List (String × Occurrence) :=
  match argument with
  | '-' :: '-' :: _ =>
    let (start, value) := splitEquals argument
    (Opt.spellings.filter fun s => start.isPrefixOf s.1.toList).map fun s =>
      (s.1, ⟨s.2, false, value.map String.ofList⟩)
  | '-' :: c :: rest =>
    Opt.spellings.filterMap fun s =>
      if s.1.toList = ['-', c] then some (s.1, ⟨s.2, true, some (String.ofList rest)⟩)
      else if argument.isPrefixOf s.1.toList then some (s.1, ⟨s.2, true, none⟩)
      else none
  | _ => []

/-- A spelling with a single dash. -/
def isShort (spelling : List Char) : Bool := spelling[1]? ≠ some '-'

/-- The option that an argument spells in full, perhaps with a value behind an equals sign. -/
def spelled? (argument : List Char) : Option Occurrence :=
  match Opt.spellings.lookup (String.ofList argument) with
  | some opt => some ⟨opt, isShort argument, none⟩
  | none =>
    let (start, value) := splitEquals argument
    match value, Opt.spellings.lookup (String.ofList start) with
    | some value, some opt => some ⟨opt, isShort start, some (String.ofList value)⟩
    | _, _ => none

/-- The class of one argument in front of two dashes. -/
def classify (argument : String) : Except UsageError Argument :=
  let cs := argument.toList
  if cs.head? ≠ some '-' ∨ cs.length = 1 then .ok .plain
  else
    match spelled? cs with
    | some occurrence => .ok (.known occurrence)
    | none =>
      match candidates cs with
      | [one] => .ok (.known one.2)
      | [] => .ok (if isNegativeNumber cs ∨ ' ' ∈ cs then .plain else .unknown)
      | several => .error (.ambiguous argument (several.map (·.1)))

/-- The arguments with their classes. -/
def classifyAll : List String → Except UsageError (List (String × Argument))
  | [] => return []
  | argument :: rest =>
    if argument = "--" then
      return (argument, .dashes) :: rest.map fun a => (a, .plain)
    else do
      let first ← classify argument
      let others ← classifyAll rest
      return (argument, first) :: others

/-! ## Reading -/

inductive Request where
  | help
  | run (options : Options)
  deriving Repr, DecidableEq

/-- Sets the value of an option; two dashes as a value stand for no value. -/
def Options.set (o : Options) (opt : Opt) (value : String) : Options :=
  let value := if value = "--" then "" else value
  match opt with
  | .root => { o with root := value }
  | .manifest => { o with manifest := value }
  | .fragmentDir => { o with fragmentDir := value }
  | .outDir => { o with outDir := value }
  | .hostModule => { o with hostModule := value }
  | _ => o

def Options.switch (o : Options) : Opt → Options
  | .check => { o with check := true }
  | .verbose => { o with verbose := true }
  | _ => o

/-- Accepts letters behind `-h` that are all that letter and so ask for help once more; the letters
from the first other one on are refused. -/
def helpLetters : List Char → Except UsageError Unit
  | [] => .ok ()
  | 'h' :: rest => helpLetters rest
  | rest => .error (.ignoredArgument .help (String.ofList rest))

/-- Reads the arguments from left to right. -/
def readArguments (options : Options) (extras : List String) :
    List (String × Argument) → Except UsageError Request
  | [] => if extras.isEmpty then .ok (.run options) else .error (.unrecognized extras)
  | (_, .known ⟨opt, short, value⟩) :: rest =>
    if opt.takesValue then
      match value, rest with
      | some value, rest => readArguments (options.set opt value) extras rest
      | none, (value, .plain) :: rest => readArguments (options.set opt value) extras rest
      | none, _ => .error (.expectsArgument opt)
    else
      match value with
      | none =>
        if opt = .help then .ok .help else readArguments (options.switch opt) extras rest
      | some value =>
        if short ∧ value ≠ "" then (helpLetters value.toList).map fun _ => .help
        else .error (.ignoredArgument opt value)
  | (argument, _) :: rest => readArguments options (extras ++ [argument]) rest

/-- What the arguments ask for. -/
def Request.ofArguments (arguments : List String) : Except UsageError Request := do
  readArguments {} [] (← classifyAll arguments)

/-! ## Texts -/

def usage : String :=
"usage: wastgen [-h] [--root ROOT] [--manifest MANIFEST]
               [--fragment-dir FRAGMENT_DIR] [--out-dir OUT_DIR]
               [--host-module HOST_MODULE] [--check] [--verbose]
"

def help : String := usage ++
"
Generate the sync and async EVM host-interface glue (wast.json, wast-
async.json).

options:
  -h, --help            show this help message and exit
  --root ROOT           Repository root (defaults to the checkout containing
                        this package, else the current directory).
  --manifest MANIFEST   Interface manifest JSON (defaults to the bundled
                        manifest).
  --fragment-dir FRAGMENT_DIR
                        Directory of hand-written *.wast fragments (defaults
                        to <root>/wasm).
  --out-dir OUT_DIR     Output directory (defaults to <root>/wasm).
  --host-module HOST_MODULE
                        Import module name (overrides the manifest).
  --check               Verify the outputs are up to date instead of writing
                        them.
  --verbose
"

end HostGlue.Cli

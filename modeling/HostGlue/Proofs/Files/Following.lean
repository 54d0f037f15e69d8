import HostGlue.Proofs.Files.Edits
import Mathlib.Data.List.Perm.Subperm

/-!
# Following a path

Where a path leads is a matter of the links on it: whatever is no link is passed, and what a link
says is followed from where it stands. `LeadsTo` says this by rules, without a limit to the number
of links and without a look at whether the directories are there, so it also holds of a path whose
directories are still to be made. The system's own walk asks for the directories and counts the
links; `Walks` are its rules, and whatever is said about a walk is an induction over them.

A path that was followed once can be followed in every later tree in which the directories are still
directories and the links on the way still say the same, whatever else has changed. A tree that
keeps both is `Steady`. It need not be steady everywhere: what the way `Passes` is enough, and of
the directories on it one knows that they stay what they are.
-/

namespace HostGlue.Files

/-- The components lead from the location to the goal. Every link on the way is at a location with
the property `free`. -/
inductive Tree.LeadsTo (t : Tree) (free : Location → Prop) :
    Location → List String → Location → Prop
  | here {place : Location} : LeadsTo t free place [] place
  | step {place goal : Location} {part : String} {rest : List String}
      (plain : ∀ target, t.entry (Path.follow place part) ≠ some (.link target))
      (h : LeadsTo t free (Path.follow place part) rest goal) :
      LeadsTo t free place (part :: rest) goal
  | link {place goal : Location} {part : String} {rest : List String} {target : Path}
      (held : t.entry (Path.follow place part) = some (.link target))
      (allowed : free (Path.follow place part))
      (h : LeadsTo t free (if target.anchor = .relative then place else []) (target.parts ++ rest)
        goal) :
      LeadsTo t free place (part :: rest) goal

/-- The components lead over a location, which may be that of a link or the last one. -/
inductive Tree.Passes (t : Tree) : Location → List String → Location → Prop
  | next {place : Location} {part : String} {rest : List String} :
      Passes t place (part :: rest) (Path.follow place part)
  | step {place a : Location} {part : String} {rest : List String}
      (plain : ∀ target, t.entry (Path.follow place part) ≠ some (.link target))
      (h : Passes t (Path.follow place part) rest a) : Passes t place (part :: rest) a
  | link {place a : Location} {part : String} {rest : List String} {target : Path}
      (held : t.entry (Path.follow place part) = some (.link target))
      (h : Passes t (if target.anchor = .relative then place else []) (target.parts ++ rest) a) :
      Passes t place (part :: rest) a

/-- The system follows the components from the location to the goal over at most the given number of
links. -/
inductive Tree.Walks (t : Tree) (ending : Bool) :
    Nat → Location → List String → Location → Prop
  | here {links : Nat} {place : Location} : Walks t ending links place [] place
  | step {links : Nat} {place goal : Location} {part : String} {rest : List String}
      (directory : t.entry place = some .directory)
      (plain : ∀ target, t.entry (Path.follow place part) ≠ some (.link target))
      (h : Walks t ending links (Path.follow place part) rest goal) :
      Walks t ending links place (part :: rest) goal
  | stop {links : Nat} {place : Location} {part : String} {target : Path}
      (directory : t.entry place = some .directory)
      (held : t.entry (Path.follow place part) = some (.link target))
      (named : ending = false) :
      Walks t ending links place [part] (Path.follow place part)
  | link {links : Nat} {place goal : Location} {part : String} {rest : List String} {target : Path}
      (directory : t.entry place = some .directory)
      (held : t.entry (Path.follow place part) = some (.link target))
      (onward : rest ≠ [] ∨ ending = true)
      (h : Walks t ending links (if target.anchor = .relative then place else [])
        (target.parts ++ rest) goal) :
      Walks t ending (links + 1) place (part :: rest) goal

/-- All locations. -/
def everywhere (_ : Location) : Prop := True

namespace Tree

variable {t t' t'' : Tree} {free free' : Location → Prop} {p q : Path} {name : String}
  {place goal goal' location : Location} {parts more : List String} {ending : Bool} {links : Nat}

/-- The path leads to the location. -/
def Leads (t : Tree) (p : Path) (goal : Location) : Prop :=
  t.LeadsTo everywhere (t.start p) p.parts goal

/-- Where the path leads if no component is a link. -/
def placeOf (t : Tree) (p : Path) : Location := p.parts.foldl Path.follow (t.start p)

/-- No link, no file with two names, and no device: a tree of directories and files only. -/
structure Plain (t : Tree) : Prop where
  linkless : ∀ a target, t.entry a ≠ some (.link target)
  single : ∀ a b number, t.entry a = some (.file number) → t.entry b = some (.file number) → a = b
  keeps : ∀ a number, t.entry a = some (.file number) → number ∉ t.devices

/-- The name of a link in the directory leads over the location behind the link. -/
def Beyond (t : Tree) (directory : Location) (name : String) (a : Location) : Prop :=
  ∃ target, t.entry (directory ++ [name]) = some (.link target) ∧
    t.Passes (if target.anchor = .relative then directory else []) target.parts a

/-- A beginning of the path leads to the location. -/
def OnWay (t : Tree) (p : Path) (a : Location) : Prop :=
  ∃ q : Path, q.anchor = p.anchor ∧ q.parts <+: p.parts ∧ t.Leads q a

/-! ## Where components lead -/

theorem LeadsTo.mono (weaker : ∀ a, free a → free' a) (h : t.LeadsTo free place parts goal) :
    t.LeadsTo free' place parts goal := by
  induction h with
  | here => exact .here
  | step plain _ ih => exact .step plain ih
  | link held allowed _ ih => exact .link held (weaker _ allowed) ih

/-- Components lead to one location only. -/
theorem LeadsTo.unique (h : t.LeadsTo free place parts goal)
    (h' : t.LeadsTo free' place parts goal') : goal = goal' := by
  induction h with
  | here =>
      cases h'
      rfl
  | step plain _ ih =>
      cases h' with
      | step _ h' => exact ih h'
      | link held => exact absurd held (plain _)
  | link held _ _ ih =>
      cases h' with
      | step plain => exact absurd held (plain _)
      | link held' _ h' =>
          obtain rfl : _ = _ := Entry.link.inj (Option.some.inj (held.symm.trans held'))
          exact ih h'

theorem leadsTo_append_iff : t.LeadsTo free place (parts ++ more) location ↔
    ∃ goal, t.LeadsTo free place parts goal ∧ t.LeadsTo free goal more location := by
  constructor
  · intro h
    -- a link puts its own components in front of the rest, so where the list is cut is kept apart
    generalize whole : parts ++ more = all at h
    induction h generalizing parts with
    | here =>
        obtain ⟨rfl, rfl⟩ := List.append_eq_nil_iff.mp whole
        exact ⟨_, .here, .here⟩
    | step plain h ih =>
        cases parts with
        | nil =>
            obtain rfl : more = _ := whole
            exact ⟨_, .here, .step plain h⟩
        | cons first others =>
            obtain ⟨rfl, tail⟩ := List.cons.inj whole
            obtain ⟨goal, leads, onward⟩ := ih tail
            exact ⟨goal, .step plain leads, onward⟩
    | link held allowed h ih =>
        cases parts with
        | nil =>
            obtain rfl : more = _ := whole
            exact ⟨_, .here, .link held allowed h⟩
        | cons first others =>
            obtain ⟨rfl, tail⟩ := List.cons.inj whole
            obtain ⟨goal, leads, onward⟩ := ih ((List.append_assoc _ _ _).trans (congrArg _ tail))
            exact ⟨goal, .link held allowed leads, onward⟩
  · rintro ⟨goal, leads, onward⟩
    induction leads with
    | here => exact onward
    | step plain _ ih => exact .step plain (ih onward)
    | link held allowed _ ih =>
        refine .link held allowed ?_
        have onward := ih onward
        rwa [List.append_assoc] at onward

/-- Where components lead they have passed, unless there are none or they lead to the root. -/
theorem LeadsTo.passes (h : t.LeadsTo free place parts goal) :
    goal = place ∨ goal = [] ∨ t.Passes place parts goal := by
  induction h with
  | here => exact .inl rfl
  | step plain _ ih =>
      rcases ih with rfl | root | passes
      · exact .inr (.inr .next)
      · exact .inr (.inl root)
      · exact .inr (.inr (.step plain passes))
  | link held _ _ ih =>
      rcases ih with rfl | root | passes
      · split
        · exact .inl rfl
        · exact .inr (.inl rfl)
      · exact .inr (.inl root)
      · exact .inr (.inr (.link held passes))

/-- Without links components mean what they say. -/
theorem leadsTo_of_linkless (linkless : ∀ a target, t.entry a ≠ some (.link target))
    (place : Location) (parts : List String) :
    t.LeadsTo free place parts (parts.foldl Path.follow place) := by
  induction parts generalizing place with
  | nil => exact .here
  | cons part rest ih => exact .step (linkless _) (ih _)

theorem Plain.leads (h : t.Plain) (p : Path) : t.Leads p (t.placeOf p) :=
  leadsTo_of_linkless h.linkless _ _

theorem Plain.eq_placeOf (h : t.Plain) (leads : t.Leads p goal) : goal = t.placeOf p :=
  leads.unique (h.leads p)

theorem resolveWith_congr {pending : List Location}
    {onLink onLink' : Location → Location → List String → Location × Bool}
    (same : ∀ a target, a ∉ pending → t.entry a = some (.link target) → onLink a = onLink' a)
    (place : Location) (parts : List String) :
    t.resolveWith pending onLink place parts = t.resolveWith pending onLink' place parts := by
  induction parts generalizing place with
  | nil => rfl
  | cons part rest ih =>
      rw [resolveWith, resolveWith]
      split
      · next target held =>
          split
          · rfl
          · next new =>
              rw [same _ target new held]
              split
              · exact ih _
              · rfl
      · exact ih _

/-- The links that are being replaced are different entries. -/
theorem resolveTo_succ {depth : Nat} {pending : List Location} (nodup : pending.Nodup)
    (links : ∀ a ∈ pending, ∃ target, t.entry a = some (.link target))
    (enough : t.entries.length < depth + pending.length) :
    t.resolveTo (depth + 1) pending = t.resolveTo depth pending := by
  -- each link followed is a new entry in `pending`, so with no depth left there would be more links
  -- than entries
  induction depth generalizing pending with
  | zero =>
      have known : pending ⊆ t.entries.map (·.1) := by
        intro a mem
        obtain ⟨target, held⟩ := links a mem
        have root : a ≠ [] := by
          rintro rfl
          cases held
        exact List.mem_map_of_mem (mem_of_entry root held)
      have few := (List.subperm_of_subset nodup known).length_le
      rw [List.length_map] at few
      omega
  | succ depth ih =>
      funext place parts
      rw [resolveTo, resolveTo]
      refine resolveWith_congr (fun a target new held => ?_) place parts
      refine ih (List.nodup_cons.mpr ⟨new, nodup⟩) ?_ (by rw [List.length_cons]; omega)
      exact List.forall_mem_cons.mpr ⟨⟨target, held⟩, links⟩

/-- **The depth is enough.** To every greater depth a path is resolved in the same way. -/
theorem resolve_eq_of_deep {depth : Nat} (deep : t.entries.length < depth) (p : Path) :
    t.resolve p = ⟨.root, (t.resolveTo depth [] (t.start p) p.parts).1⟩ := by
  induction depth with
  | zero => omega
  | succ depth ih =>
      rcases Nat.lt_succ_iff_lt_or_eq.mp deep with deep | rfl
      · rw [ih deep, resolveTo_succ List.nodup_nil nofun deep]
      · rfl

/-! ## Walks -/

theorem walks_of_walkWith {onLink : Location → List String → Except OsCode Location}
    (through : ∀ place parts goal, onLink place parts = .ok goal →
      ∃ fewer, links = fewer + 1 ∧ t.Walks ending fewer place parts goal)
    (h : t.walkWith ending onLink place parts = .ok goal) :
    t.Walks ending links place parts goal := by
  induction parts generalizing place with
  | nil =>
      cases h
      exact .here
  | cons part rest ih =>
      rw [walkWith] at h
      split at h
      · next directory =>
          dsimp only at h
          split at h
          · next target held =>
              split at h
              · next last =>
                  obtain ⟨rfl, named⟩ := last
                  cases h
                  exact .stop directory held (Bool.eq_false_iff.mpr named)
              · next onward =>
                  obtain ⟨fewer, rfl, walks⟩ := through _ _ _ h
                  refine .link directory held ?_ walks
                  by_cases last : rest = []
                  · exact .inr (by simpa [last] using onward)
                  · exact .inl last
          · next plain => exact .step directory plain (ih h)
      · cases h
      · cases h

theorem walk_step {part : String} {rest : List String} (directory : t.entry place = some .directory)
    (plain : ∀ target, t.entry (Path.follow place part) ≠ some (.link target)) :
    t.walk ending links place (part :: rest) =
      t.walk ending links (Path.follow place part) rest := by
  cases links with
  | zero =>
      rw [walk, walkWith, directory]
      dsimp only
      split
      · next target held => exact absurd held (plain target)
      · rfl
  | succ links =>
      rw [walk, walkWith, directory]
      dsimp only
      split
      · next target held => exact absurd held (plain target)
      · rfl

/-- The system's walk goes by the rules. -/
theorem walk_eq_ok_iff :
    t.walk ending links place parts = .ok goal ↔ t.Walks ending links place parts goal := by
  constructor
  · intro h
    -- over the links that may still be met; what is passed without one is `walks_of_walkWith`
    induction links generalizing place parts goal with
    | zero =>
        refine walks_of_walkWith (fun _ _ _ refused => ?_) h
        cases refused
    | succ links ih => exact walks_of_walkWith (fun _ _ _ found => ⟨links, rfl, ih found⟩) h
  · intro h
    induction h with
    | @here links place => cases links <;> rfl
    | step directory plain _ ih => rwa [walk_step directory plain]
    | @stop links place part target directory held named =>
        cases links <;> simp [walk, walkWith, directory, held, named]
    | link directory held onward _ ih =>
        rw [walk, walkWith, directory]
        dsimp only
        rw [held]
        dsimp only
        rwa [if_neg]
        rintro ⟨last, named⟩
        exact onward.elim (fun h => h last) named

/-- A walk ends where the components lead, unless it ends at a link. -/
theorem Walks.leadsTo (h : t.Walks ending links place parts goal)
    (final : ending = true ∨ ∀ target, t.entry goal ≠ some (.link target)) :
    t.LeadsTo everywhere place parts goal := by
  induction h with
  | here => exact .here
  | step _ plain _ ih => exact .step plain (ih final)
  | stop _ held named =>
      rcases final with through | plain
      · rw [named] at through
        cases through
      · exact absurd held (plain _)
  | link _ held _ _ ih => exact .link held trivial (ih final)

/-- Whatever a walk to a directory passes is a directory. -/
theorem Walks.passed (h : t.Walks true links place parts goal)
    (directory : t.entry goal = some .directory) {a : Location} (begins : more <+: parts)
    (leads : t.LeadsTo free place more a) : t.entry a = some .directory := by
  induction h generalizing more with
  | here =>
      obtain rfl := List.prefix_nil.mp begins
      cases leads
      exact directory
  | step here plain _ ih =>
      cases leads with
      | here => exact here
      | step _ leads =>
          obtain ⟨rfl, others⟩ := List.cons_prefix_cons.mp begins
          exact ih directory others leads
      | link held =>
          obtain ⟨rfl, -⟩ := List.cons_prefix_cons.mp begins
          exact absurd held (plain _)
  | stop _ _ named => cases named
  | link here held _ _ ih =>
      cases leads with
      | here => exact here
      | step plain =>
          obtain ⟨rfl, -⟩ := List.cons_prefix_cons.mp begins
          exact absurd held (plain _)
      | link held' _ leads =>
          obtain ⟨rfl, others⟩ := List.cons_prefix_cons.mp begins
          obtain rfl : _ = _ := Entry.link.inj (Option.some.inj (held.symm.trans held'))
          exact ih directory ((List.prefix_append_right_inj _).mpr others) leads

/-- From a directory that a walk has come to it goes on to an entry. -/
theorem Walks.enter (h : t.Walks true links place parts goal)
    (directory : t.entry goal = some .directory)
    (final : ending = false ∨ ∀ target, t.entry (Path.follow goal name) ≠ some (.link target)) :
    t.Walks ending links place (parts ++ [name]) (Path.follow goal name) := by
  induction h with
  | @here links goal =>
      by_cases link : ∃ target, t.entry (Path.follow goal name) = some (.link target)
      · obtain ⟨target, held⟩ := link
        rcases final with named | plain
        · exact .stop directory held named
        · exact absurd held (plain target)
      · exact .step directory (fun target held => link ⟨target, held⟩) .here
  | step here plain _ ih => exact .step here plain (ih directory final)
  | stop _ _ named => cases named
  | link here held _ _ ih =>
      rw [List.cons_append]
      refine .link here held (.inl (by simp)) ?_
      rw [← List.append_assoc]
      exact ih directory final

/-- A walk to an entry comes to its directory first. -/
theorem Walks.leave (h : t.Walks ending links place (parts ++ [name]) location) :
    ∃ goal, t.Walks true links place parts goal ∧ t.entry goal = some .directory ∧
      (location = Path.follow goal name ∨
        ending = true ∧ ∃ target, t.entry (Path.follow goal name) = some (.link target)) := by
  generalize whole : parts ++ [name] = all at h
  induction h generalizing parts with
  | here => simp at whole
  | @step links place location part rest directory plain walks ih =>
      cases parts with
      | nil =>
          obtain ⟨rfl, rfl⟩ := List.cons.inj whole
          cases walks
          exact ⟨place, .here, directory, .inl rfl⟩
      | cons first others =>
          obtain ⟨rfl, tail⟩ := List.cons.inj whole
          obtain ⟨goal, walks, found⟩ := ih tail
          exact ⟨goal, .step directory plain walks, found⟩
  | @stop links place part target directory held named =>
      cases parts with
      | nil =>
          obtain ⟨rfl, -⟩ := List.cons.inj whole
          exact ⟨place, .here, directory, .inl rfl⟩
      | cons first others => simp at whole
  | @link links place location part rest target directory held onward walks ih =>
      cases parts with
      | nil =>
          obtain ⟨rfl, rfl⟩ := List.cons.inj whole
          refine ⟨place, .here, directory, .inr ⟨?_, target, held⟩⟩
          exact onward.resolve_left (by simp)
      | cons first others =>
          rw [List.cons_append] at whole
          obtain ⟨rfl, rfl⟩ := List.cons.inj whole
          obtain ⟨goal, walks, found⟩ := ih (List.append_assoc _ _ _)
          exact ⟨goal, .link directory held (.inr rfl) walks, found⟩

/-- Where a path leads to something, the path itself names something. -/
theorem Walks.named (h : t.Walks true links place parts goal) (there : t.entry goal ≠ none) :
    ∃ a, t.Walks false links place parts a ∧ t.entry a ≠ none := by
  induction h with
  | here => exact ⟨_, .here, there⟩
  | step directory plain _ ih =>
      obtain ⟨a, walks, held⟩ := ih there
      exact ⟨a, .step directory plain walks, held⟩
  | stop _ _ named => cases named
  | @link links place goal part rest target directory held _ _ ih =>
      cases rest with
      -- the last component is a link: the name stops at it, wherever it leads
      | nil => exact ⟨_, .stop directory held rfl, by simp [held]⟩
      | cons next rest =>
          obtain ⟨a, walks, found⟩ := ih there
          exact ⟨a, .link directory held (.inl (by simp)) walks, found⟩

/-! ## Steady trees -/

/-- The directories are still directories, and the locations with the property hold the same links.
-/
structure Steady (free : Location → Prop) (t t' : Tree) : Prop where
  workingDirectory : t'.workingDirectory = t.workingDirectory
  devices : t'.devices = t.devices
  directory : ∀ a, t.entry a = some .directory → t'.entry a = some .directory
  link : ∀ a, free a → ∀ target, t'.entry a = some (.link target) ↔ t.entry a = some (.link target)

theorem Steady.refl (t : Tree) : t.Steady free t :=
  ⟨rfl, rfl, fun _ h => h, fun _ _ _ => .rfl⟩

theorem Steady.trans (h : t.Steady free t') (h' : t'.Steady free t'') : t.Steady free t'' where
  workingDirectory := h'.workingDirectory.trans h.workingDirectory
  devices := h'.devices.trans h.devices
  directory a there := h'.directory a (h.directory a there)
  link a allowed target := (h'.link a allowed target).trans (h.link a allowed target)

theorem Steady.mono (weaker : ∀ a, free' a → free a) (h : t.Steady free t') : t.Steady free' t' :=
  ⟨h.workingDirectory, h.devices, h.directory, fun a allowed => h.link a (weaker a allowed)⟩

theorem Steady.start (h : t.Steady free t') (p : Path) : t'.start p = t.start p := by
  rw [Tree.start, Tree.start, h.workingDirectory]

/-- Components lead in both trees to one location if all that they pass is steady. -/
theorem Steady.leadsTo_iff (steady : t.Steady free t')
    (passed : ∀ a, t.Passes place parts a → free a) :
    t'.LeadsTo free' place parts goal ↔ t.LeadsTo free' place parts goal := by
  constructor
  · intro h
    induction h with
    | here => exact .here
    | step plain _ ih =>
        have plain' (target : Path) :=
          (not_congr (steady.link _ (passed _ .next) target)).mp (plain target)
        exact .step plain' (ih fun a passes => passed a (.step plain' passes))
    | link held allowed _ ih =>
        have held' := (steady.link _ (passed _ .next) _).mp held
        exact .link held' allowed (ih fun a passes => passed a (.link held' passes))
  · intro h
    induction h with
    | here => exact .here
    | step plain _ ih =>
        exact .step
          (fun target => (not_congr (steady.link _ (passed _ .next) target)).mpr (plain target))
          (ih fun a passes => passed a (.step plain passes))
    | link held allowed _ ih =>
        exact .link ((steady.link _ (passed _ .next) _).mpr held) allowed
          (ih fun a passes => passed a (.link held passes))

/-- Where no link has changed, a path leads where it led. -/
theorem Steady.leads_iff (steady : t.Steady everywhere t') : t'.Leads p goal ↔ t.Leads p goal := by
  rw [Leads, Leads, steady.start]
  exact steady.leadsTo_iff fun _ _ => trivial

theorem Steady.passes (steady : t.Steady free t') (passed : ∀ a, t.Passes place parts a → free a)
    (h : t'.Passes place parts location) : t.Passes place parts location := by
  induction h with
  | next => exact .next
  | step plain _ ih =>
      have plain' (target : Path) :=
        (not_congr (steady.link _ (passed _ .next) target)).mp (plain target)
      exact .step plain' (ih fun a passes => passed a (.step plain' passes))
  | link held _ ih =>
      have held' := (steady.link _ (passed _ .next) _).mp held
      exact .link held' (ih fun a passes => passed a (.link held' passes))

/-- A walk can be done again if all that it passes is steady. -/
theorem Walks.of_passed (h : t.Walks true links place parts goal) (steady : t.Steady free t')
    (passed : ∀ a, t.Passes place parts a → free a) : t'.Walks true links place parts goal := by
  induction h with
  | here => exact .here
  | step directory plain _ ih =>
      exact .step (steady.directory _ directory)
        (fun target => (not_congr (steady.link _ (passed _ .next) target)).mpr (plain target))
        (ih fun a passes => passed a (.step plain passes))
  | stop _ _ named => cases named
  | link directory held onward _ ih =>
      exact .link (steady.directory _ directory)
        ((steady.link _ (passed _ .next) _).mpr held) onward
        (ih fun a passes => passed a (.link held passes))

/-- A walk sets out from a directory, or it stays where it is. -/
theorem Walks.start (h : t.Walks ending links place parts goal) :
    t.entry place = some .directory ∨ parts = [] ∧ goal = place := by
  cases h with
  | here => exact .inr ⟨rfl, rfl⟩
  | step here => exact .inl here
  | stop here => exact .inl here
  | link here => exact .inl here

/-- A walk to a directory can be done again if the links on it are steady: of everything else that
it passes one knows that it is a directory. -/
theorem Walks.of_steady (h : t.Walks true links place parts goal)
    (directory : t.entry goal = some .directory) (leads : t.LeadsTo free place parts goal)
    (steady : t.Steady free t') :
    t'.Walks true links place parts goal ∧ t'.LeadsTo free place parts goal := by
  induction h with
  | here => exact ⟨.here, .here⟩
  | step here plain walks ih =>
      cases leads with
      | step _ leads =>
          obtain ⟨walks', leads'⟩ := ih directory leads
          -- the walk goes on from here, or it ends here at a directory: no link has come here
          have next := steady.directory _
            (walks.start.elim id fun stays => stays.2 ▸ directory)
          exact ⟨.step (steady.directory _ here) (fun target => by simp [next]) walks',
            .step (fun target => by simp [next]) leads'⟩
      | link held => exact absurd held (plain _)
  | stop _ _ named => cases named
  | link here held onward _ ih =>
      cases leads with
      | step plain => exact absurd held (plain _)
      | link held' allowed leads =>
          obtain rfl : _ = _ := Entry.link.inj (Option.some.inj (held.symm.trans held'))
          obtain ⟨walks', leads'⟩ := ih directory leads
          have kept := (steady.link _ allowed _).mpr held
          exact ⟨.link (steady.directory _ here) kept onward walks', .link kept allowed leads'⟩

/-- A walk to an entry of a directory can be done again with another last step. -/
theorem Walks.exchange {name' : String} {location' : Location}
    (h : t.Walks true links place (parts ++ [name]) location)
    (way : t.LeadsTo free place parts goal) (steady : t.Steady free t')
    (last : ∀ links, t.Walks true links goal [name] location →
      t'.Walks true links goal [name'] location') :
    t'.Walks true links place (parts ++ [name']) location' := by
  generalize whole : parts ++ [name] = all at h
  induction h generalizing parts with
  | here => simp at whole
  | @step links place location part rest here plain walks ih =>
      cases parts with
      | nil =>
          obtain ⟨rfl, rfl⟩ := List.cons.inj whole
          cases way
          exact last _ (.step here plain walks)
      | cons first others =>
          obtain ⟨rfl, tail⟩ := List.cons.inj whole
          -- the last name is still to come, so the walk goes on from a directory
          have next : t.entry (Path.follow place first) = some .directory :=
            walks.start.resolve_right fun stays => by simp [stays.1] at tail
          have next' := steady.directory _ next
          cases way with
          | step _ way =>
              exact .step (steady.directory _ here) (fun target => by simp [next'])
                (ih way last tail)
          | link held => exact absurd held (plain _)
  | stop _ _ named => cases named
  | link here held onward walks ih =>
      cases parts with
      | nil =>
          obtain ⟨rfl, rfl⟩ := List.cons.inj whole
          cases way
          exact last _ (.link here held onward walks)
      | cons first others =>
          obtain ⟨rfl, tail⟩ := List.cons.inj whole
          cases way with
          | step plain => exact absurd held (plain _)
          | link held' allowed way =>
              obtain rfl : _ = _ := Entry.link.inj (Option.some.inj (held.symm.trans held'))
              refine .link (steady.directory _ here) ((steady.link _ allowed _).mpr held)
                (.inr rfl) ?_
              have again := ih way last ((List.append_assoc _ _ _).trans (congrArg _ tail))
              rwa [List.append_assoc] at again

theorem steady_setContent (t : Tree) (number : Nat) (bytes : List UInt8) :
    t.Steady free (t.setContent number bytes) :=
  ⟨rfl, rfl, fun _ h => h, fun _ _ _ => .rfl⟩

/-- Where there was nothing anything but a link may be put. -/
theorem steady_setEntry {a : Location} {entry : Entry} (absent : t.entry a = none)
    (plain : ∀ target, entry ≠ .link target) : t.Steady free (t.setEntry a entry) := by
  have root : a ≠ [] := ne_nil_of_entry (t := t) (by simp [absent])
  refine ⟨rfl, rfl, fun b there => ?_, fun b _ target => ?_⟩
  · rw [entry_setEntry root, if_neg, there]
    rintro rfl
    cases absent.symm.trans there
  · rw [entry_setEntry root]
    split
    · next here => simp [here, absent, plain target]
    · exact .rfl

/-- What is no directory may be moved over anything but a directory. -/
theorem steady_move {source : Location} {entry : Entry} (held : t.entry source = some entry)
    (plain : entry ≠ .directory) (noDirectory : t.entry goal ≠ some .directory)
    (away : ∀ a, free a → a ≠ goal ∧ a ≠ source) :
    t.Steady free ((t.drop source).setEntry goal entry) := by
  have sourceRoot : source ≠ [] := ne_nil_of_entry (t := t) (by simp [held, plain])
  have kept {b : Location} (target : b ≠ goal) (other : b ≠ source) :
      ((t.drop source).setEntry goal entry).entry b = t.entry b := by
    rw [entry_move sourceRoot (ne_nil_of_entry noDirectory), if_neg target, if_neg other]
  refine ⟨rfl, rfl, fun b there => ?_, fun b allowed target => ?_⟩
  · rw [kept, there]
    · rintro rfl
      exact noDirectory there
    · rintro rfl
      exact plain (Option.some.inj (held.symm.trans there))
  · rw [kept (away b allowed).1 (away b allowed).2]

/-- A move of a file makes no link or device and gives no file a second name. -/
theorem Plain.move {source : Location} {number : Nat} (h : t.Plain)
    (held : t.entry source = some (.file number)) (target : goal ≠ []) :
    ((t.drop source).setEntry goal (.file number)).Plain := by
  have now (b : Location) : ((t.drop source).setEntry goal (.file number)).entry b =
      if b = goal then some (.file number) else if b = source then none else t.entry b :=
    entry_move (ne_nil_of_entry (t := t) (by simp [held])) target
  have file (b : Location) (m : Nat)
      (there : ((t.drop source).setEntry goal (.file number)).entry b = some (.file m)) :
      b = goal ∧ m = number ∨ b ≠ source ∧ t.entry b = some (.file m) := by
    rw [now] at there
    split at there
    · next here =>
        cases there
        exact .inl ⟨here, rfl⟩
    · split at there
      · cases there
      · next away => exact .inr ⟨away, there⟩
  refine ⟨fun b link there => ?_, fun b c m first second => ?_, fun b m there => ?_⟩
  · rw [now] at there
    split at there
    · cases there
    · split at there
      · cases there
      · exact h.linkless b link there
  · rcases file b m first with ⟨rfl, rfl⟩ | ⟨away, old⟩
    · rcases file c m second with ⟨rfl, -⟩ | ⟨away, old⟩
      · rfl
      · exact absurd (h.single _ _ _ old held) away
    · rcases file c m second with ⟨rfl, rfl⟩ | ⟨-, old'⟩
      · exact absurd (h.single _ _ _ old held) away
      · exact h.single b c m old old'
  · rcases file b m there with ⟨-, rfl⟩ | ⟨-, old⟩
    · exact h.keeps _ _ held
    · exact h.keeps _ _ old

theorem steady_makeDirectory (made : t.makeDirectory p = .ok t') : t.Steady free t' := by
  obtain ⟨location, -, absent, rfl⟩ := makeDirectory_eq_ok_iff.mp made
  exact steady_setEntry absent fun _ => Entry.noConfusion

theorem steady_openForWriting (opened : t.openForWriting p = .ok t') : t.Steady free t' := by
  obtain ⟨location, -, ⟨number, -, rfl⟩ | ⟨absent, rfl⟩⟩ := openForWriting_eq_ok_iff.mp opened
  · exact steady_setContent _ _ _
  · exact (steady_setEntry absent fun _ => Entry.noConfusion).trans (steady_setContent _ _ _)

theorem locate_of_steady (steady : t.Steady everywhere t') (h : t.locate p = .ok location) :
    t'.locate p = .ok location := by
  rw [Tree.locate, walk_eq_ok_iff, steady.start]
  exact (walk_eq_ok_iff.mp h).of_passed steady fun _ _ => trivial

/-! ## Directories that are there -/

/-- The path leads to a directory that is there. -/
structure Reaches (t : Tree) (p : Path) (goal : Location) : Prop where
  locate : t.locate p = .ok goal
  directory : t.entry goal = some .directory

theorem leads_of_locate (h : t.locate p = .ok location) : t.Leads p location :=
  (walk_eq_ok_iff.mp h).leadsTo (.inl rfl)

theorem Reaches.leads (h : t.Reaches p goal) : t.Leads p goal := leads_of_locate h.locate

theorem Reaches.passed (h : t.Reaches p goal) {a : Location} (way : t.OnWay p a) :
    t.entry a = some .directory := by
  obtain ⟨q, anchor, begins, leads⟩ := way
  rw [Leads, Tree.start, anchor] at leads
  exact (walk_eq_ok_iff.mp h.locate).passed h.directory begins leads

theorem Reaches.of_steady (h : t.Reaches p goal) (way : t.LeadsTo free (t.start p) p.parts goal)
    (steady : t.Steady free t') :
    t'.Reaches p goal ∧ t'.LeadsTo free (t'.start p) p.parts goal := by
  obtain ⟨walks, leads⟩ := (walk_eq_ok_iff.mp h.locate).of_steady h.directory way steady
  rw [steady.start]
  refine ⟨⟨?_, steady.directory _ h.directory⟩, leads⟩
  rwa [Tree.locate, walk_eq_ok_iff, steady.start]

theorem follow_name (ordinary : name ≠ "..") (place : Location) :
    Path.follow place name = place ++ [name] := if_neg ordinary

theorem placeOf_child (ordinary : name ≠ "..") :
    t.placeOf (p.child name) = t.placeOf p ++ [name] := by
  rw [placeOf, Path.child, List.foldl_append]
  exact follow_name ordinary _

/-! ## The last name of a path -/

theorem leads_child_iff : t.Leads (p.child name) location ↔
    ∃ goal, t.Leads p goal ∧ t.LeadsTo everywhere goal [name] location :=
  leadsTo_append_iff

section Names

variable (ordinary : name ≠ "..")
include ordinary

/-- A name leads to its own location if there is no link. -/
theorem leadsTo_name_iff : t.LeadsTo everywhere goal [name] location ↔
    (∀ target, t.entry (goal ++ [name]) ≠ some (.link target)) ∧ location = goal ++ [name] ∨
      ∃ target, t.entry (goal ++ [name]) = some (.link target) ∧
        t.LeadsTo everywhere (if target.anchor = .relative then goal else []) target.parts
          location := by
  rw [← follow_name ordinary]
  constructor
  · intro h
    cases h with
    | step plain h =>
        cases h
        exact .inl ⟨plain, rfl⟩
    | link held _ h => exact .inr ⟨_, held, by rwa [List.append_nil] at h⟩
  · rintro (⟨plain, rfl⟩ | ⟨target, held, h⟩)
    · exact .step plain .here
    · exact .link held trivial (by rwa [List.append_nil])

theorem Passes.last (h : t.Passes goal [name] location) :
    location = goal ++ [name] ∨ t.Beyond goal name location := by
  rw [Beyond, ← follow_name ordinary]
  cases h with
  | next => exact .inl rfl
  | step _ h => cases h
  | link held h => exact .inr ⟨_, held, by rwa [List.append_nil] at h⟩

/-- A name leads to its own location, or to one that its link leads over. -/
theorem LeadsTo.last (h : t.LeadsTo free goal [name] location) :
    location = goal ∨ location = [] ∨ location = goal ++ [name] ∨ t.Beyond goal name location :=
  h.passes.imp_right (Or.imp_right fun passes => passes.last ordinary)

theorem LeadsTo.eq_of_plain (leads : t.LeadsTo everywhere goal [name] location)
    (plain : ∀ target, t.entry (goal ++ [name]) ≠ some (.link target)) :
    location = goal ++ [name] := by
  rcases (leadsTo_name_iff ordinary).mp leads with ⟨-, here⟩ | ⟨target, link, -⟩
  · exact here
  · exact absurd link (plain target)

/-- The way to the directory and behind the name is steady. -/
theorem locate_of_way (located : t.locate (p.child name) = .ok location)
    (way : t.LeadsTo free (t.start p) p.parts goal) (steady : t.Steady free t')
    (own : free (goal ++ [name])) (beyond : ∀ a, t.Beyond goal name a → free a) :
    t'.locate (p.child name) = .ok location := by
  have walks := walk_eq_ok_iff.mp located
  rw [Tree.locate, walk_eq_ok_iff, steady.start]
  refine walks.exchange way steady fun links last => last.of_passed steady fun a passes => ?_
  exact (passes.last ordinary).elim (fun here => here ▸ own) (beyond a)

/-- A link that now stands under another name leads from there to where it led. -/
theorem locate_of_moved {name' : String} {target : Path} (ordinary' : name' ≠ "..")
    (located : t.locate (p.child name) = .ok location)
    (way : t.LeadsTo free (t.start p) p.parts goal) (steady : t.Steady free t')
    (held : t.entry (goal ++ [name]) = some (.link target))
    (moved : t'.entry (goal ++ [name']) = some (.link target))
    (beyond : ∀ a, t.Beyond goal name a → free a) : t'.locate (p.child name') = .ok location := by
  have walks := walk_eq_ok_iff.mp located
  rw [← follow_name ordinary] at held
  rw [← follow_name ordinary'] at moved
  rw [Tree.locate, walk_eq_ok_iff, steady.start]
  refine walks.exchange way steady fun links last => ?_
  cases last with
  | step _ plain => exact absurd held (plain target)
  | link directory held' onward h =>
      obtain rfl : _ = _ := Entry.link.inj (Option.some.inj (held.symm.trans held'))
      refine .link (steady.directory _ directory) moved onward ?_
      rw [List.append_nil] at h ⊢
      refine h.of_passed steady fun a passes => beyond a ⟨target, ?_, passes⟩
      rwa [← follow_name ordinary]
  | stop _ _ named => cases named

theorem Steady.leadsTo_name_iff (steady : t.Steady free t') (own : free (goal ++ [name]))
    (beyond : ∀ a, t.Beyond goal name a → free a) :
    t'.LeadsTo free' goal [name] location ↔ t.LeadsTo free' goal [name] location :=
  steady.leadsTo_iff fun a passes =>
    (passes.last ordinary).elim (fun here => here ▸ own) (beyond a)

end Names

/-- Where all that a name leads over is steady it leads over nothing else. -/
theorem Steady.beyond (steady : t.Steady free t') (own : free (goal ++ [name]))
    (beyond : ∀ a, t.Beyond goal name a → free a) (h : t'.Beyond goal name location) :
    t.Beyond goal name location := by
  obtain ⟨target, held, passes⟩ := h
  have held := (steady.link _ own target).mp held
  exact ⟨target, held, steady.passes (fun a there => beyond a ⟨target, held, there⟩) passes⟩

/-- An entry of the directory is named by its name. -/
theorem Reaches.locateEntry (h : t.Reaches p goal) (ordinary : name ≠ "..") :
    t.locateEntry (p.child name) = .ok (goal ++ [name]) := by
  rw [← follow_name ordinary, Tree.locateEntry, walk_eq_ok_iff]
  exact (walk_eq_ok_iff.mp h.locate).enter h.directory (.inl rfl)

/-- The name of an entry that is no link leads to the entry. -/
theorem Reaches.locate_child (h : t.Reaches p goal) (ordinary : name ≠ "..")
    (plain : ∀ target, t.entry (goal ++ [name]) ≠ some (.link target)) :
    t.locate (p.child name) = .ok (goal ++ [name]) := by
  rw [← follow_name ordinary] at plain ⊢
  rw [Tree.locate, walk_eq_ok_iff]
  exact (walk_eq_ok_iff.mp h.locate).enter h.directory (.inr plain)

theorem Reaches.find?_child (h : t.Reaches p goal) (ordinary : name ≠ "..")
    (plain : ∀ target, t.entry (goal ++ [name]) ≠ some (.link target)) :
    t.find? (p.child name) = t.lookup (goal ++ [name]) := by
  rw [Tree.find?, h.locate_child ordinary plain]

/-- What names an entry has reached the entry's directory. -/
theorem reaches_of_locateEntry (ordinary : name ≠ "..")
    (h : t.locateEntry (p.child name) = .ok location) :
    ∃ goal, t.Reaches p goal ∧ location = goal ++ [name] := by
  obtain ⟨goal, walks, directory, place | ⟨through, -⟩⟩ := (walk_eq_ok_iff.mp h).leave
  · exact ⟨goal, ⟨walk_eq_ok_iff.mpr walks, directory⟩, place.trans (follow_name ordinary _)⟩
  · cases through

/-- What leads to an entry has reached the entry's directory. -/
theorem reaches_of_locate (ordinary : name ≠ "..")
    (h : t.locate (p.child name) = .ok location) :
    ∃ goal, t.Reaches p goal ∧ (location = goal ++ [name] ∨
      ∃ target, t.entry (goal ++ [name]) = some (.link target)) := by
  obtain ⟨goal, walks, directory, found⟩ := (walk_eq_ok_iff.mp h).leave
  rw [follow_name ordinary] at found
  exact ⟨goal, ⟨walk_eq_ok_iff.mpr walks, directory⟩, found.imp_right And.right⟩

/-- A directory that is there cannot be made. -/
theorem Reaches.makeDirectory (h : t.Reaches p goal) :
    t.makeDirectory p = .error .alreadyExists := by
  obtain ⟨a, walks, there⟩ :=
    (walk_eq_ok_iff.mp h.locate).named (by simp [h.directory])
  obtain ⟨entry, held⟩ := Option.ne_none_iff_exists'.mp there
  rw [Tree.makeDirectory, Tree.locateEntry, walk_eq_ok_iff.mpr walks, except_ok_bind, held]
  rfl

/-- Where a directory is made the path leads. -/
theorem leads_of_locateEntry (h : t.locateEntry p = .ok location)
    (absent : t.entry location = none) :
    t.Leads p location :=
  (walk_eq_ok_iff.mp h).leadsTo (.inr fun target => by simp [absent])

/-! ## What stands at a path -/

theorem stat_eq_ok_iff {item : Item} : t.stat p = .ok item ↔ t.find? p = some item := by
  rw [stat, find?, except_bind_eq_ok]
  cases t.locate p with
  | error code => simp
  | ok location =>
      cases held : t.lookup location <;> simp [held, throw, throwThe, MonadExceptOf.throw]

theorem bytesAt_eq_ok_iff {bytes : List UInt8} :
    t.bytesAt p = .ok bytes ↔ t.find? p = some (.file bytes) := by
  rw [bytesAt, except_bind_eq_ok]
  constructor
  · rintro ⟨item, found, given⟩
    rw [stat_eq_ok_iff] at found
    cases item with
    | file held =>
        cases given
        exact found
    | directory => cases given
    | link target => cases given
  · exact fun found => ⟨_, stat_eq_ok_iff.mpr found, rfl⟩

theorem stat_eq_directory_iff : t.stat p = .ok .directory ↔ ∃ goal, t.Reaches p goal := by
  rw [stat_eq_ok_iff, find?]
  constructor
  · intro found
    split at found
    · next goal located => exact ⟨goal, located, lookup_eq_directory_iff.mp found⟩
    · cases found
  · rintro ⟨goal, located, directory⟩
    rw [located]
    exact lookup_eq_directory_iff.mpr directory

theorem namesAt_eq_ok_iff {names : List String} : t.namesAt p = .ok names ↔
    ∃ location, t.Reaches p location ∧ t.namesIn location = names := by
  rw [namesAt, except_bind_eq_ok]
  constructor
  · rintro ⟨location, located, given⟩
    split at given
    · next here =>
        cases given
        exact ⟨location, ⟨located, here⟩, rfl⟩
    · cases given
    · cases given
  · rintro ⟨location, reached, rfl⟩
    refine ⟨location, reached.locate, ?_⟩
    rw [reached.directory]
    rfl

end Tree

end HostGlue.Files

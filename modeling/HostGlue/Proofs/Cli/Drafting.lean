import HostGlue.Files.Publication
import HostGlue.Proofs.Files.Actions

/-!
# Writing a document

A document is written into a draft, and the draft is moved to the document's place. This module says
what that does to a tree, whatever stands there and whichever names are links. Up to the move
directories are made on the way, and the bytes of one file change, the one that the draft's path
leads to; it may be new. The move is the last step, and it is done as a whole or not at all.

Nothing is asked of the tree, and so nothing is said about the documents. What they hold depends on
where the drafts lead.
-/

namespace HostGlue.Cli

open Files Interface

/-! ## Places -/

/-- The place of a document in a directory. -/
def documentPlace (goal : Location) (mode : Mode) : Location := goal ++ [outputName mode]

/-- The place of a document's draft. -/
def draftPlace (goal : Location) (mode : Mode) : Location := goal ++ [outputName mode ++ ".tmp"]

/-- The places in a directory that are a document's or a draft's. -/
def Public (goal a : Location) : Prop :=
  ∃ mode, a = documentPlace goal mode ∨ a = draftPlace goal mode

theorem outputName_inj {mode other : Mode} (h : outputName mode = outputName other) :
    mode = other := by
  revert h
  cases mode <;> cases other <;> decide

theorem outputName_ne_draft (mode other : Mode) : outputName mode ≠ outputName other ++ ".tmp" := by
  cases mode <;> cases other <;> decide

theorem outputName_ordinary (mode : Mode) :
    outputName mode ≠ ".." ∧ outputName mode ++ ".tmp" ≠ ".." := by
  cases mode <;> decide

section Places

variable {goal : Location} {mode other : Mode}

theorem documentPlace_inj (h : documentPlace goal mode = documentPlace goal other) :
    mode = other :=
  outputName_inj (List.append_singleton_inj.mp h).2

theorem draftPlace_inj (h : draftPlace goal mode = draftPlace goal other) : mode = other := by
  have same := (List.append_singleton_inj.mp h).2
  revert same
  cases mode <;> cases other <;> decide

theorem documentPlace_ne_draftPlace (goal : Location) (mode other : Mode) :
    documentPlace goal mode ≠ draftPlace goal other :=
  fun h => outputName_ne_draft mode other (List.append_singleton_inj.mp h).2

theorem public_document (goal : Location) (mode : Mode) : Public goal (documentPlace goal mode) :=
  ⟨mode, .inl rfl⟩

theorem public_draft (goal : Location) (mode : Mode) : Public goal (draftPlace goal mode) :=
  ⟨mode, .inr rfl⟩

end Places

/-! ## What drafting changes -/

section Drafting

variable {directory : Path} {mode : Mode} {before after t t' : Tree} {a : Location} {number : Nat}

/-- A directory was made where there was nothing, on the way to the output directory. -/
def Made (before after : Tree) (directory : Path) (a : Location) : Prop :=
  before.OnWay directory a ∧ before.lookup a = none ∧ after.lookup a = some .directory

/-- The path of the draft leads to the location. -/
def DraftAt (directory : Path) (mode : Mode) (t : Tree) (a : Location) : Prop :=
  t.Leads (directory.child (outputName mode ++ ".tmp")) a

/-- The number is that of the file which the path of the draft leads to, or no file has it and there
is nothing yet. -/
def DraftFile (directory : Path) (mode : Mode) (t : Tree) (number : Nat) : Prop :=
  ∃ a, DraftAt directory mode t a ∧
    (t.entry a = some (.file number) ∨ t.entry a = none ∧ t.Unused number)

/-- What may have become of an entry. -/
inductive EntryChange (directory : Path) (mode : Mode) (before after : Tree) (a : Location) : Prop
  | kept (same : after.entry a = before.entry a)
  | made (h : Made before after directory a)
  | begun {number : Nat} (draft : DraftAt directory mode before a) (absent : before.entry a = none)
      (file : after.entry a = some (.file number)) (new : before.Unused number)

/-- What has changed while the draft of a document is written. -/
structure Drafting (directory : Path) (mode : Mode) (before after : Tree) : Prop where
  steady : before.Steady everywhere after
  entry : ∀ a, EntryChange directory mode before after a
  content : ∀ number, after.content number = before.content number ∨
    DraftFile directory mode before number

namespace EntryChange

theorem made_directory (h : Made before after directory a) :
    before.entry a = none ∧ after.entry a = some .directory :=
  ⟨Tree.lookup_eq_none_iff.mp h.2.1, Tree.lookup_eq_directory_iff.mp h.2.2⟩

/-- Nothing that was there has gone. -/
theorem some (h : EntryChange directory mode before after a) {entry : Entry}
    (held : before.entry a = some entry) : after.entry a = some entry := by
  cases h with
  | kept same => exact same.trans held
  | made h => cases (made_directory h).1.symm.trans held
  | begun _ absent => cases absent.symm.trans held

theorem absent (h : EntryChange directory mode before after a) (gone : after.entry a = none) :
    before.entry a = none := by
  cases held : before.entry a with
  | none => rfl
  | some entry => cases gone.symm.trans (h.some held)

/-- A file was there before, or it is a new draft. -/
theorem file (h : EntryChange directory mode before after a)
    (held : after.entry a = Option.some (.file number)) :
    before.entry a = Option.some (.file number) ∨
      DraftAt directory mode before a ∧ before.entry a = none ∧ before.Unused number := by
  cases h with
  | kept same => exact .inl (same.symm.trans held)
  | made h => cases (made_directory h).2.symm.trans held
  | begun draft absent file new =>
      cases file.symm.trans held
      exact .inr ⟨draft, absent, new⟩

theorem congr (h : EntryChange directory mode before t a) (same : t'.entry a = t.entry a) :
    EntryChange directory mode before t' a := by
  cases h with
  | kept kept => exact .kept (same.trans kept)
  | made h =>
      have directory := same.trans (made_directory h).2
      exact .made ⟨h.1, h.2.1, Tree.lookup_eq_directory_iff.mpr directory⟩
  | begun draft absent file new => exact .begun draft absent (same.trans file) new

end EntryChange

namespace Drafting

theorem refl (t : Tree) : Drafting directory mode t t :=
  ⟨.refl t, fun _ => .kept rfl, fun _ => .inl rfl⟩

theorem makeDirectory (h : Drafting directory mode before t) {q : Path}
    (anchor : q.anchor = directory.anchor) (begins : q.parts <+: directory.parts)
    (made : t.makeDirectory q = .ok t') : Drafting directory mode before t' := by
  have steady := h.steady.trans (Tree.steady_makeDirectory made)
  obtain ⟨location, located, absent, rfl⟩ := Tree.makeDirectory_eq_ok_iff.mp made
  have root : location ≠ [] := Tree.ne_nil_of_entry (t := t) (by simp [absent])
  refine ⟨steady, fun a => ?_, h.content⟩
  by_cases here : a = location
  · subst here
    have leads := h.steady.leads_iff.mp (Tree.leads_of_locateEntry located absent)
    refine .made ⟨⟨q, anchor, begins, leads⟩, ?_, ?_⟩
    · exact Tree.lookup_eq_none_iff.mpr ((h.entry a).absent absent)
    · rw [Tree.lookup_eq_directory_iff, Tree.entry_setEntry root, if_pos rfl]
  · refine (h.entry a).congr ?_
    rw [Tree.entry_setEntry root, if_neg here]

/-- The file that the draft's path leads to is the draft's file, if it is not a new one. -/
theorem draftFile (h : Drafting directory mode before t)
    (located : t.locate (directory.child (outputName mode ++ ".tmp")) = .ok a)
    (file : t.entry a = some (.file number)) : DraftFile directory mode before number := by
  have draft : DraftAt directory mode before a :=
    h.steady.leads_iff.mp (Tree.leads_of_locate located)
  rcases (h.entry a).file file with same | ⟨-, new⟩
  · exact ⟨a, draft, .inl same⟩
  · exact ⟨a, draft, .inr new⟩

theorem setContent (h : Drafting directory mode before t) {bytes : List UInt8}
    (file : DraftFile directory mode before number) :
    Drafting directory mode before (t.setContent number bytes) := by
  refine ⟨h.steady.trans (Tree.steady_setContent _ _ _), fun a => (h.entry a).congr rfl, ?_⟩
  intro other
  by_cases same : other = number
  · exact .inr (same ▸ file)
  · rw [Tree.content_setContent_ne same]
    exact h.content other

theorem openForWriting (h : Drafting directory mode before t)
    (opened : t.openForWriting (directory.child (outputName mode ++ ".tmp")) = .ok t') :
    Drafting directory mode before t' := by
  have steady := h.steady.trans (Tree.steady_openForWriting opened)
  obtain ⟨location, located, ⟨number, file, rfl⟩ | ⟨gone, rfl⟩⟩ :=
    Tree.openForWriting_eq_ok_iff.mp opened
  · exact h.setContent (h.draftFile located file)
  · have root : location ≠ [] := Tree.ne_nil_of_entry (t := t) (by simp [gone])
    have draft : DraftAt directory mode before location :=
      h.steady.leads_iff.mp (Tree.leads_of_locate located)
    have absent := (h.entry location).absent gone
    have new : before.Unused t.fresh :=
      ⟨fun b held => t.unused_fresh.entry b ((h.entry b).some held),
        h.steady.devices ▸ t.unused_fresh.device⟩
    refine ⟨steady, fun a => ?_, fun number => ?_⟩
    · by_cases here : a = location
      · subst here
        exact .begun draft absent ((Tree.entry_newFile root).trans (if_pos rfl)) new
      · refine (h.entry a).congr ?_
        rw [Tree.entry_newFile root, if_neg here]
    · by_cases same : number = t.fresh
      · exact .inr ⟨location, draft, .inr ⟨absent, same ▸ new⟩⟩
      · rw [Tree.newFile, Tree.content_setContent_ne same]
        exact h.content number

theorem writeBytes (h : Drafting directory mode before t) {bytes : List UInt8}
    (written : t.writeBytes (directory.child (outputName mode ++ ".tmp")) bytes = .ok t') :
    Drafting directory mode before t' := by
  obtain ⟨location, number, located, file, rfl⟩ := Tree.writeBytes_eq_ok_iff.mp written
  exact h.setContent (h.draftFile located file)

end Drafting

end Drafting

/-! ## One document -/

section Writing

variable {directory : Path} {mode : Mode} {text : String} {before after t : Tree} {goal : Location}

/-- The path of the draft leads to a file that holds the complete text, if it keeps anything. -/
def Drafted (directory : Path) (mode : Mode) (text : String) (t : Tree) : Prop :=
  directory.hasNull = false ∧ ∃ a number,
    t.locate (directory.child (outputName mode ++ ".tmp")) = .ok a ∧
      t.entry a = some (.file number) ∧
      (number ∉ t.devices → t.content number = Text.Utf8.encode text)

/-- The writing of a document came to its end: the complete draft was moved. -/
def Ended (directory : Path) (mode : Mode) (text : String) (before after : Tree) : Prop :=
  ∃ t, Drafting directory mode before t ∧ Drafted directory mode text t ∧
    t.replace (directory.child (outputName mode ++ ".tmp")) (directory.child (outputName mode)) =
      .ok after

theorem keeps_draft (directory : Path) (mode : Mode) (text : String) (before : Tree) :
    Action.Keeps (Drafting directory mode before) Action.anyTree (Drafted directory mode text)
      (Action.draftText directory (outputName mode) text) := by
  refine Action.keeps_draftText (fun _ => directory.hasNull = false) _
    (fun q t t' anchor begins h made => h.makeDirectory anchor begins made)
    (fun legal t t' h opened => ⟨h.openForWriting opened, (Path.hasNull_child.mp legal).1⟩)
    (fun bytes t t' h _ written => h.writeBytes written) (fun t t' h legal written => ?_)
  have steady : t.Steady everywhere t' := by
    obtain ⟨location, number, -, -, rfl⟩ := Tree.writeBytes_eq_ok_iff.mp written
    exact Tree.steady_setContent _ _ _
  obtain ⟨location, number, located, file, rfl⟩ := Tree.writeBytes_eq_ok_iff.mp written
  exact ⟨legal, location, number, Tree.locate_of_steady steady located, file,
    fun keeps => Tree.content_setContent keeps⟩

/-- **One document is written whole or not at all.** -/
theorem writeText_cases (directory : Path) (mode : Mode) (text : String) (j : Journal) :
    (∃ e j', (Action.writeText (directory.child (outputName mode)) text).run j = (.error e, j') ∧
        Drafting directory mode j.tree j'.tree ∧
        ∀ t ∈ j'.trees, t ∈ j.trees ∨ Drafting directory mode j.tree t) ∨
      ∃ j', (Action.writeText (directory.child (outputName mode)) text).run j = (.ok (), j') ∧
        Ended directory mode text j.tree j'.tree ∧
        ∀ t ∈ j'.trees, t ∈ j.trees ∨ Drafting directory mode j.tree t ∨ t = j'.tree := by
  obtain ⟨kept, passed, ends⟩ := keeps_draft directory mode text j.tree j (.refl j.tree) trivial
  rw [Action.writeText_child, Action.run_bind]
  cases h : (Action.draftText directory (outputName mode) text).run j with
  | mk r j₁ =>
      rw [h] at kept passed ends
      cases r with
      | error e => exact .inl ⟨e, j₁, rfl, kept, passed⟩
      | ok _ =>
          -- the draft is complete now, and the move is done as a whole or not at all
          have whole (fault : Fault) :
              (Edit.replace (directory.child (outputName mode ++ ".tmp"))
                (directory.child (outputName mode))).remnant fault = none := rfl
          rcases Action.run_step_whole whole j₁ with
            ⟨e, j', failed, same, trees⟩ | ⟨j', moved, applied, trees⟩
          · exact .inl ⟨e, j', failed, same ▸ kept, trees ▸ passed⟩
          · refine .inr ⟨j', moved, ⟨_, kept, ends () rfl, applied⟩, ?_⟩
            rw [trees]
            exact List.forall_mem_cons.mpr
              ⟨.inr (.inr rfl), fun t mem => (passed t mem).imp_right .inl⟩

/-- The draft is complete and can be moved: it is a file, or a link to one. -/
structure Complete (directory : Path) (goal : Location) (mode : Mode) (text : String) (t : Tree)
    (entry : Entry) (a : Location) (number : Nat) : Prop where
  reached : t.Reaches directory goal
  free : t.entry (documentPlace goal mode) ≠ some .directory
  held : t.entry (draftPlace goal mode) = some entry
  located : t.locate (directory.child (outputName mode ++ ".tmp")) = .ok a
  file : t.entry a = some (.file number)
  content : number ∉ t.devices → t.content number = Text.Utf8.encode text
  kind : entry = .file number ∧ a = draftPlace goal mode ∨ ∃ target, entry = .link target

/-- The move of a draft does nothing if the document is another name of the draft's file. -/
inductive Moved (goal : Location) (mode : Mode) (t : Tree) (entry : Entry) : Tree → Prop
  | idle (same : t.SameFile (draftPlace goal mode) (documentPlace goal mode)) :
      Moved goal mode t entry t
  | done (apart : ¬ t.SameFile (draftPlace goal mode) (documentPlace goal mode)) :
      Moved goal mode t entry
        ((t.drop (draftPlace goal mode)).setEntry (documentPlace goal mode) entry)

/-- What had been there when the writing came to its end. -/
theorem Ended.moved (h : Ended directory mode text before after) :
    directory.hasNull = false ∧ ∃ goal t entry a number, Drafting directory mode before t ∧
      Complete directory goal mode text t entry a number ∧ Moved goal mode t entry after := by
  obtain ⟨t, drafting, ⟨legal, a, number, located, file, content⟩, moved⟩ := h
  obtain ⟨source, target, entry, located', reached', held, free⟩ := Tree.replace_eq_ok moved
  obtain ⟨goal, reached, rfl⟩ := Tree.reaches_of_locateEntry (outputName_ordinary mode).2 located'
  obtain ⟨goal', again, rfl⟩ := Tree.reaches_of_locateEntry (outputName_ordinary mode).1 reached'
  obtain rfl := again.leads.unique reached.leads
  obtain ⟨goal'', leads, name⟩ := Tree.leads_child_iff.mp (Tree.leads_of_locate located)
  obtain rfl := leads.unique reached.leads
  have kind : entry = .file number ∧ a = draftPlace goal'' mode ∨
      ∃ target, entry = .link target := by
    rcases (Tree.leadsTo_name_iff (outputName_ordinary mode).2).mp name with
      ⟨-, rfl⟩ | ⟨target, link, -⟩
    · exact .inl ⟨Option.some.inj (held.symm.trans file), rfl⟩
    · exact .inr ⟨target, Option.some.inj (held.symm.trans link)⟩
  refine ⟨legal, goal'', t, entry, a, number, drafting,
    ⟨reached, free, held, located, file, content, kind⟩, ?_⟩
  rcases Tree.replace_of_located located' reached' held free with ⟨same, done⟩ | ⟨apart, done⟩
  · obtain rfl := Except.ok.inj (moved.symm.trans done)
    exact .idle same
  · obtain rfl := Except.ok.inj (moved.symm.trans done)
    exact .done apart

end Writing

/-! ## The pair -/

section Pair

variable {directory : Path} {docs : Documents} {before t : Tree}

/-- The trees that the writing of the pair passes. -/
inductive Stage (directory : Path) (docs : Documents) (before : Tree) : Tree → Prop
  | first {t : Tree} (h : Drafting directory .sync before t) : Stage directory docs before t
  | second {between t : Tree} (ended : Ended directory .sync docs.sync.text before between)
      (h : Drafting directory .async between t) : Stage directory docs before t
  | done {between t : Tree} (ended : Ended directory .sync docs.sync.text before between)
      (ended' : Ended directory .async docs.async.text between t) : Stage directory docs before t

theorem writeDocuments_eq (docs : Documents) (directory : Path) :
    writeDocuments docs directory = do
      Action.writeText (directory.child (outputName .sync)) docs.sync.text
      Action.writeText (directory.child (outputName .async)) docs.async.text
      return Mode.all.map fun mode => directory.child (outputName mode) := by
  simp [writeDocuments, Mode.all, Documents.get]

/-- The writing of the pair passes the stages, and it ends in one of three ways. -/
theorem writeDocuments_cases (docs : Documents) (directory : Path) (j : Journal) :
    (∀ t ∈ ((writeDocuments docs directory).run j).2.trees,
      t ∈ j.trees ∨ Stage directory docs j.tree t) ∧
    ((∃ e j', (Action.writeText (directory.child (outputName .sync)) docs.sync.text).run j =
          (.error e, j') ∧
        (writeDocuments docs directory).run j = (.error e, j') ∧
        Drafting directory .sync j.tree j'.tree) ∨
      (∃ e j₁ j', (Action.writeText (directory.child (outputName .sync)) docs.sync.text).run j =
          (.ok (), j₁) ∧
        (writeDocuments docs directory).run j = (.error e, j') ∧
        Ended directory .sync docs.sync.text j.tree j₁.tree ∧
        Drafting directory .async j₁.tree j'.tree) ∨
      ∃ (j₁ j' : Journal), (writeDocuments docs directory).run j =
          (.ok (Mode.all.map fun mode => directory.child (outputName mode)), j') ∧
        Ended directory .sync docs.sync.text j.tree j₁.tree ∧
        Ended directory .async docs.async.text j₁.tree j'.tree) := by
  rw [writeDocuments_eq]
  simp only [Action.run_bind]
  rcases writeText_cases directory .sync docs.sync.text j with
    ⟨e, j₁, failed, drafting, passed⟩ | ⟨j₁, wrote, first, passed⟩
  · rw [failed]
    exact ⟨fun t mem => (passed t mem).imp_right .first, .inl ⟨e, j₁, rfl, rfl, drafting⟩⟩
  · rw [wrote]
    dsimp only
    have early (t : Tree) (mem : t ∈ j₁.trees) :
        t ∈ j.trees ∨ Stage directory docs j.tree t := by
      rcases passed t mem with old | drafting | rfl
      · exact .inl old
      · exact .inr (.first drafting)
      · exact .inr (.second first (.refl _))
    rcases writeText_cases directory .async docs.async.text j₁ with
      ⟨e, j', failed, drafting, passed'⟩ | ⟨j', wrote', second, passed'⟩
    · rw [failed]
      exact ⟨fun t mem => (passed' t mem).elim (early t) fun h => .inr (.second first h),
        .inr (.inl ⟨e, j₁, j', rfl, rfl, first, drafting⟩)⟩
    · rw [wrote']
      refine ⟨fun t mem => ?_, .inr (.inr ⟨j₁, j', rfl, first, second⟩)⟩
      rcases passed' t mem with old | drafting | rfl
      · exact early t old
      · exact .inr (.second first drafting)
      · exact .inr (.done first second)

end Pair

end HostGlue.Cli

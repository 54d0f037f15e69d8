import HostGlue.Proofs.Cli.Drafting
import Mathlib.Data.List.Basic

/-!
# Two documents, one after the other

Writing one document is all or nothing: up to the move of its draft nothing changes but the draft,
apart from directories that are made on the way. Writing the pair is not: where the second document
fails, the first one is already in its place. `pair_written` says exactly what is there then, and
`pair_torn` has runs that come to it.

All this needs the drafts to be `Apart`. The first draft becomes the first document, link or not, so
it must not lead over a place that is still to be written, and the second one must not lead to its
file. Neither may lead to a device, which keeps nothing. Nor must the path run through a link that a
document replaces. What the documents held before matters only where the writing fails: then it must
not be seen in a draft, and this is what `Shielded` adds.
-/

namespace HostGlue.Cli

open Files Interface

/-! ## What drafting leaves alone -/

section Writing

variable {directory : Path} {mode other : Mode} {docs : Documents} {text : String}
  {before between after t : Tree} {goal a : Location} {number : Nat}

/-- The location is as it was, or a directory was made there on the way. -/
def Spared (directory : Path) (before after : Tree) (a : Location) : Prop :=
  after.lookup a = before.lookup a ∨ Made before after directory a

/-- What is no name of the draft's file is spared. -/
theorem EntryChange.spared (h : EntryChange directory mode before after a)
    (content : ∀ number, after.content number = before.content number ∨
      DraftFile directory mode before number)
    (other : ∀ s, DraftAt directory mode before s → ¬ before.SameFile s a) :
    Spared directory before after a := by
  cases h with
  | kept same =>
      refine .inl ?_
      rw [Tree.lookup, Tree.lookup, same]
      cases held : before.entry a with
      | none => rfl
      | some entry =>
          cases entry with
          | directory => rfl
          | link target => rfl
          | file number =>
              rw [Option.map_some, Option.map_some, Tree.item, Tree.item]
              rcases content number with same | ⟨s, draft, file | ⟨-, new⟩⟩
              · rw [same]
              · exact absurd (.inr ⟨number, file, held⟩) (other s draft)
              · exact absurd held (new.entry a)
  | made h => exact .inr h
  | begun draft => exact absurd (.inl rfl) (other a draft)

/-- Where the directory is there no directory is made. -/
theorem Spared.lookup_eq (h : Spared directory before after a)
    (reached : before.Reaches directory goal) : after.lookup a = before.lookup a := by
  rcases h with same | ⟨way, absent, -⟩
  · exact same
  · rw [Tree.lookup_eq_none_iff, reached.passed way] at absent
    cases absent

theorem Spared.of_lookup_eq (h : Spared directory before t a)
    (same : after.lookup a = t.lookup a) : Spared directory before after a := by
  rw [Spared, Made, same]
  exact h

theorem Drafting.spared (h : Drafting directory mode before t)
    (other : ∀ s, DraftAt directory mode before s → ¬ before.SameFile s a) :
    Spared directory before t a :=
  (h.entry a).spared h.content other

/-! ## Names that are apart -/

/-- The location is not the document's and not the draft's. -/
def Aside (goal : Location) (mode : Mode) (a : Location) : Prop :=
  a ≠ documentPlace goal mode ∧ a ≠ draftPlace goal mode

theorem aside_of_not_public (h : ¬ Public goal a) : Aside goal mode a :=
  ⟨fun here => h ⟨mode, .inl here⟩, fun here => h ⟨mode, .inr here⟩⟩

theorem aside_other (ne : other ≠ mode) :
    Aside goal mode (documentPlace goal other) ∧ Aside goal mode (draftPlace goal other) :=
  ⟨⟨fun here => ne (documentPlace_inj here), documentPlace_ne_draftPlace _ _ _⟩,
    (documentPlace_ne_draftPlace _ _ _).symm, fun here => ne (draftPlace_inj here)⟩

/-- The path leads to the directory without a link at one of the four places, a draft that is a link
leads over none of them, and what the draft leads to is no device. -/
structure Clear (t : Tree) (directory : Path) (goal : Location) (mode : Mode) : Prop where
  way : t.LeadsTo (fun a => ¬ Public goal a) (t.start directory) directory.parts goal
  through : ∀ a, t.Beyond goal (outputName mode ++ ".tmp") a → ¬ Public goal a
  keeps : ∀ a number, t.LeadsTo everywhere goal [outputName mode ++ ".tmp"] a →
    t.entry a = some (.file number) → number ∉ t.devices

/-- The ways are clear, and the drafts do not lead to one file. -/
structure Apart (t : Tree) (directory : Path) (goal : Location) : Prop where
  clear : ∀ mode, Clear t directory goal mode
  different : ∀ a b, t.LeadsTo everywhere goal [outputName .sync ++ ".tmp"] a →
    t.LeadsTo everywhere goal [outputName .async ++ ".tmp"] b → ¬ t.SameFile a b

theorem Clear.eq_goal (h : Clear t directory goal mode) {goal' : Location}
    (leads : t.Leads directory goal') : goal' = goal :=
  leads.unique h.way

theorem Clear.leads (h : Clear t directory goal mode) : t.Leads directory goal :=
  h.way.mono fun _ _ => trivial

theorem Apart.eq_goal (h : Apart t directory goal) {goal' : Location}
    (leads : t.Leads directory goal') : goal' = goal :=
  (h.clear .sync).eq_goal leads

theorem Clear.draftAt_iff (h : Clear t directory goal mode) :
    DraftAt directory other t a ↔ t.LeadsTo everywhere goal [outputName other ++ ".tmp"] a := by
  constructor
  · intro draft
    obtain ⟨goal', leads, name⟩ := Tree.leads_child_iff.mp draft
    obtain rfl := h.eq_goal leads
    exact name
  · exact fun name => Tree.leads_child_iff.mpr ⟨goal, h.leads, name⟩

/-- The draft's file keeps what is written. -/
theorem Clear.draftFile_keeps (h : Clear t directory goal mode)
    (file : DraftFile directory mode t number) : number ∉ t.devices := by
  obtain ⟨a, draft, old | ⟨-, new⟩⟩ := file
  · exact h.keeps a number (h.draftAt_iff.mp draft) old
  · exact new.device

theorem eq_of_absent (absent : t.entry (draftPlace goal mode) = none)
    (leads : t.LeadsTo everywhere goal [outputName mode ++ ".tmp"] a) :
    a = draftPlace goal mode := by
  rcases (Tree.leadsTo_name_iff (outputName_ordinary mode).2).mp leads with
    ⟨-, place⟩ | ⟨target, link, -⟩
  · exact place
  · cases absent.symm.trans link

/-- Where drafts are absent they are apart. -/
theorem apart_of_absent
    (way : t.LeadsTo (fun a => ¬ Public goal a) (t.start directory) directory.parts goal)
    (absent : ∀ mode, t.entry (draftPlace goal mode) = none) : Apart t directory goal where
  clear mode := by
    refine ⟨way, fun a ⟨target, link, _⟩ => ?_, fun a number leads file => ?_⟩
    · cases (absent mode).symm.trans link
    · obtain rfl := eq_of_absent (absent mode) leads
      cases (absent mode).symm.trans file
  different a b first second same := by
    obtain rfl := eq_of_absent (absent .sync) first
    obtain rfl := eq_of_absent (absent .async) second
    rcases same with same | ⟨number, file, -⟩
    · cases draftPlace_inj same
    · cases (absent .sync).symm.trans file

theorem not_public_above (goal : Location) : ¬ Public goal goal ∧ ¬ Public goal [] := by
  constructor
  · rintro ⟨mode, here | here⟩ <;> simp [documentPlace, draftPlace] at here
  · rintro ⟨mode, here | here⟩ <;> simp [documentPlace, draftPlace] at here

/-- The draft leads to itself or to none of the four places. -/
theorem Clear.draft_place (h : Clear t directory goal mode)
    (leads : t.LeadsTo everywhere goal [outputName mode ++ ".tmp"] a) :
    a = draftPlace goal mode ∨ ¬ Public goal a := by
  rcases leads.last (outputName_ordinary mode).2 with rfl | rfl | place | beyond
  · exact .inr (not_public_above a).1
  · exact .inr (not_public_above goal).2
  · exact .inl place
  · exact .inr (h.through a beyond)

/-! ## One document -/

/-- A document was written: its path leads to a file with the text, which the draft led to before.
-/
structure Written (directory : Path) (goal : Location) (mode : Mode) (text : String)
    (before after : Tree) : Prop where
  steady : before.Steady (Aside goal mode) after
  reached : after.Reaches directory goal
  way : after.LeadsTo (fun a => ¬ Public goal a) (after.start directory) directory.parts goal
  entry : ∀ a, Aside goal mode a → EntryChange directory mode before after a
  content : ∀ number, after.content number = before.content number ∨
    DraftFile directory mode before number
  document : ∃ a number, after.locate (directory.child (outputName mode)) = .ok a ∧
    (a = documentPlace goal mode ∨ ¬ Public goal a) ∧ after.entry a = some (.file number) ∧
    after.content number = Text.Utf8.encode text ∧ DraftFile directory mode before number
  beyond : ∀ a, after.Beyond goal (outputName mode) a → ¬ Public goal a
  draft : after.entry (draftPlace goal mode) = none ∨
    before.SameFile (draftPlace goal mode) (documentPlace goal mode)

/-- The draft's file is no device, so it holds the text. -/
theorem Complete.whole {entry : Entry} (clear : Clear before directory goal mode)
    (drafting : Drafting directory mode before t)
    (complete : Complete directory goal mode text t entry a number) :
    t.content number = Text.Utf8.encode text ∧ DraftFile directory mode before number := by
  have file := drafting.draftFile complete.located complete.file
  refine ⟨complete.content ?_, file⟩
  rw [drafting.steady.devices]
  exact clear.draftFile_keeps file

/-- The document was another name of the draft's file, so the draft is still there. -/
theorem Complete.written_idle {entry : Entry} (clear : Clear before directory goal mode)
    (drafting : Drafting directory mode before t)
    (complete : Complete directory goal mode text t entry a number)
    (same : t.SameFile (draftPlace goal mode) (documentPlace goal mode)) :
    Written directory goal mode text before t := by
  obtain ⟨number', draft, document⟩ :=
    same.resolve_left (documentPlace_ne_draftPlace goal mode mode).symm
  obtain rfl := Option.some.inj (complete.held.symm.trans draft)
  obtain ⟨⟨⟩, rfl⟩ : Entry.file number' = .file number ∧ a = draftPlace goal mode := by
    rcases complete.kind with here | ⟨target, link⟩
    · exact here
    · cases link
  have plain (target : Path) : t.entry (goal ++ [outputName mode]) ≠ some (.link target) := by
    intro link
    cases document.symm.trans link
  have way : t.LeadsTo (fun a => ¬ Public goal a) (t.start directory) directory.parts goal := by
    rw [drafting.steady.start]
    exact (drafting.steady.leadsTo_iff fun _ _ => trivial).mpr clear.way
  refine ⟨drafting.steady.mono fun _ _ => trivial, complete.reached, way,
    fun a _ => drafting.entry a, drafting.content,
    ⟨documentPlace goal mode, number, ?_, .inl rfl, document, complete.whole clear drafting⟩,
    fun a ⟨target, link, _⟩ => absurd link (plain target), .inr ?_⟩
  · exact complete.reached.locate_child (outputName_ordinary mode).1 plain
  · -- the document was no new draft, for the draft is at another place
    rcases (drafting.entry _).file document with old | ⟨there, -⟩
    · rcases (drafting.entry _).file draft with old' | ⟨-, -, new⟩
      · exact .inr ⟨number, old', old⟩
      · exact absurd old (new.entry _)
    · have here := drafting.steady.leads_iff.mp (Tree.leads_of_locate complete.located)
      exact absurd (there.unique here) (documentPlace_ne_draftPlace _ _ _)

/-- The draft was moved. -/
theorem Complete.written_done {entry : Entry} (clear : Clear before directory goal mode)
    (drafting : Drafting directory mode before t)
    (complete : Complete directory goal mode text t entry a number)
    (apart : ¬ t.SameFile (draftPlace goal mode) (documentPlace goal mode)) :
    Written directory goal mode text before
      ((t.drop (draftPlace goal mode)).setEntry (documentPlace goal mode) entry) := by
  have draftRoot : draftPlace goal mode ≠ [] := by simp [draftPlace]
  have documentRoot : documentPlace goal mode ≠ [] := by simp [documentPlace]
  have noDirectory : entry ≠ .directory := by
    rcases complete.kind with ⟨rfl, -⟩ | ⟨target, rfl⟩ <;> nofun
  have way : t.LeadsTo (fun a => ¬ Public goal a) (t.start directory) directory.parts goal := by
    rw [drafting.steady.start]
    exact (drafting.steady.leadsTo_iff fun _ _ => trivial).mpr clear.way
  have through (b : Location) (beyond : t.Beyond goal (outputName mode ++ ".tmp") b) :
      ¬ Public goal b :=
    clear.through b (drafting.steady.beyond trivial (fun _ _ => trivial) beyond)
  have steady : t.Steady (Aside goal mode)
      ((t.drop (draftPlace goal mode)).setEntry (documentPlace goal mode) entry) :=
    Tree.steady_move complete.held noDirectory complete.free fun _ aside => aside
  have kept (b : Location) (aside : Aside goal mode b) :
      ((t.drop (draftPlace goal mode)).setEntry (documentPlace goal mode) entry).entry b =
        t.entry b := by
    rw [Tree.entry_move draftRoot documentRoot, if_neg aside.1, if_neg aside.2]
  have there : ((t.drop (draftPlace goal mode)).setEntry (documentPlace goal mode) entry).entry
      (documentPlace goal mode) = some entry := by
    rw [Tree.entry_move draftRoot documentRoot, if_pos rfl]
  obtain ⟨reached, leads⟩ := complete.reached.of_steady way
    (steady.mono fun _ => aside_of_not_public)
  refine ⟨(drafting.steady.mono fun _ _ => trivial).trans steady, reached, leads,
    fun b aside => (drafting.entry b).congr (kept b aside), drafting.content, ?_, ?_, .inl ?_⟩
  · have whole := complete.whole clear drafting
    rcases complete.kind with ⟨rfl, rfl⟩ | ⟨target, rfl⟩
    · refine ⟨documentPlace goal mode, number, ?_, .inl rfl, there, whole⟩
      refine reached.locate_child (outputName_ordinary mode).1 fun target link => ?_
      cases there.symm.trans link
    · -- the link leads from its new place to where it led
      have located := Tree.locate_of_moved (outputName_ordinary mode).2 (outputName_ordinary mode).1
        complete.located way (steady.mono fun _ => aside_of_not_public) complete.held there through
      obtain ⟨goal', leads', name⟩ :=
        Tree.leads_child_iff.mp (Tree.leads_of_locate complete.located)
      obtain rfl := leads'.unique way
      have away : ¬ Public goal' a := by
        have led := (drafting.steady.leadsTo_iff fun _ _ => trivial).mp name
        refine (clear.draft_place led).resolve_left ?_
        rintro rfl
        cases complete.held.symm.trans complete.file
      exact ⟨a, number, located, .inr away,
        (kept a (aside_of_not_public away)).trans complete.file, whole⟩
  · rintro b ⟨target, link, passes⟩
    obtain rfl := Option.some.inj (there.symm.trans link)
    have beyond (c : Location)
        (passes : t.Passes (if target.anchor = .relative then goal else []) target.parts c) :
        ¬ Public goal c := through c ⟨target, complete.held, passes⟩
    exact beyond b (steady.passes (fun c passes => aside_of_not_public (beyond c passes)) passes)
  · rw [Tree.entry_move draftRoot documentRoot,
      if_neg (documentPlace_ne_draftPlace goal mode mode).symm, if_pos rfl]

/-- What came to its end has written the document if the ways are clear. -/
theorem Ended.written (h : Ended directory mode text before after) :
    directory.hasNull = false ∧ ∃ goal, before.Leads directory goal ∧
      (Clear before directory goal mode → Written directory goal mode text before after) := by
  obtain ⟨legal, goal, t, entry, a, number, drafting, complete, moved⟩ := h.moved
  refine ⟨legal, goal, drafting.steady.leads_iff.mp complete.reached.leads, fun clear => ?_⟩
  cases moved with
  | idle same => exact complete.written_idle clear drafting same
  | done apart => exact complete.written_done clear drafting apart

namespace Written

theorem find?_document (h : Written directory goal mode text before after) :
    after.find? (directory.child (outputName mode)) = some (.file (Text.Utf8.encode text)) := by
  obtain ⟨a, number, located, -, file, content, -⟩ := h.document
  rw [Tree.find?, located]
  exact Tree.lookup_eq_file_iff.mpr ⟨number, file, content⟩

theorem spared (h : Written directory goal mode text before after) (aside : Aside goal mode a)
    (other : ∀ s, DraftAt directory mode before s → ¬ before.SameFile s a) :
    Spared directory before after a :=
  (h.entry a aside).spared h.content other

/-- Another draft leads where it led. -/
theorem leadsTo_draft_iff (h : Written directory goal mode text before after)
    (clear : Clear before directory goal other) (ne : other ≠ mode) :
    after.LeadsTo everywhere goal [outputName other ++ ".tmp"] a ↔
      before.LeadsTo everywhere goal [outputName other ++ ".tmp"] a :=
  h.steady.leadsTo_name_iff (outputName_ordinary other).2 (aside_other ne).2
    fun a beyond => aside_of_not_public (clear.through a beyond)

/-- The way of another draft is still clear. -/
theorem clear_other (h : Written directory goal mode text before after)
    (clear : Clear before directory goal other) (ne : other ≠ mode) :
    Clear after directory goal other where
  way := h.way
  through a beyond := clear.through a (h.steady.beyond (aside_other ne).2
    (fun a beyond => aside_of_not_public (clear.through a beyond)) beyond)
  keeps a number leads file := by
    have before_leads := (h.leadsTo_draft_iff clear ne).mp leads
    have aside : Aside goal mode a := by
      rcases clear.draft_place before_leads with rfl | away
      · exact (aside_other ne).2
      · exact aside_of_not_public away
    rw [h.steady.devices]
    rcases (h.entry a aside).file file with old | ⟨-, -, new⟩
    · exact clear.keeps a number before_leads old
    · exact new.device

/-- A file under the document's own name is the one that the draft led to. -/
theorem draftFile (h : Written directory goal mode text before after)
    (file : after.entry (documentPlace goal mode) = some (.file number)) :
    DraftFile directory mode before number := by
  obtain ⟨a, number', located, -, file', -, draft⟩ := h.document
  have here := h.reached.locate_child (outputName_ordinary mode).1 (fun target link => by
    cases file.symm.trans link)
  obtain rfl := Except.ok.inj (located.symm.trans here)
  cases file.symm.trans file'
  exact draft

end Written

/-! ## The first document while the second one is written -/

/-- A file that the second draft leads to was there before, and it is not the first draft's. -/
theorem Apart.file_behind (apart : Apart before directory goal)
    (first : Written directory goal .sync text before between)
    (leads : between.LeadsTo everywhere goal [outputName .async ++ ".tmp"] a)
    (file : between.entry a = some (.file number)) :
    before.entry a = some (.file number) ∧ ¬ DraftFile directory .sync before number := by
  have ne : Mode.async ≠ .sync := nofun
  have clear := apart.clear .async
  have before_leads := (first.leadsTo_draft_iff clear ne).mp leads
  have aside : Aside goal .sync a := by
    rcases (first.clear_other clear ne).draft_place leads with rfl | away
    · exact (aside_other ne).2
    · exact aside_of_not_public away
  have different (s : Location) (draft : DraftAt directory .sync before s) :
      ¬ before.SameFile s a :=
    apart.different s a (clear.draftAt_iff.mp draft) before_leads
  rcases (first.entry a aside).file file with old | ⟨draft, -⟩
  · refine ⟨old, ?_⟩
    rintro ⟨s, draft, same | ⟨-, new⟩⟩
    · exact different s draft (.inr ⟨number, same, old⟩)
    · exact new.entry a old
  · exact absurd (.inl rfl) (different a draft)

/-- What was no name of the second draft's file has not become one. -/
theorem Apart.sameFile_behind (apart : Apart before directory goal)
    (first : Written directory goal .sync text before between) {s : Location}
    (leads : between.LeadsTo everywhere goal [outputName .async ++ ".tmp"] s)
    (aside : Aside goal .sync a) (same : between.SameFile s a) : before.SameFile s a := by
  rcases same with same | ⟨number, file, file'⟩
  · exact .inl same
  · obtain ⟨old, other⟩ := apart.file_behind first leads file
    rcases (first.entry a aside).file file' with old' | begun
    · exact .inr ⟨number, old, old'⟩
    · exact absurd ⟨a, begun.1, .inr begun.2⟩ other

/-- While the second document is written the first one stays. -/
theorem Apart.first_stays (apart : Apart before directory goal)
    (first : Written directory goal .sync text before between)
    (steady : between.Steady (Aside goal .async) t)
    (entry : ∀ a, Aside goal .async a → EntryChange directory .async between t a)
    (content : ∀ number, t.content number = between.content number ∨
      DraftFile directory .async between number) :
    t.find? (directory.child (outputName .sync)) = some (.file (Text.Utf8.encode text)) := by
  have ne : Mode.sync ≠ .async := nofun
  obtain ⟨a, number, located, place, file, whole, draft⟩ := first.document
  have located' := Tree.locate_of_way (outputName_ordinary .sync).1 located
    (first.way.mono fun _ => aside_of_not_public) steady (aside_other ne).1
    fun a beyond => aside_of_not_public (first.beyond a beyond)
  have aside : Aside goal .async a := by
    rcases place with rfl | away
    · exact (aside_other ne).1
    · exact aside_of_not_public away
  rw [Tree.find?, located']
  refine Tree.lookup_eq_file_iff.mpr ⟨number, (entry a aside).some file, ?_⟩
  rcases content number with same | ⟨s, draft', file' | ⟨-, new⟩⟩
  · exact same.trans whole
  · -- the second draft does not lead to the file of the first
    have leads := (first.clear_other (apart.clear .async) ne.symm).draftAt_iff.mp draft'
    exact absurd draft (apart.file_behind first leads file').2
  · exact absurd file (new.entry a)

/-! ## What the documents held before -/

/-- The draft of the one mode is nothing that the document of the other one leads to. -/
def Hidden (t : Tree) (goal : Location) (mode other : Mode) : Prop :=
  ∀ a b, t.LeadsTo everywhere goal [outputName mode ++ ".tmp"] a →
    t.LeadsTo everywhere goal [outputName other] b → ¬ t.SameFile a b

/-- No document leads to a draft that is written while it is still there, and the second one leads
over none of the four places. -/
structure Shielded (t : Tree) (goal : Location) : Prop where
  own : ∀ mode, Hidden t goal mode mode
  second : Hidden t goal .sync .async
  beyond : ∀ a, t.Beyond goal (outputName .async) a → ¬ Public goal a

/-- The document is as it was, where it stands and where its path leads. -/
structure AsBefore (directory : Path) (goal : Location) (mode : Mode) (before after : Tree) :
    Prop where
  place : Spared directory before after (documentPlace goal mode)
  found : ∀ item, before.find? (directory.child (outputName mode)) = some item →
    after.find? (directory.child (outputName mode)) = some item

theorem Hidden.place (h : Hidden t goal mode other) (clear : Clear t directory goal mode)
    (draft : DraftAt directory mode t a) : ¬ t.SameFile a (documentPlace goal other) := by
  have leads := clear.draftAt_iff.mp draft
  intro same
  by_cases link : ∃ target, t.entry (documentPlace goal other) = some (.link target)
  · obtain ⟨target, link⟩ := link
    rcases same with rfl | ⟨number, -, file⟩
    · rcases clear.draft_place leads with place | away
      · exact documentPlace_ne_draftPlace _ _ _ place
      · exact away (public_document goal other)
    · cases link.symm.trans file
  · refine h a _ leads ?_ same
    exact (Tree.leadsTo_name_iff (outputName_ordinary other).1).mpr
      (.inl ⟨fun target held => link ⟨target, held⟩, rfl⟩)

/-- What a document leads to is spared if it is hidden. -/
theorem Hidden.found (h : Hidden before goal mode other) (clear : Clear before directory goal mode)
    {item : Item} (found : before.find? (directory.child (outputName other)) = some item)
    (follows : ∀ a, before.locate (directory.child (outputName other)) = .ok a →
      before.LeadsTo everywhere goal [outputName other] a →
      after.locate (directory.child (outputName other)) = .ok a ∧
        ((∀ s, DraftAt directory mode before s → ¬ before.SameFile s a) →
          Spared directory before after a)) :
    after.find? (directory.child (outputName other)) = some item := by
  rw [Tree.find?] at found
  split at found
  · next a located =>
      obtain ⟨goal', leads, name⟩ := Tree.leads_child_iff.mp (Tree.leads_of_locate located)
      obtain rfl := clear.eq_goal leads
      obtain ⟨located', spared⟩ := follows a located name
      rw [Tree.find?, located']
      rcases spared fun s draft => h s a (clear.draftAt_iff.mp draft) name with same | ⟨-, none, -⟩
      · exact same.trans found
      · cases none.symm.trans found
  · cases found

theorem Drafting.asBefore (h : Drafting directory mode before t)
    (clear : Clear before directory goal mode) (hidden : Hidden before goal mode other) :
    AsBefore directory goal other before t where
  place := h.spared fun _ draft => hidden.place clear draft
  found _ found := hidden.found clear found fun _ located _ =>
    ⟨Tree.locate_of_steady h.steady located, h.spared⟩

/-- What the second document leads to is neither the first document nor its draft. -/
theorem Shielded.aside (h : Shielded t goal)
    (leads : t.LeadsTo everywhere goal [outputName .async] a) : Aside goal .sync a := by
  have ne : Mode.async ≠ .sync := nofun
  rcases leads.last (outputName_ordinary .async).1 with rfl | rfl | rfl | beyond
  · exact aside_of_not_public (not_public_above a).1
  · exact aside_of_not_public (not_public_above goal).2
  · exact (aside_other ne).1
  · exact aside_of_not_public (h.beyond a beyond)

/-- The first document was written without a change to the second. -/
theorem Written.asBefore (first : Written directory goal .sync text before after)
    (clear : Clear before directory goal .sync) (shielded : Shielded before goal) :
    AsBefore directory goal .async before after := by
  have ne : Mode.async ≠ .sync := nofun
  refine ⟨first.spared (aside_other ne).1 fun _ => shielded.second.place clear,
    fun item found => ?_⟩
  refine shielded.second.found clear found fun a located leads =>
    ⟨?_, first.spared (shielded.aside leads)⟩
  exact Tree.locate_of_way (outputName_ordinary .async).1 located
    (clear.way.mono fun _ => aside_of_not_public) first.steady (aside_other ne).1
    fun b beyond => aside_of_not_public (shielded.beyond b beyond)

/-- While the second draft is written the second document is as it was before the first. -/
theorem Apart.asBefore_behind (apart : Apart before directory goal)
    (shielded : Shielded before goal)
    (first : Written directory goal .sync text before between)
    (second : Drafting directory .async between t) : AsBefore directory goal .async before t := by
  have ne : Mode.async ≠ .sync := nofun
  have clear := first.clear_other (apart.clear .async) ne
  have kept := first.asBefore (apart.clear .sync) shielded
  have hidden : Hidden between goal .async .async := by
    intro a b draft document same
    have draft' := (first.leadsTo_draft_iff (apart.clear .async) ne).mp draft
    have document' := (first.steady.leadsTo_name_iff (outputName_ordinary .async).1
      (aside_other ne).1 fun b beyond => aside_of_not_public (shielded.beyond b beyond)).mp document
    exact shielded.own .async a b draft' document'
      (apart.sameFile_behind first draft (shielded.aside document') same)
  have still := second.asBefore clear hidden
  exact ⟨kept.place.of_lookup_eq (still.place.lookup_eq first.reached),
    fun item found => still.found item (kept.found item found)⟩

/-! ## The pair -/

/-- The paths of the documents lead to files with their texts. -/
def Held (t : Tree) (directory : Path) (docs : Documents) : Prop :=
  ∀ mode, t.find? (directory.child (outputName mode)) =
    some (.file (Text.Utf8.encode (docs.get mode).text))

/-- Both documents were written. -/
structure PairWritten (directory : Path) (goal : Location) (docs : Documents)
    (before after : Tree) : Prop where
  steady : before.Steady (fun a => ¬ Public goal a) after
  reached : after.Reaches directory goal
  held : Held after directory docs
  draft : ∀ mode, ¬ before.SameFile (draftPlace goal mode) (documentPlace goal mode) →
    after.lookup (draftPlace goal mode) = none
  elsewhere : ∀ a, ¬ Public goal a →
    (∀ mode s, DraftAt directory mode before s → ¬ before.SameFile s a) →
      Spared directory before after a

/-- What was no name of the second draft's file is spared by its writing. -/
theorem Apart.spared_behind (apart : Apart before directory goal)
    (first : Written directory goal .sync text before between)
    (other : ∀ s, DraftAt directory .async before s → ¬ before.SameFile s a)
    (aside : Aside goal .sync a) {s : Location} (draft : DraftAt directory .async between s) :
    ¬ between.SameFile s a := by
  have ne : Mode.async ≠ .sync := nofun
  have clear := apart.clear .async
  have leads := (first.clear_other clear ne).draftAt_iff.mp draft
  intro same
  have before_leads := clear.draftAt_iff.mpr ((first.leadsTo_draft_iff clear ne).mp leads)
  exact other s before_leads (apart.sameFile_behind first leads aside same)

/-- The second document is written without a change to the first. -/
theorem Apart.pair (apart : Apart before directory goal)
    (first : Written directory goal .sync docs.sync.text before between)
    (second : Written directory goal .async docs.async.text between after) :
    PairWritten directory goal docs before after := by
  have ne : Mode.async ≠ .sync := nofun
  have clear := first.clear_other (apart.clear .async) ne
  refine ⟨(first.steady.mono fun _ => aside_of_not_public).trans
    (second.steady.mono fun _ => aside_of_not_public), second.reached, fun mode => ?_,
    fun mode single => ?_, fun a away other => ?_⟩
  · cases mode with
    | sync => exact apart.first_stays first second.steady second.entry second.content
    | async => exact second.find?_document
  · cases mode with
    | sync =>
        have gone := first.draft.resolve_right single
        refine ((second.spared (aside_other ne.symm).2 fun s draft same => ?_).lookup_eq
          first.reached).trans (Tree.lookup_eq_none_iff.mpr gone)
        rcases same with rfl | ⟨number, -, file⟩
        · rcases clear.draft_place (clear.draftAt_iff.mp draft) with place | away
          · exact ne (draftPlace_inj place).symm
          · exact away (public_draft goal .sync)
        · cases gone.symm.trans file
    | async =>
        refine Tree.lookup_eq_none_iff.mpr (second.draft.resolve_right fun same => single ?_)
        obtain ⟨number, file, -⟩ := same.resolve_left (documentPlace_ne_draftPlace _ _ _).symm
        have here := (Tree.leadsTo_name_iff (outputName_ordinary .async).2).mpr
          (.inl ⟨fun target link => (by cases file.symm.trans link), rfl⟩)
        exact apart.sameFile_behind first here (aside_other ne).1 same
  · have still := second.spared (aside_of_not_public away) fun s =>
      apart.spared_behind first (other .async) (aside_of_not_public away)
    exact (first.spared (aside_of_not_public away) (other .sync)).of_lookup_eq
      (still.lookup_eq first.reached)

/-- A pair was written where the path leads, if the writing came to its end. -/
theorem pairWritten_of_run {j after : Journal} {paths : List Path}
    (ended : (writeDocuments docs directory).run j = (.ok paths, after)) :
    directory.hasNull = false ∧ ∃ goal, j.tree.Leads directory goal ∧
      (Apart j.tree directory goal → PairWritten directory goal docs j.tree after.tree) := by
  obtain ⟨-, ⟨e, j', -, failed, -⟩ | ⟨e, j₁, j', -, failed, -⟩ | ⟨j₁, j', ended', first, second⟩⟩ :=
    writeDocuments_cases docs directory j
  · cases ended.symm.trans failed
  · cases ended.symm.trans failed
  · cases ended.symm.trans ended'
    obtain ⟨legal, goal, leads, first⟩ := first.written
    obtain ⟨-, goal', leads', second⟩ := second.written
    refine ⟨legal, goal, leads, fun apart => ?_⟩
    have first := first (apart.clear .sync)
    obtain rfl := leads'.unique first.reached.leads
    exact apart.pair first (second (first.clear_other (apart.clear .async) nofun))

/-- **The pair on disk.** Let the drafts be apart and the documents shielded wherever the path
leads. If the pair was written, both documents hold their texts and no draft of theirs is left. If
it was not, the asynchronous document is as it was; the synchronous one is as it was if it could not
be written itself, and holds its new text if it could. Where the path runs through the place of a
document and nothing is there, a directory may be made at that place. -/
theorem pair_written {j after : Journal} {r : Except FileError (List Path)}
    (apart : ∀ goal, j.tree.Leads directory goal →
      Apart j.tree directory goal ∧ Shielded j.tree goal)
    (run : (writeDocuments docs directory).run j = (r, after)) :
    (∀ paths, r = .ok paths → ∃ goal, j.tree.Leads directory goal ∧ ∀ mode,
      after.tree.find? (directory.child (outputName mode)) =
          some (.file (Text.Utf8.encode (docs.get mode).text)) ∧
        after.tree.lookup (draftPlace goal mode) = none) ∧
    ∀ e, r = .error e → ∀ goal, j.tree.Leads directory goal →
      AsBefore directory goal .async j.tree after.tree ∧
        (((Action.writeText (directory.child (outputName .sync)) docs.sync.text).run j).1 = .ok () →
          after.tree.find? (directory.child (outputName .sync)) =
            some (.file (Text.Utf8.encode docs.sync.text))) ∧
        ∀ e', ((Action.writeText (directory.child (outputName .sync)) docs.sync.text).run j).1 =
            .error e' →
          AsBefore directory goal .sync j.tree after.tree := by
  constructor
  · rintro paths rfl
    obtain ⟨-, goal, leads, pair⟩ := pairWritten_of_run run
    obtain ⟨apart, shielded⟩ := apart goal leads
    have pair := pair apart
    refine ⟨goal, leads, fun mode => ⟨pair.held mode, pair.draft mode fun same => ?_⟩⟩
    -- the two are files, since the places are two, so the draft leads to itself
    obtain ⟨number, file, -⟩ := same.resolve_left (documentPlace_ne_draftPlace _ _ _).symm
    have here := (Tree.leadsTo_name_iff (outputName_ordinary mode).2).mpr
      (.inl ⟨fun target link => (by cases file.symm.trans link), rfl⟩)
    exact (shielded.own mode).place (apart.clear mode)
      ((apart.clear mode).draftAt_iff.mpr here) same
  · rintro e rfl goal leads
    obtain ⟨apart, shielded⟩ := apart goal leads
    obtain ⟨-, ⟨e, j', failed, ended, drafting⟩ | ⟨e, j₁, j', wrote, ended, first, drafting⟩ |
      ⟨j₁, j', ended, -⟩⟩ := writeDocuments_cases docs directory j
    · cases run.symm.trans ended
      refine ⟨drafting.asBefore (apart.clear .sync) shielded.second, fun wrote => ?_,
        fun _ _ => drafting.asBefore (apart.clear .sync) (shielded.own .sync)⟩
      rw [failed] at wrote
      cases wrote
    · cases run.symm.trans ended
      obtain ⟨-, goal', leads', first⟩ := first.written
      obtain rfl := leads.unique leads'
      have first := first (apart.clear .sync)
      refine ⟨apart.asBefore_behind shielded first drafting,
        fun _ => apart.first_stays first (drafting.steady.mono fun _ _ => trivial)
          (fun a _ => drafting.entry a) drafting.content, fun e' failed => ?_⟩
      rw [wrote] at failed
      cases failed
    · cases run.symm.trans ended

end Writing

/-- Two documents with one entry each. -/
def pair : Documents where
  sync := NameMap.ofList [("X", { code := "(sync)" })]
  async := NameMap.ofList [("X", { code := "(async)" })]

/-- A directory that is reached by a link. The first document and its draft are links too. -/
def linkedOutput : Tree := .ofItems ["w"] [(["w"], .directory), (["w", "old.json"], .file []),
  (["w", "out"], .directory), (["w", "latest"], .link ⟨.relative, ["out"]⟩),
  (["w", "out", "wast.json"], .link ⟨.relative, ["..", "old.json"]⟩),
  (["w", "out", "wast.json.tmp"], .link ⟨.relative, ["..", "new.json"]⟩)]

/-- The draft's link leads over the directory above. -/
theorem linkedOutput_beyond {a : Location}
    (h : linkedOutput.Beyond ["w", "out"] (outputName .sync ++ ".tmp") a) :
    a = ["w"] ∨ a = ["w", "new.json"] := by
  obtain ⟨target, link, passes⟩ := h
  have held : linkedOutput.entry ["w", "out", "wast.json.tmp"] =
      some (.link ⟨.relative, ["..", "new.json"]⟩) := by decide
  obtain rfl := Entry.link.inj (Option.some.inj (held.symm.trans link))
  cases passes with
  | next => exact .inl rfl
  | link up => cases up
  | step _ passes =>
      cases passes with
      | next => exact .inr rfl
      | link absent => cases absent
      | step _ passes => cases passes

/-- A link to a file in the directory above leads there. -/
theorem linkedOutput_up {name file : String} {a : Location} (ordinary : name ≠ ".." ∧ file ≠ "..")
    (held : linkedOutput.entry ["w", "out", name] = some (.link ⟨.relative, ["..", file]⟩))
    (plain : ∀ target, linkedOutput.entry ["w", file] ≠ some (.link target))
    (leads : linkedOutput.LeadsTo everywhere ["w", "out"] [name] a) : a = ["w", file] := by
  have up : linkedOutput.LeadsTo everywhere ["w", "out"] ["..", file] ["w", file] := by
    refine .step (fun _ up => nomatch up) ?_
    exact (Tree.leadsTo_name_iff ordinary.2).mpr (.inl ⟨plain, rfl⟩)
  exact leads.unique ((Tree.leadsTo_name_iff ordinary.1).mpr (.inr ⟨_, held, up⟩))

theorem linkedOutput_leads : linkedOutput.LeadsTo (fun a => ¬ Public ["w", "out"] a)
    (linkedOutput.start (Path.ofString "latest")) (Path.ofString "latest").parts ["w", "out"] := by
  refine .link (show linkedOutput.entry ["w", "latest"] = some (.link ⟨.relative, ["out"]⟩) by
    decide) ?_ (.step (fun target link => ?_) .here)
  · rintro ⟨mode, same | same⟩ <;> cases mode <;> revert same <;> decide
  · cases link

theorem linkedOutput_apart (goal : Location)
    (leads : linkedOutput.Leads (Path.ofString "latest") goal) :
    Apart linkedOutput (Path.ofString "latest") goal ∧ Shielded linkedOutput goal := by
  obtain rfl := leads.unique linkedOutput_leads
  have plain (target : Path) :
      linkedOutput.entry ["w", "out", "wast-async.json"] ≠ some (.link target) ∧
        linkedOutput.entry ["w", "out", "wast-async.json.tmp"] ≠ some (.link target) :=
    ⟨nofun, nofun⟩
  have first {a : Location} (leads : linkedOutput.LeadsTo everywhere ["w", "out"]
      [outputName .sync ++ ".tmp"] a) : a = ["w", "new.json"] :=
    linkedOutput_up (by decide) (by decide) nofun leads
  have draft {a : Location} (leads : linkedOutput.LeadsTo everywhere ["w", "out"]
      [outputName .async ++ ".tmp"] a) : a = ["w", "out", "wast-async.json.tmp"] :=
    leads.eq_of_plain (by decide) fun target => (plain target).2
  have document {a : Location} (leads : linkedOutput.LeadsTo everywhere ["w", "out"]
      [outputName .async] a) : a = ["w", "out", "wast-async.json"] :=
    leads.eq_of_plain (by decide) fun target => (plain target).1
  -- nothing stands yet where the drafts lead
  have unlike {a b : Location} (absent : linkedOutput.entry a = none) (ne : a ≠ b) :
      ¬ linkedOutput.SameFile a b := by
    rintro (same | ⟨number, file, -⟩)
    · exact ne same
    · cases absent.symm.trans file
  refine ⟨⟨fun mode => ⟨linkedOutput_leads, fun a beyond => ?_,
      fun _ _ _ _ => show _ ∉ ([] : List Nat) from List.not_mem_nil⟩, fun a b leads leads' => ?_⟩,
    fun mode a b leads leads' => ?_, fun a b leads leads' => ?_, ?_⟩
  · cases mode with
    | sync =>
        rcases linkedOutput_beyond beyond with rfl | rfl <;> rintro ⟨mode, same | same⟩ <;>
          cases mode <;> revert same <;> decide
    | async =>
        obtain ⟨target, link, -⟩ := beyond
        exact absurd link (plain target).2
  · rw [first leads, draft leads']
    exact unlike (by decide) (by decide)
  · cases mode with
    | sync =>
        have old : b = ["w", "old.json"] := linkedOutput_up (by decide) (by decide) nofun leads'
        rw [first leads, old]
        exact unlike (by decide) (by decide)
    | async =>
        rw [draft leads, document leads']
        exact unlike (by decide) (by decide)
  · rw [first leads, document leads']
    exact unlike (by decide) (by decide)
  · rintro a ⟨target, link, -⟩
    exact absurd link (plain target).1

/-- The disk is full when the second draft is written. -/
def fullDisk : List (Option Fault) := List.replicate 8 none ++ [some ⟨⟨28⟩, 3⟩]

/-- Writes the pair through the link while the disk is full. -/
def interrupted : Except FileError (List Path) × Journal :=
  (writeDocuments pair (Path.ofString "latest")).run { tree := linkedOutput, faults := fullDisk }

/-- The draft's link is the first document now, and the second one is as it was. -/
theorem linkedOutput_written :
    interrupted.1 = .error (.os ⟨⟨28⟩, []⟩) ∧
      interrupted.2.tree.find? (Path.ofString "latest/wast.json") =
        some (.file (Text.Utf8.encode pair.sync.text)) ∧
      AsBefore (Path.ofString "latest") ["w", "out"] .async linkedOutput interrupted.2.tree := by
  have ended : interrupted.1 = .error (.os ⟨⟨28⟩, []⟩) := by decide +kernel
  have first : ((Action.writeText ((Path.ofString "latest").child (outputName .sync))
      pair.sync.text).run { tree := linkedOutput, faults := fullDisk }).1 = .ok () := by
    decide +kernel
  obtain ⟨after, run⟩ := Action.run_fst_iff.mp ended
  obtain ⟨second, written, -⟩ := (pair_written linkedOutput_apart run).2 _ rfl ["w", "out"]
    (linkedOutput_leads.mono fun _ _ => trivial)
  rw [interrupted, run]
  exact ⟨rfl, written first, second⟩

/-! ## Names that are not apart -/

/-- Writes the pair into a tree. -/
def attempt (t : Tree) (directory : String) : Except FileError (List Path) × Journal :=
  (writeDocuments pair (Path.ofString directory)).run { tree := t }

/-- What the path then leads to. -/
def leaves (t : Tree) (directory file : String) : Option Item :=
  (attempt t directory).2.tree.find? (Path.ofString file)

/-- The text of a document of the pair as a file. -/
def shows (mode : Mode) : Item := .file (Text.Utf8.encode (pair.get mode).text)

/-- A tree with an output directory. -/
def output (items : List (Location × Item)) : Tree :=
  .ofItems ["w"] ([(["w"], .directory), (["w", "out"], .directory)] ++ items)

/-- In the output directory two names are one file, which holds nothing. -/
def twoNames (name other : String) : Tree where
  workingDirectory := ["w"]
  entries := [(["w"], .directory), (["w", "out"], .directory), (["w", "out", name], .file 1),
    (["w", "out", other], .file 1)]
  contents := [(1, [])]

/-- A directory stands in the place of the second draft, so the second document cannot be written.
-/
def barred (t : Tree) : Tree := t.put ["w", "out", "wast-async.json.tmp"] .directory

/-- The first draft is the second document's file. -/
def seenDraft : Tree := twoNames "wast.json.tmp" "wast-async.json"

/-- The first draft is its own document's file. -/
def ownDraft : Tree := twoNames "wast.json.tmp" "wast.json"

/-- The drafts are one file. -/
def commonDraft : Tree := twoNames "wast.json.tmp" "wast-async.json.tmp"

/-- The second document is a link to the first. -/
def linkedDocument : Tree :=
  output [(["w", "out", "wast-async.json"], .link (Path.ofString "wast.json"))]

/-- The first draft is a link to the second document. -/
def linkedDraft : Tree :=
  output [(["w", "out", "wast.json.tmp"], .link (Path.ofString "wast-async.json"))]

/-- The first draft is a link to a device that swallows what is written. -/
def nullDraft : Tree where
  workingDirectory := ["w"]
  entries := [(["w"], .directory), (["w", "out"], .directory), (["dev"], .directory),
    (["dev", "null"], .file 1), (["w", "out", "wast.json.tmp"], .link (Path.ofString "/dev/null"))]
  contents := []
  devices := [1]

/-- A directory that is also reached through a link in the place of its second document. -/
def linkedWay : Tree := .ofItems ["w"] [(["w"], .directory), (["w", "sub"], .directory),
  (["w", "wast-async.json"], .link (Path.ofString "sub"))]

/-- The first document is replaced and the second cannot be written; and on the way to an output
directory that is written through the place of a document a directory is made there. Where the
second document shares its file with the first draft, or leads to the first document, it has changed
nevertheless. Where the drafts are not apart the pair is written, and the first document holds the
text of the second, or nothing, or is no longer to be found; and a draft that is another name of its
document stays. -/
theorem pair_torn :
    ((attempt (barred (output [])) "out").1 =
        .error (.os ⟨.isDirectory, [Path.ofString "out/wast-async.json.tmp"]⟩) ∧
      (barred (output [])).find? (Path.ofString "out/wast.json") = none ∧
      leaves (barred (output [])) "out" "out/wast.json" = some (shows .sync)) ∧
    ((attempt (output []) "wast.json/..").1 =
        .error (.os ⟨.isDirectory, [Path.ofString "wast.json/../wast.json.tmp",
          Path.ofString "wast.json/../wast.json"]⟩) ∧
      (output []).find? (Path.ofString "wast.json") = none ∧
      leaves (output []) "wast.json/.." "wast.json" = some .directory) ∧
    ((attempt (barred seenDraft) "out").1.isOk = false ∧
      (barred seenDraft).find? (Path.ofString "out/wast-async.json") = some (.file []) ∧
      leaves (barred seenDraft) "out" "out/wast-async.json" = some (shows .sync)) ∧
    ((attempt (barred linkedDocument) "out").1.isOk = false ∧
      (barred linkedDocument).find? (Path.ofString "out/wast-async.json") = none ∧
      leaves (barred linkedDocument) "out" "out/wast-async.json" = some (shows .sync)) ∧
    ((attempt ownDraft "out").1.isOk = true ∧
      leaves ownDraft "out" "out/wast.json.tmp" = some (shows .sync)) ∧
    ((attempt commonDraft "out").1.isOk = true ∧
      leaves commonDraft "out" "out/wast.json" = some (shows .async)) ∧
    ((attempt linkedDraft "out").1.isOk = true ∧
      leaves linkedDraft "out" "out/wast.json" = some (shows .async)) ∧
    ((attempt nullDraft "out").1.isOk = true ∧
      leaves nullDraft "out" "out/wast.json" = some (.file [])) ∧
    (attempt linkedWay "wast-async.json/..").1.isOk = true ∧
      leaves linkedWay "wast-async.json/.." "wast-async.json/../wast.json" = none ∧
      leaves linkedWay "wast-async.json/.." "wast.json" = some (shows .sync) ∧
      shows .sync ≠ shows .async := by
  refine ⟨?_, ?_, ?_, ?_, ?_, ?_, ?_, ?_, ?_⟩ <;> decide +kernel

end HostGlue.Cli

import HostGlue.Proofs.Interface.Accepted
import HostGlue.Proofs.Marshal.Continuation
import HostGlue.Proofs.SExpr.Expressions

/-!
# What the text of a manifest's entry reads as

The texts of a manifest reach generated code as a remark, as names and as quoted strings. In quotes
everything is escaped, so the host module and the field of the import read as they are. A remark and
a name are printed as they stand. For these the manifest's checks decide what may happen, and they
let through two things that are no part of a line: a line feed in a note, and one at the end of a
name.

The main theorem says that there is nothing else: the function reads as its tree exactly if
the names hold no line feed and the note has no tokens behind its first line.
-/

namespace HostGlue.Marshal

open Machine Wat Interface SExpr

/-! ## Quiet leaves -/

/-- A leaf that is read as it stands and holds no quote. -/
def Quiet (t : SExpr) : Prop := t.isLegible = true ∧ ∀ k ∈ t.tokens, CodePoint.char '"' ∉ k.spelling

theorem quoteless_atom {text : Text} (h : (Token.atom text).isLegible = true) :
    CodePoint.char '"' ∉ (Token.atom text).spelling := by
  intro mem
  have other : isAtomChar (.char '"') = true := (token_isLegible_atom.mp h).2 _ mem
  cases other

theorem quiet_sym {name : Text} (h : (SExpr.sym name).isLegible = true) : Quiet (.sym name) :=
  ⟨h, List.forall_mem_singleton.mpr (quoteless_atom h)⟩

theorem quiet_int (value : Int) : Quiet (.int value) :=
  ⟨rfl, List.forall_mem_singleton.mpr (quoteless_atom (token_isLegible_int value))⟩

theorem legible_prefixed {before name : String} (hbefore : (SExpr.sym ↑before).isLegible = true)
    (h : ∀ c ∈ name.toList, isAtomChar c = true) :
    (SExpr.sym ↑(before ++ name)).isLegible = true := by
  obtain ⟨ne, chars⟩ := token_isLegible_atom.mp hbefore
  rw [Text.ofString_append]
  refine token_isLegible_atom.mpr ⟨List.append_ne_nil_of_left_ne_nil ne _, fun c hc => ?_⟩
  rcases List.mem_append.mp hc with hc | hc
  · exact chars c hc
  · obtain ⟨c, mem, rfl⟩ := List.mem_map.mp hc
    exact h c mem

theorem isAtomChar_of_isNameChar {c : Char} (h : isNameChar c = true) : isAtomChar c = true :=
  isAtomChar_of_class h (by decide)

/-- Generated code with the given host module. -/
def importing (module : Text) : Context := ({} : Context).withHostModule module

theorem vocabulary_quiet (module : Text) : Vocabulary Quiet (importing module) where
  keyword word h := quiet_sym (by revert word; decide +kernel)
  machine name h := quiet_sym (by
    have plain : ∀ name ∈ machineNames {}, (SExpr.sym ↑name).isLegible = true := by decide +kernel
    exact plain name h)
  offset pair := quiet_sym (legible_prefixed (by decide) fun c => isAtomChar_of_mem_repr)
  length pair := quiet_sym (legible_prefixed (by decide) fun c => isAtomChar_of_mem_repr)
  remark text h := by
    have plain : ∀ text ∈ fixedRemarks, (SExpr.comment text).isLegible = true ∧
        CodePoint.char '"' ∉ (Token.comment text).spelling := by decide +kernel
    exact ⟨(plain text h).1, List.forall_mem_singleton.mpr (plain text h).2⟩
  number := quiet_int

/-- A written tree of quiet leaves is legible, and its text holds no quote. -/
theorem quiet_text {t : SExpr} {text : Text} (h : t.Written Quiet)
    (spells : Spells [] t.tokens text) : t.isLegible = true ∧ CodePoint.char '"' ∉ text := by
  refine ⟨legible_of_written (fun _ leaf => leaf.1) h, ?_⟩
  have free := tokens_of_written (fun k => CodePoint.char '"' ∉ k.spelling) (by decide) (by decide)
    (fun _ leaf => leaf.2) h
  rw [← List.count_eq_zero, spells.count (by decide), List.count_eq_zero]
  intro mem
  obtain ⟨k, hk, mem⟩ := List.mem_flatMap.mp mem
  exact free k hk mem

/-! ## The host call is in the tree -/

theorem mem_tokens_list {k : Token} {x : SExpr} {items : List SExpr} (hx : x ∈ items)
    (hk : k ∈ x.tokens) : k ∈ (SExpr.list items).tokens := by
  have inside : k ∈ tokensAll items := by
    induction items with
    | nil => cases hx
    | cons y rest ih =>
        rcases List.mem_cons.mp hx with rfl | hx
        · exact List.mem_append_left _ hk
        · exact List.mem_append_right _ (ih hx)
  exact List.mem_cons_of_mem _ (List.mem_append_left _ inside)

/-- The function that is called is named in the tree around the call. -/
theorem target_mem_fill {frame : Frame} {target : String} {args : List Node} {t : SExpr}
    (h : lower (frame.fill (.call target args)) = .ok t) : .atom ↑target ∈ t.tokens := by
  have call {u : SExpr} (hu : lower (.call target args) = .ok u) : .atom ↑target ∈ u.tokens := by
    obtain ⟨operands, -, rfl⟩ := lower_call_eq_ok.mp hu
    exact mem_tokens_list (x := .sym ↑target) (by simp) (List.mem_singleton.mpr rfl)
  have instr {op : String} {n : Node} {u : SExpr}
      (inner : ∀ v, lower n = .ok v → .atom ↑target ∈ v.tokens)
      (hu : lower (.instr op [n]) = .ok u) : .atom ↑target ∈ u.tokens := by
    obtain ⟨_, operands, rfl⟩ := lower_instr_eq_ok.mp hu
    obtain ⟨v, hv, _, ⟨⟩, rfl⟩ := lowerAll_cons_eq_ok.mp operands
    exact mem_tokens_list (by simp) (inner v hv)
  have store {addr n : Node} {u : SExpr} (inner : ∀ v, lower n = .ok v → .atom ↑target ∈ v.tokens)
      (hu : lower (.store "i64" addr n) = .ok u) : .atom ↑target ∈ u.tokens := by
    obtain ⟨a, -, v, hv, rfl⟩ := lower_store_eq_ok.mp hu
    exact mem_tokens_list (by simp) (inner v hv)
  cases frame with
  | bare => exact call h
  | stored addr => exact store (fun _ => call) h
  | extended addr => exact store (fun _ => instr fun _ => call) h
  | inverted addr => exact store (fun _ => instr fun _ => instr fun _ => call) h

/-- The name of the function and the name of the host function are in the function's tree. -/
theorem names_mem_function {opcode : String} {d : Descriptor} {mode : Mode} {ctx : Context}
    {plan : OperandPlan} {func : Node} {tree : SExpr} (hw : ctx.wordBytes ≠ 0)
    (hplan : planOperands opcode d ctx = .ok plan)
    (built : buildFunction opcode d mode ctx = .ok func) (lowered : lower func = .ok tree) :
    (∃ rest, tree = .list (.sym "func" :: .sym ↑("$" ++ opcode) :: rest)) ∧
      .atom ↑("$" ++ d.name) ∈ tree.tokens := by
  rw [buildFunction_split opcode d mode hw hplan] at built
  cases built
  obtain ⟨_, body, rfl⟩ := lower_func_eq_ok.mp lowered
  refine ⟨⟨_, rfl⟩, ?_⟩
  obtain ⟨us, -, _, after, rfl⟩ := lowerBody_append_eq_ok.mp body
  obtain ⟨v, hv, vs, -, rfl⟩ := (lowerBody_plain_eq_ok (fill_ne_seq _ _ _)).mp after
  exact mem_tokens_list (by simp) (target_mem_fill hv)

/-! ## Below the header -/

/-- Of the header only the note can add to the text. -/
theorem codeTokens_header (d : Descriptor) (module : Text) {text : Text}
    (free : CodePoint.char '"' ∉ text) :
    codeTokens (above (headerTexts d (importing module)) text) =
      (strayTokens (d.note.getD [])).bind fun ts => (codeTokens text).map (ts ++ ·) := by
  have banner (below : Text) : codeTokens (above [({} : Context).banner] below) =
      codeTokens below := by
    have line : CodePoint.char '\n' ∉ ({} : Context).banner := by decide
    show codeTokens (.char ';' :: .char ';' :: .char ' ' ::
      (({} : Context).banner ++ .char '\n' :: below)) = _
    rw [codeTokens_line line (lineEnds_line below), codeTokens, scan_blank rfl]
    rfl
  have unremarked : codeTokens text =
      (strayTokens []).bind fun ts => (codeTokens text).map (ts ++ ·) :=
    (Option.map_id_apply).symm
  unfold headerTexts
  cases d.note with
  | none => exact (banner text).trans unremarked
  | some note =>
      cases empty : note.isEmpty with
      | true =>
          obtain rfl := List.isEmpty_iff.mp empty
          exact (banner text).trans unremarked
      | false =>
          have label : CodePoint.char '\n' ∉ Text.ofString "known defect: " := by decide
          have same : strayTokens (↑"known defect: " ++ note) = strayTokens note := by
            rw [strayTokens, spill_append label, strayTokens]
          have remarked : codeTokens (above [↑"known defect: " ++ note] text) =
              (strayTokens note).bind fun ts => (codeTokens text).map (ts ++ ·) := by
            rw [← same]
            exact codeTokens_remark free
          dsimp only
          rw [empty, if_neg Bool.false_ne_true]
          exact (banner _).trans remarked

/-! ## Reading generated text -/

/-- A name that was read in an atom holds no line end. -/
theorem line_of_atom {ts : List Token} (h : AtomsUnbroken ts) {name : String}
    (mem : .atom ↑("$" ++ name) ∈ ts) : '\n' ∉ name.toList := by
  intro broken
  refine h _ mem ?_
  rw [Text.ofString_append]
  exact List.mem_append_right _ (List.mem_map_of_mem broken)

section Entry

variable {opcode : String} {module : Text} {d : Descriptor} {mode : Mode} {plan : OperandPlan}
  {func : Node}
  {tree : SExpr}

/-- An opcode without a line end is an atom behind its mark. -/
theorem legible_opcode (entry : Accepted opcode d) (line : '\n' ∉ opcode.toList) :
    (SExpr.sym ↑("$" ++ opcode)).isLegible = true :=
  legible_prefixed (by decide) fun c hc =>
    isAtomChar_of_isNameChar (char_of_isOpcodeName entry.opcode line c hc)

theorem legible_host (entry : Accepted opcode d) (line : '\n' ∉ d.name.toList) :
    (SExpr.sym ↑("$" ++ d.name)).isLegible = true :=
  legible_prefixed (by decide) fun c hc =>
    isAtomChar_of_isNameChar (char_of_isHostName entry.host line c hc)

theorem wordBytes_importing (module : Text) : (importing module).wordBytes ≠ 0 :=
  show (8 : Int) ≠ 0 by decide

/-- When a function's text reads as its tree. -/
theorem function_reads_iff (entry : Accepted opcode d)
    (hplan : planOperands opcode d (importing module) = .ok plan)
    (built : buildFunction opcode d mode (importing module) = .ok func)
    (lowered : lower func = .ok tree) {code text : Text}
    (hcode : code = above (headerTexts d (importing module)) text)
    (spells : Spells [] tree.tokens text) :
    expressions code = some [tree.erase.spelled] ↔ '\n' ∉ opcode.toList ∧ '\n' ∉ d.name.toList ∧
      strayTokens (d.note.getD []) = some [] := by
  obtain ⟨⟨rest, hrest⟩, target⟩ :=
    names_mem_function (wordBytes_importing module) hplan built lowered
  have plain : tree.isComment = false := by
    rw [hrest]
    rfl
  have name : .atom ↑("$" ++ opcode) ∈ tree.tokens := by
    rw [hrest]
    exact mem_tokens_list (x := .sym ↑("$" ++ opcode)) (by simp) (List.mem_singleton.mpr rfl)
  -- names that hold no line end leave nothing in the tree that is not read as it stands
  have quiet (hopcode : '\n' ∉ opcode.toList) (hname : '\n' ∉ d.name.toList) :
      tree.isLegible = true ∧ CodePoint.char '"' ∉ text := by
    obtain ⟨_, built', _, lowered', written⟩ := (vocabulary_quiet module).function mode
      (quiet_sym (legible_opcode entry hopcode)) (quiet_sym (legible_host entry hname))
      (wordBytes_importing module) hplan
    obtain rfl := Except.ok.inj (built.symm.trans built')
    obtain rfl := Except.ok.inj (lowered.symm.trans lowered')
    exact quiet_text written spells
  constructor
  · intro reads
    have tokens := codeTokens_of_expressions reads
    rw [tokensAll_cons, tokensAll_nil, List.append_nil, tokens_spelled, tokens_erase plain]
      at tokens
    have unbroken := codeTokens_unbroken tokens
    have hopcode := line_of_atom unbroken (List.mem_filter.mpr ⟨name, rfl⟩)
    have hname := line_of_atom unbroken (List.mem_filter.mpr ⟨target, rfl⟩)
    obtain ⟨legible, free⟩ := quiet hopcode hname
    rw [hcode, codeTokens_header d module free, codeTokens_of_spells legible spells] at tokens
    refine ⟨hopcode, hname, ?_⟩
    cases stray : strayTokens (d.note.getD []) with
    | none => simp [stray] at tokens
    | some ts => simpa [stray] using tokens
  · rintro ⟨hopcode, hname, stray⟩
    obtain ⟨legible, free⟩ := quiet hopcode hname
    rw [expressions_eq_iff legible plain, hcode, codeTokens_header d module free,
      codeTokens_of_spells legible spells, stray]
    rfl

/-- An import holds no number, so nothing in it has another spelling. -/
theorem spelled_lower (i : Import) : i.lower.spelled = i.lower := by
  have names (ns : List String) :
      spelledAll (ns.map fun (name : String) => .sym name) = ns.map fun name => .sym name := by
    induction ns with
    | nil => rfl
    | cons n ns ih => simp [spelledAll, spelled, ih]
  unfold Import.lower
  cases i.params with
  | nil => cases i.result <;> rfl
  | cons p ps => cases i.result <;> simp [spelled, spelledAll, names]

theorem name_mem_lower (i : Import) : .atom i.name ∈ i.lower.tokens := by
  refine mem_tokens_list (.tail _ (.tail _ (.tail _ (.head _)))) ?_
  exact mem_tokens_list (.tail _ (.head _)) (List.mem_singleton.mpr rfl)

/-- When an import's text reads as its tree. -/
theorem import_reads_iff (entry : Accepted opcode d) {imports : Text}
    (spells : Spells [] (hostImport d mode (importing module)).lower.tokens imports) :
    SExpr.read imports = some [(hostImport d mode (importing module)).lower] ↔
      '\n' ∉ d.name.toList := by
  constructor
  · intro reads
    obtain ⟨ts, hts, built⟩ := Option.bind_eq_some_iff.mp reads
    have tokens : (hostImport d mode (importing module)).lower.tokens ++ [] = ts :=
      tokensAll_of_build built
    have between : Reading.between.Unbroken := trivial
    refine line_of_atom (scan_unbroken between hts) ?_
    rw [← tokens, List.append_nil]
    exact name_mem_lower _
  · intro line
    have v := (vocabulary_quiet module).mono fun _ leaf => leaf.1
    obtain ⟨_, ⟨⟩, written⟩ := v.hostImport (d := d) mode rfl rfl (legible_host entry line)
    have reads := reads_of_spells_one (legible_of_written (fun _ leaf => leaf) written) spells
    rw [spelled_lower] at reads
    exact reads.1

end Entry

/-- **Generated text reads as its tree, unless a line is broken.** Every entry of an accepted
manifest has a function and an import in both modes. The function's text reads as the function's
tree without its comments exactly if neither name holds a line feed and the note has no tokens
behind its first line; the import's text reads as the import's tree exactly if the host function's
name holds no line feed. The host module may be any text. -/
theorem generated_text_reads {source opcode : String} {data : Json.Value} {m : Manifest}
    {d : Descriptor} (h : Manifest.ofJson source data = .ok m) (mem : (opcode, d) ∈ m.opcodes)
    (module : Text) (mode : Mode) :
    ∃ func tree artifact imports, buildFunction opcode d mode (importing module) = .ok func ∧
      lower func = .ok tree ∧ compileFunction opcode d mode (importing module) = .ok artifact ∧
      artifact.imports = some imports ∧
      (∃ rest, tree = .list (.sym "func" :: .sym ↑("$" ++ opcode) :: rest)) ∧
      (expressions artifact.code = some [tree.erase.spelled] ↔ '\n' ∉ opcode.toList ∧
        '\n' ∉ d.name.toList ∧ strayTokens (d.note.getD []) = some []) ∧
      (SExpr.read imports = some [(hostImport d mode (importing module)).lower] ↔
        '\n' ∉ d.name.toList) := by
  have entry := manifest_accepted h mem
  have start : Paired ({} : Place).waiting d.inputs := paired_of_checkPairing entry.pairing
  have hw := wordBytes_importing module
  obtain ⟨e, q, w⟩ : ∃ e q, Walk opcode (importing module) {} d.inputs e q := exists_walk hw start
  have hplan := planOperands_eq_ok_iff.mpr ⟨e, q, w, rfl⟩
  obtain ⟨func, tree, artifact, built, lowered, -, compiled, shows⟩ :=
    compileFunction_shows (vocabulary_any _) trivial trivial hw hplan mode
  obtain ⟨text, hcode, spells⟩ := shows.code
  obtain ⟨imports, himports, spellsImport⟩ := shows.imports
  exact ⟨func, tree, artifact, imports, built, lowered, compiled, himports,
    (names_mem_function hw hplan built lowered).1,
    function_reads_iff entry hplan built lowered hcode spells, import_reads_iff entry spellsImport⟩

/-- A manifest with one entry, which has a note. -/
def notedManifest (note : String) : Json.Value :=
  .obj [("schema_version", .int 1), ("opcodes", .obj [("X", .obj
    [("name", .str "f"), ("input", .arr []), ("output", .arr []), ("note", .str note)])])]

def notedEntry (note : String) : Descriptor := { name := "f", note := some note }

theorem notedManifest_accepted (note : String) : Manifest.ofJson "m.json" (notedManifest note) =
    .ok { hostModule := "ethereum", opcodes := [("X", notedEntry note)] } := rfl

/-- A note of two lines, the second a comment of its own. -/
theorem notedManifest_reads : ∃ (tree : SExpr) (artifact : Artifact),
    compileFunction "X" (notedEntry "see (b)\n;; \"c") .async (importing "\n)") = .ok artifact ∧
      (∃ rest, tree = .list (.sym "func" :: .sym "$X" :: rest)) ∧
      expressions artifact.code = some [tree.erase.spelled] ∧
      ∃ imports, artifact.imports = some imports ∧ SExpr.read imports =
        some [.list [.sym "import", .str "\n)", .str "f", .list [.sym "func", .sym "$f"]]] := by
  obtain ⟨-, tree, artifact, imports, -, -, compiled, himports, headed, function, imported⟩ :=
    generated_text_reads (notedManifest_accepted "see (b)\n;; \"c") (List.mem_singleton.mpr rfl)
      "\n)" .async
  exact ⟨tree, artifact, compiled, headed, function.mpr ⟨by decide, by decide, rfl⟩, imports,
    himports, imported.mpr (by decide)⟩

/-- The artifact of an entry whose note has a second line. -/
def brokenNote : Artifact where
  code := ";; generated by wastgen\n" ++ ";; known defect: a\n(b)\n" ++ "(func $X (call $f))"
  imports := some "(import \"ethereum\" \"f\" (func $f))"

/-- The second line of a note is read as an expression in front of the function. -/
theorem note_read_as_code :
    Manifest.ofJson "m.json" (notedManifest "a\n(b)") =
        .ok { hostModule := "ethereum", opcodes := [("X", notedEntry "a\n(b)")] } ∧
      compileFunction "X" (notedEntry "a\n(b)") .sync {} = .ok brokenNote ∧
      expressions brokenNote.code = some [.list [.sym "b"],
        .list [.sym "func", .sym "$X", .list [.sym "call", .sym "$f"]]] ∧
      ∀ t, expressions brokenNote.code ≠ some [t] := by
  have compiled : compileFunction "X" (notedEntry "a\n(b)") .sync {} = .ok brokenNote := by
    have built : buildFunction "X" (notedEntry "a\n(b)") .sync {} =
      .ok (.func "$X" [] [] [.seq [], .call "$f" []]) := rfl
    have laid : renderNode (.func "$X" [] [] [.seq [], .call "$f" []]) =
      .ok ↑"(func $X (call $f))" := by decide +kernel
    have laidImport : renderNode (.hostImport (hostImport (notedEntry "a\n(b)") .sync {})) =
      .ok ↑"(import \"ethereum\" \"f\" (func $f))" := by decide +kernel
    have code : brokenNote.code = above ["generated by wastgen", "known defect: a\n(b)"]
      ↑"(func $X (call $f))" := by decide +kernel
    refine compileFunction_eq_ok.mpr ⟨_, built, _, ?_, _, render_below_notes [] laidImport, rfl⟩
    exact (render_below_notes ["generated by wastgen", "known defect: a\n(b)"] laid).trans
      (congrArg Except.ok code.symm)
  have reads : expressions brokenNote.code = some [.list [.sym "b"],
      .list [.sym "func", .sym "$X", .list [.sym "call", .sym "$f"]]] := by
    have tokens : codeTokens brokenNote.code = some (tokensAll [.list [.sym "b"],
      .list [.sym "func", .sym "$X", .list [.sym "call", .sym "$f"]]]) := by decide +kernel
    rw [expressions, tokens]
    rfl
  refine ⟨rfl, compiled, reads, ?_⟩
  intro t same
  rw [reads] at same
  cases same

end HostGlue.Marshal

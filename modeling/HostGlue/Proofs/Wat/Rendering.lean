import HostGlue.Proofs.SExpr.Written
import HostGlue.Wat.Lowering

/-!
# Nodes that have a text

A node has a tree unless a sequence or a blank stands where one tree is expected. `Renders` says
that it has one, and a tree that is laid out: each lemma is one kind of node, and what the code
generator builds is put together from them.
-/

namespace HostGlue.Wat

open SExpr

/-! ## Lowering that succeeds -/

section Success

variable {name op target valtype : String} {value addr : Node} {args items nodes rest : List Node}
  {t : SExpr} {ts : List SExpr}

theorem lower_setLocal_eq_ok : lower (.setLocal name value) = .ok t ↔
    ∃ v, lower value = .ok v ∧ .list [.sym "set_local", .sym name, v] = t := by
  simp [lower]

theorem lower_instr_eq_ok : lower (.instr op args) = .ok t ↔
    ∃ operands, lowerAll args = .ok operands ∧ .list (.sym op :: operands) = t := by
  simp [lower]

theorem lower_load_eq_ok : lower (.load valtype addr) = .ok t ↔
    ∃ a, lower addr = .ok a ∧ .list [.sym ↑(valtype ++ ".load"), a] = t := by
  simp [lower]

theorem lower_store_eq_ok : lower (.store valtype addr value) = .ok t ↔
    ∃ a, lower addr = .ok a ∧ ∃ v, lower value = .ok v ∧
      .list [.sym ↑(valtype ++ ".store"), a, v] = t := by
  simp [lower]

theorem lower_call_eq_ok : lower (.call target args) = .ok t ↔
    ∃ operands, lowerAll args = .ok operands ∧
      .list (.sym "call" :: .sym target :: operands) = t := by
  simp [lower]

theorem lower_func_eq_ok {params locals : List (String × String)} {body : List Node} :
    lower (.func name params locals body) = .ok t ↔
      ∃ statements, lowerBody body = .ok statements ∧
        .list (.sym "func" :: .sym name :: (params.map (declaration "param") ++
          locals.map (declaration "local") ++ statements)) = t := by
  simp [lower]

theorem lowerAll_cons_eq_ok : lowerAll (value :: rest) = .ok ts ↔
    ∃ v, lower value = .ok v ∧ ∃ vs, lowerAll rest = .ok vs ∧ v :: vs = ts := by
  simp [lowerAll]

theorem lowerAll_append_eq_ok : lowerAll (nodes ++ rest) = .ok ts ↔
    ∃ us, lowerAll nodes = .ok us ∧ ∃ vs, lowerAll rest = .ok vs ∧ us ++ vs = ts := by
  induction nodes generalizing ts with
  | nil => simp [lowerAll]
  | cons node nodes ih =>
      simp only [List.cons_append, lowerAll_cons_eq_ok, ih]
      constructor
      · rintro ⟨v, hv, _, ⟨us, hus, vs, hvs, rfl⟩, rfl⟩
        exact ⟨_, ⟨v, hv, us, hus, rfl⟩, vs, hvs, rfl⟩
      · rintro ⟨_, ⟨v, hv, us, hus, rfl⟩, vs, hvs, rfl⟩
        exact ⟨v, hv, _, ⟨us, hus, vs, hvs, rfl⟩, rfl⟩

/-- A node that is no sequence stands in a body as it is. -/
theorem lowerBody_plain_eq_ok (plain : ∀ items, value ≠ .seq items) :
    lowerBody (value :: rest) = .ok ts ↔
      ∃ v, lower value = .ok v ∧ ∃ vs, lowerBody rest = .ok vs ∧ v :: vs = ts := by
  cases value with
  | seq items => exact absurd rfl (plain items)
  | _ => simp [lowerBody]

theorem lowerBody_seq_eq_ok : lowerBody (.seq items :: rest) = .ok ts ↔
    ∃ us, lowerBody items = .ok us ∧ ∃ vs, lowerBody rest = .ok vs ∧ us ++ vs = ts := by
  simp [lowerBody]

theorem lowerBody_cons_eq_ok (n : Node) : lowerBody (n :: rest) = .ok ts ↔
    ∃ us, lowerBody [n] = .ok us ∧ ∃ vs, lowerBody rest = .ok vs ∧ us ++ vs = ts := by
  cases n with
  | seq items => simp [lowerBody]
  | _ => simp [lowerBody]

theorem lowerBody_append_eq_ok : lowerBody (nodes ++ rest) = .ok ts ↔
    ∃ us, lowerBody nodes = .ok us ∧ ∃ vs, lowerBody rest = .ok vs ∧ us ++ vs = ts := by
  induction nodes generalizing ts with
  | nil => simp [lowerBody]
  | cons node nodes ih =>
      have here (us : List SExpr) : lowerBody (node :: nodes) = .ok us ↔ _ :=
        lowerBody_cons_eq_ok node
      rw [List.cons_append, lowerBody_cons_eq_ok node]
      simp only [here, ih]
      constructor
      · rintro ⟨us, hus, _, ⟨vs, hvs, ws, hws, rfl⟩, rfl⟩
        exact ⟨_, ⟨us, hus, vs, hvs, rfl⟩, ws, hws, List.append_assoc _ _ _⟩
      · rintro ⟨_, ⟨us, hus, vs, hvs, rfl⟩, ws, hws, rfl⟩
        exact ⟨us, hus, _, ⟨vs, hvs, ws, hws, rfl⟩, (List.append_assoc _ _ _).symm⟩

end Success

/-! ## One node -/

variable {leaf : SExpr → Prop}

/-- The node has a tree that is laid out, with leaves of the given sort. -/
def Renders (leaf : SExpr → Prop) (n : Node) : Prop := ∃ t, lower n = .ok t ∧ t.Written leaf

theorem renders_const {valtype : String} {value : Int} (op : leaf (.sym ↑(valtype ++ ".const")))
    (h : leaf (.int value)) : Renders leaf (.const valtype value) :=
  ⟨_, rfl, List.cons_ne_nil _ _, op, h, trivial⟩

theorem renders_getGlobal {name : String} (op : leaf (.sym "get_global")) (h : leaf (.sym name)) :
    Renders leaf (.getGlobal name) :=
  ⟨_, rfl, List.cons_ne_nil _ _, op, h, trivial⟩

theorem renders_getLocal {name : String} (op : leaf (.sym "get_local")) (h : leaf (.sym name)) :
    Renders leaf (.getLocal name) :=
  ⟨_, rfl, List.cons_ne_nil _ _, op, h, trivial⟩

theorem renders_note {text : Text} (h : leaf (.comment text)) : Renders leaf (.note text) :=
  ⟨_, rfl, h⟩

theorem renders_setLocal {name : String} {value : Node} (op : leaf (.sym "set_local"))
    (h : leaf (.sym name)) (hvalue : Renders leaf value) : Renders leaf (.setLocal name value) := by
  obtain ⟨v, hv, written⟩ := hvalue
  exact ⟨_, lower_setLocal_eq_ok.mpr ⟨v, hv, rfl⟩, List.cons_ne_nil _ _, op, h, written, trivial⟩

theorem renders_load {valtype : String} {addr : Node} (op : leaf (.sym ↑(valtype ++ ".load")))
    (haddr : Renders leaf addr) : Renders leaf (.load valtype addr) := by
  obtain ⟨a, ha, written⟩ := haddr
  exact ⟨_, lower_load_eq_ok.mpr ⟨a, ha, rfl⟩, List.cons_ne_nil _ _, op, written, trivial⟩

theorem renders_store {valtype : String} {addr value : Node}
    (op : leaf (.sym ↑(valtype ++ ".store"))) (haddr : Renders leaf addr)
    (hvalue : Renders leaf value) : Renders leaf (.store valtype addr value) := by
  obtain ⟨a, ha, writtenA⟩ := haddr
  obtain ⟨v, hv, writtenV⟩ := hvalue
  exact ⟨_, lower_store_eq_ok.mpr ⟨a, ha, v, hv, rfl⟩, List.cons_ne_nil _ _, op, writtenA, writtenV,
    trivial⟩

/-! ## Several nodes -/

theorem lowerAll_ok {nodes : List Node} (h : ∀ n ∈ nodes, Renders leaf n) :
    ∃ ts, lowerAll nodes = .ok ts ∧ WrittenAll leaf ts := by
  induction nodes with
  | nil => exact ⟨[], rfl, trivial⟩
  | cons node nodes ih =>
      obtain ⟨v, hv, written⟩ := h node List.mem_cons_self
      obtain ⟨vs, hvs, writtenAll⟩ := ih fun n hn => h n (List.mem_cons_of_mem _ hn)
      exact ⟨v :: vs, lowerAll_cons_eq_ok.mpr ⟨v, hv, vs, hvs, rfl⟩, written, writtenAll⟩

theorem lowerBody_ok {nodes : List Node} (h : ∀ n ∈ nodes, Renders leaf n) :
    ∃ ts, lowerBody nodes = .ok ts ∧ WrittenAll leaf ts := by
  induction nodes with
  | nil => exact ⟨[], rfl, trivial⟩
  | cons node nodes ih =>
      obtain ⟨v, hv, written⟩ := h node List.mem_cons_self
      obtain ⟨vs, hvs, writtenAll⟩ := ih fun n hn => h n (List.mem_cons_of_mem _ hn)
      have plain : ∀ items, node ≠ .seq items := by
        rintro items rfl
        cases hv
      exact ⟨v :: vs, (lowerBody_plain_eq_ok plain).mpr ⟨v, hv, vs, hvs, rfl⟩, written, writtenAll⟩

theorem renders_instr {op : String} {args : List Node} (hop : leaf (.sym op))
    (h : ∀ n ∈ args, Renders leaf n) : Renders leaf (.instr op args) := by
  obtain ⟨operands, lowered, written⟩ := lowerAll_ok h
  exact ⟨_, lower_instr_eq_ok.mpr ⟨operands, lowered, rfl⟩, List.cons_ne_nil _ _, hop, written⟩

theorem renders_call {target : String} {args : List Node} (op : leaf (.sym "call"))
    (htarget : leaf (.sym target)) (h : ∀ n ∈ args, Renders leaf n) :
    Renders leaf (.call target args) := by
  obtain ⟨operands, lowered, written⟩ := lowerAll_ok h
  exact ⟨_, lower_call_eq_ok.mpr ⟨operands, lowered, rfl⟩, List.cons_ne_nil _ _, op, htarget,
    written⟩

/-- A declared name and its type are symbols of the sort. -/
def Declares (leaf : SExpr → Prop) (d : String × String) : Prop :=
  leaf (.sym d.1) ∧ leaf (.sym d.2)

theorem written_declarations {head : String} {ds : List (String × String)} (op : leaf (.sym head))
    (h : ∀ d ∈ ds, Declares leaf d) : WrittenAll leaf (ds.map (declaration head)) := by
  rw [writtenAll_iff]
  intro t ht
  obtain ⟨d, hd, rfl⟩ := List.mem_map.mp ht
  exact ⟨List.cons_ne_nil _ _, op, (h d hd).1, (h d hd).2, trivial⟩

/-- A function whose body opens with a sequence. -/
theorem renders_func {name : String} {params locals : List (String × String)}
    {prelude body : List Node} (op : leaf (.sym "func")) (hname : leaf (.sym name))
    (opParam : leaf (.sym "param")) (hparams : ∀ d ∈ params, Declares leaf d)
    (opLocal : leaf (.sym "local")) (hlocals : ∀ d ∈ locals, Declares leaf d)
    (hprelude : ∀ n ∈ prelude, Renders leaf n) (hbody : ∀ n ∈ body, Renders leaf n) :
    Renders leaf (.func name params locals (.seq prelude :: body)) := by
  obtain ⟨us, hus, writtenU⟩ := lowerBody_ok hprelude
  obtain ⟨vs, hvs, writtenV⟩ := lowerBody_ok hbody
  refine ⟨_, lower_func_eq_ok.mpr ⟨us ++ vs, lowerBody_seq_eq_ok.mpr ⟨us, hus, vs, hvs, rfl⟩, rfl⟩,
    List.cons_ne_nil _ _, op, hname, ?_⟩
  rw [writtenAll_append, writtenAll_append, writtenAll_append]
  exact ⟨⟨written_declarations opParam hparams, written_declarations opLocal hlocals⟩, writtenU,
    writtenV⟩

theorem renders_hostImport {i : Import} (ops : ∀ op ∈ ["import", "func", "param", "result"],
    leaf (.sym op)) (hmodule : leaf (.str i.module)) (hfield : leaf (.str i.field))
    (hname : leaf (.sym i.name)) (hparams : ∀ p ∈ i.params, leaf (.sym p))
    (hresult : ∀ r ∈ i.result, leaf (.sym r)) : Renders leaf (.hostImport i) := by
  have params : WrittenAll leaf
      (if i.params.isEmpty then [] else
        [.list (.sym "param" :: i.params.map fun (valtype : String) => .sym valtype)]) := by
    split
    · trivial
    · refine ⟨⟨List.cons_ne_nil _ _, ops _ (by decide), writtenAll_iff.mpr fun t ht => ?_⟩, trivial⟩
      obtain ⟨p, hp, rfl⟩ := List.mem_map.mp ht
      exact hparams p hp
  refine ⟨_, rfl, List.cons_ne_nil _ _, ops _ (by decide), hmodule, hfield,
    ⟨List.cons_ne_nil _ _, ops _ (by decide), hname, writtenAll_append.mpr ⟨params, ?_⟩⟩, trivial⟩
  cases h : i.result with
  | none => trivial
  | some valtype =>
      exact ⟨⟨List.cons_ne_nil _ _, ops _ (by decide), hresult valtype h, trivial⟩, trivial⟩

/-! ## Text below comment lines -/

theorem renderNode_eq_ok {n : Node} {text : Text} :
    renderNode n = .ok text ↔ ∃ t, lower n = .ok t ∧ t.format 0 = .ok text := by
  simp [renderNode]

theorem renderNode_note (text : Text) : renderNode (.note text) = .ok (";; " ++ text) := by
  have line : SExpr.lines 0 (.comment text) = .ok [";; " ++ text] := rfl
  refine renderNode_eq_ok.mpr ⟨_, rfl, ?_⟩
  rw [SExpr.format, line, Except.map, List.intercalate_singleton]

theorem flatten_notes (notes : List Text) (rest : List Node) :
    flatten (notes.map .note ++ rest) = notes.map .note ++ flatten rest := by
  induction notes with
  | nil => rfl
  | cons note notes ih =>
      rw [List.map_cons, List.cons_append, flatten, ih, List.cons_append]
      intro items same
      cases same

/-- A node with a text is no sequence. -/
theorem flatten_of_ok {n : Node} {text : Text} (h : renderNode n = .ok text) :
    flatten [n] = [n] := by
  cases n with
  | seq items =>
      obtain ⟨t, ht, -⟩ := renderNode_eq_ok.mp h
      cases ht
  | _ => rw [flatten, flatten]
         intro items same
         cases same

/-- What stands in front of a text on lines of their own. -/
def above (notes : List Text) (text : Text) : Text :=
  notes.foldr (fun note below =>
    .char ';' :: .char ';' :: .char ' ' :: (note ++ .char '\n' :: below)) text

theorem above_inj {notes : List Text} {x y : Text} (h : above notes x = above notes y) :
    x = y := by
  induction notes with
  | nil => exact h
  | cons note notes ih =>
      simp only [above, List.foldr_cons, List.cons.injEq, true_and, List.append_cancel_left_eq] at h
      exact ih h

/-- The text of a node below comment lines. -/
theorem render_below_notes {n : Node} {text : Text} (notes : List Text)
    (h : renderNode n = .ok text) : render (notes.map .note ++ [n]) = .ok (above notes text) := by
  have each : (notes.map Node.note ++ [n]).mapM renderNode =
      .ok (notes.map (Text.ofString ";; " ++ ·) ++ [text]) := by
    induction notes with
    | nil => simp [h]
    | cons note notes ih => simp [ih, renderNode_note]
  rw [render, flatten_notes, flatten_of_ok h, each]
  refine congrArg Except.ok ?_
  clear each
  induction notes with
  | nil => simp [above]
  | cons note notes ih =>
      rw [List.map_cons, List.cons_append, List.intercalate_cons_of_ne_nil (by simp), ih]
      simp [above, Text.ofString]

end HostGlue.Wat

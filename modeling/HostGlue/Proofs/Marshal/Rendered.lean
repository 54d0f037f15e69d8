import HostGlue.Proofs.Marshal.Completion
import HostGlue.Proofs.Wat.Rendering

/-!
# Generated functions have a text

Whatever a descriptor asks for, the code generator puts no sequence where an operand is expected and
no blank node anywhere, so the function and its import are lowered and laid out. Names are taken
over from the context, the opcode and the descriptor; `Vocabulary` collects what the walk and the
result stage add of their own.
-/

namespace HostGlue.Marshal

open Machine Wat Interface SExpr

/-- The words of the text format that generated code uses. -/
def keywords : List String :=
  ["func", "import", "param", "result", "local", "i32", "i64", "call", "drop", "get_global",
   "get_local", "set_local", "i32.const", "i64.const", "i32.add", "i32.eqz", "i64.extend_u/i32",
   "i64.load", "i64.store", "i32.store"]

/-- The names under which generated code knows the machine. -/
def machineNames (ctx : Context) : List String :=
  [ctx.stackPointer, ctx.memoryBase, ctx.checkI32, ctx.checkI64, ctx.chargeMemory,
   ctx.reverseBytes, ctx.callbackLocal]

/-- The remarks between the statements of generated code. -/
def fixedRemarks : List String :=
  ["zero out mem", "zero out dropped call operand",
   "flip call status from host convention (0 = success) to EVM (1 = success)"]

/-- The sort holds what the code generator spells of its own or takes from the context. -/
structure Vocabulary (leaf : SExpr → Prop) (ctx : Context) : Prop where
  keyword : ∀ word ∈ keywords, leaf (.sym word)
  machine : ∀ name ∈ machineNames ctx, leaf (.sym name)
  offset : ∀ pair, leaf (.sym (Cursor.offsetName pair))
  length : ∀ pair, leaf (.sym (Cursor.lengthName pair))
  remark : ∀ text ∈ fixedRemarks, leaf (.comment text)
  number : ∀ value, leaf (.int value)

/-- Everything is a leaf of some sort. -/
theorem vocabulary_any (ctx : Context) : Vocabulary (fun _ => True) ctx :=
  ⟨fun _ _ => trivial, fun _ _ => trivial, fun _ => trivial, fun _ => trivial, fun _ _ => trivial,
    fun _ => trivial⟩

variable {leaf : SExpr → Prop} {ctx : Context}

theorem Vocabulary.mono {leaf' : SExpr → Prop} (v : Vocabulary leaf ctx)
    (h : ∀ t, leaf t → leaf' t) : Vocabulary leaf' ctx where
  keyword word hword := h _ (v.keyword word hword)
  machine name hname := h _ (v.machine name hname)
  offset pair := h _ (v.offset pair)
  length pair := h _ (v.length pair)
  remark text htext := h _ (v.remark text htext)
  number value := h _ (v.number value)

namespace Vocabulary

variable (v : Vocabulary leaf ctx)

include v

/-! ## Access code -/

theorem const {valtype : String} {value : Int} (h : valtype ++ ".const" ∈ keywords) :
    Renders leaf (.const valtype value) :=
  renders_const (v.keyword _ h) (v.number value)

theorem note {text : String} (h : text ∈ fixedRemarks) : Renders leaf (.note text) :=
  renders_note (v.remark _ h)

theorem slotAddr (slot byte : Int) : Renders leaf (slotAddr ctx slot byte) := by
  have pointer : Renders leaf (.getGlobal ctx.stackPointer) :=
    renders_getGlobal (v.keyword _ (by decide)) (v.machine _ (by simp [machineNames]))
  unfold Marshal.slotAddr
  dsimp only
  split
  · exact pointer
  · refine renders_instr (v.keyword _ (by decide)) fun n hn => ?_
    rcases List.mem_pair.mp hn with rfl | rfl
    · exact pointer
    · exact v.const (by decide)

theorem checked {checker : String} (h : checker ∈ machineNames ctx) (slot : Int) :
    Renders leaf (checked ctx checker slot) := by
  refine renders_call (v.keyword _ (by decide)) (v.machine _ h) fun n hn => ?_
  obtain ⟨w, -, rfl⟩ := List.mem_map.mp hn
  exact renders_load (v.keyword _ (by decide)) (v.slotAddr _ _)

theorem zeroWords (slot : Int) (words : List Int) :
    ∀ n ∈ zeroWords ctx slot words, Renders leaf n := by
  intro n hn
  obtain ⟨w, -, rfl⟩ := List.mem_map.mp hn
  exact renders_store (v.keyword _ (by decide)) (v.slotAddr _ _) (v.const (by decide))

theorem getLocal {name : String} (h : leaf (.sym name)) : Renders leaf (.getLocal name) :=
  renders_getLocal (v.keyword _ (by decide)) h

theorem setLocal {name : String} {value : Node} (h : leaf (.sym name))
    (hvalue : Renders leaf value) : Renders leaf (.setLocal name value) :=
  renders_setLocal (v.keyword _ (by decide)) h hvalue

/-! ## The operand walk -/

/-- A local bound to an offset or a length. -/
theorem bound {name : String} (h : leaf (.sym name)) (slot : Int) :
    Renders leaf (.setLocal name (Marshal.checked ctx ctx.checkI32 slot)) :=
  v.setLocal h (v.checked (by simp [machineNames]) slot)

theorem settlePair (pair : Nat) (slot : Int) :
    ∀ n ∈ settlePair ctx pair slot, Renders leaf n := by
  have offset := v.getLocal (v.offset pair)
  have length := v.getLocal (v.length pair)
  have base : Renders leaf (.getGlobal ctx.memoryBase) :=
    renders_getGlobal (v.keyword _ (by decide)) (v.machine _ (by simp [machineNames]))
  have charge : Renders leaf (.call ctx.chargeMemory
      [.getLocal (Cursor.offsetName pair), .getLocal (Cursor.lengthName pair)]) :=
    renders_call (v.keyword _ (by decide)) (v.machine _ (by simp [machineNames])) (by simp [*])
  have rebase : Renders leaf
      (.instr "i32.add" [.getGlobal ctx.memoryBase, .getLocal (Cursor.offsetName pair)]) :=
    renders_instr (v.keyword _ (by decide)) (by simp [*])
  have bound := v.bound (v.length pair) slot
  have moved := v.setLocal (v.offset pair) rebase
  simp [Marshal.settlePair, bound, charge, moved]

omit v in
theorem scalarChecker?_mem {kind : ParamKind} {checker : String}
    (h : scalarChecker? ctx kind = some checker) : checker ∈ machineNames ctx := by
  cases kind <;> simp [scalarChecker?] at h <;> subst h <;> simp [machineNames]

/-- What a walk adds to the plan has a text, every local of it a declaration. -/
theorem walk {opcode : String} {p q : Place} {kinds : List ParamKind} {e : Passed}
    (w : Walk opcode ctx p kinds e q) :
    (∀ n ∈ e.args, Renders leaf n) ∧ (∀ n ∈ e.prelude, Renders leaf n) ∧
      ∀ x ∈ e.locals, Declares leaf x := by
  have i32 : leaf (.sym "i32") := v.keyword _ (by decide)
  have step {p q : Place} {kind : ParamKind} {e : Passed} (h : Step opcode ctx p kind e q) :
      (∀ n ∈ e.args, Renders leaf n) ∧ (∀ n ∈ e.prelude, Renders leaf n) ∧
        ∀ x ∈ e.locals, Declares leaf x := by
    cases h with
    | reference h => simp [v.slotAddr]
    | outputPointer => simp [v.slotAddr]
    | scalar hw h =>
        simp [v.checked (scalarChecker?_mem h)]
    | offset hw h =>
        simp [v.bound (v.offset p.pairs), v.getLocal (v.offset p.pairs), Declares, v.offset, i32]
    | length hw h =>
        simpa [v.getLocal (v.length p.pairs), Declares, v.length, i32] using
          v.settlePair p.pairs p.slot
  induction w with
  | nil => simp
  | cons first tail ih =>
      obtain ⟨args, prelude, locals⟩ := step first
      simp only [Passed.append, List.forall_mem_append]
      exact ⟨⟨args, ih.1⟩, ⟨prelude, ih.2.1⟩, locals, ih.2.2⟩

/-! ## The result stage -/

theorem handles (slot : Int) (kind : Option ReturnKind) :
    ∀ n ∈ handles ctx slot kind, Renders leaf n := by
  unfold Marshal.handles
  split
  case h_4 => simp
  all_goals simp [v.slotAddr]

theorem remarks (inverted : Bool) (kind : Option ReturnKind) :
    ∀ n ∈ remarks inverted kind, Renders leaf n := by
  unfold Marshal.remarks
  split
  · cases inverted with
    | false => simp
    | true => exact List.forall_mem_singleton.mpr (v.note (by decide))
  · simp

theorem received {inverted : Bool} {call : Node} (slot : Int) (kind : Option ReturnKind)
    (h : Renders leaf call) : Renders leaf (received ctx inverted slot call kind) := by
  have store {value : Node} (hvalue : Renders leaf value) :
      Renders leaf (.store "i64" (Marshal.slotAddr ctx slot 0) value) :=
    renders_store (v.keyword _ (by decide)) (v.slotAddr _ _) hvalue
  have turned : Renders leaf (if inverted then .instr "i32.eqz" [call] else call) := by
    cases inverted
    · exact h
    · exact renders_instr (v.keyword _ (by decide)) (by simpa using h)
  unfold Marshal.received
  split
  · exact store (renders_instr (v.keyword _ (by decide)) (by simpa using turned))
  · exact store h
  · exact h

theorem padding (slot start : Int) : ∀ n ∈ padding ctx slot start, Renders leaf n :=
  List.forall_mem_cons.mpr ⟨v.note (by decide), v.zeroWords _ _⟩

theorem completion (slot : Int) (kind : Option ReturnKind) :
    ∀ n ∈ completion ctx slot kind, Renders leaf n := by
  have rest : Renders leaf (.store "i32" (Marshal.slotAddr ctx slot (2 * ctx.wordBytes + 4))
      (.const "i32" 0)) :=
    renders_store (v.keyword _ (by decide)) (v.slotAddr _ _) (v.const (by decide))
  have reversed : Renders leaf (.call ctx.reverseBytes [Marshal.slotAddr ctx slot 0]) :=
    renders_call (v.keyword _ (by decide)) (v.machine _ (by simp [machineNames]))
      (by simp [v.slotAddr])
  unfold Marshal.completion
  split
  · simp
  · exact v.padding _ _
  · exact v.padding _ _
  · exact v.padding _ _
  · exact List.forall_mem_append.mpr ⟨v.padding _ _, by simpa using rest⟩
  · simpa using renders_instr (v.keyword _ (by decide)) (by simpa using reversed)

theorem clearing (slots : List Int) : ∀ n ∈ clearing ctx slots, Renders leaf n := by
  intro n hn
  obtain ⟨slot, -, hn⟩ := List.mem_flatMap.mp hn
  rcases List.mem_cons.mp hn with rfl | hn
  · exact v.note (by decide)
  · exact v.zeroWords _ _ n hn

theorem hostCall {d : Descriptor} {mode : Mode} {plan : OperandPlan}
    (target : leaf (.sym ↑("$" ++ d.name))) (args : ∀ n ∈ plan.args, Renders leaf n) :
    Renders leaf (hostCall ctx d mode plan) := by
  refine renders_call (v.keyword _ (by decide)) target ?_
  have continuation : ∀ n ∈ ((if takesCallback d mode then some ctx.callbackLocal else none).map
      Node.getLocal).toList, Renders leaf n := by
    split
    · simpa using v.getLocal (v.machine _ (by simp [machineNames]))
    · simp
  exact List.forall_mem_append.mpr ⟨args, List.forall_mem_append.mpr ⟨v.handles _ _, continuation⟩⟩

theorem resultNodes (opcode : String) {d : Descriptor} {mode : Mode} {plan : OperandPlan}
    (target : leaf (.sym ↑("$" ++ d.name))) (args : ∀ n ∈ plan.args, Renders leaf n) :
    ∀ n ∈ resultNodes ctx opcode d mode plan, Renders leaf n :=
  List.forall_mem_append.mpr ⟨v.remarks _ _, List.forall_mem_cons.mpr
    ⟨v.received _ _ (v.hostCall target args),
      List.forall_mem_append.mpr ⟨v.completion _ _, v.clearing _⟩⟩⟩

/-! ## Functions and imports -/

/-- The parameters that carry a continuation. -/
theorem params (carried : Bool) :
    ∀ x ∈ (if carried then [(ctx.callbackLocal, "i32")] else []), Declares leaf x := by
  cases carried with
  | false => simp
  | true => simp [Declares, v.keyword "i32" (by decide), v.machine ctx.callbackLocal
      (by simp [machineNames])]

/-- **Every function with a plan has a text.** -/
theorem function {opcode : String} {d : Descriptor} {plan : OperandPlan} (mode : Mode)
    (name : leaf (.sym ↑("$" ++ opcode))) (target : leaf (.sym ↑("$" ++ d.name)))
    (hw : ctx.wordBytes ≠ 0) (hplan : planOperands opcode d ctx = .ok plan) :
    ∃ func, buildFunction opcode d mode ctx = .ok func ∧ Renders leaf func := by
  obtain ⟨e, q, w, rfl⟩ := planOperands_eq_ok_iff.mp hplan
  obtain ⟨args, prelude, locals⟩ := v.walk w
  exact ⟨_, buildFunction_eq hw hplan, renders_func (v.keyword _ (by decide)) name
    (v.keyword _ (by decide)) (v.params _) (v.keyword _ (by decide)) locals prelude
    (v.resultNodes opcode target args)⟩

theorem hostImport {d : Descriptor} (mode : Mode) (hmodule : leaf (.str ctx.hostModule))
    (field : leaf (.str d.name)) (target : leaf (.sym ↑("$" ++ d.name))) :
    Renders leaf (.hostImport (hostImport d mode ctx)) := by
  have i32 : leaf (.sym "i32") := v.keyword _ (by decide)
  have i64 : leaf (.sym "i64") := v.keyword _ (by decide)
  have ops : ∀ op ∈ ["import", "func", "param", "result"], leaf (.sym op) :=
    fun op hop => v.keyword op (by revert op; decide)
  refine renders_hostImport ops hmodule field target ?_ ?_
  · show ∀ p ∈ importParams d mode, leaf (.sym p)
    have passed (k : ParamKind) : leaf (.sym k.valtype) := by
      unfold ParamKind.valtype
      split
      · exact i64
      · exact i32
    intro p hp
    simp only [importParams, List.mem_append, List.mem_map] at hp
    rcases hp with (⟨k, -, rfl⟩ | ⟨k, -, rfl⟩) | hp
    · exact passed k
    · exact i32
    · obtain rfl : p = "i32" := by
        split at hp
        · simpa using hp
        · simp at hp
      exact i32
  · show ∀ r ∈ importResult d, leaf (.sym r)
    intro r hr
    unfold importResult at hr
    split at hr
    · cases hr
      exact i32
    · cases hr
      exact i64
    · cases hr

end Vocabulary

/-! ## The texts of an artifact -/

/-- The remarks above a function. -/
def headerTexts (d : Descriptor) (ctx : Context) : List Text :=
  ctx.banner :: match d.note with
    | some text => if text.isEmpty then [] else ["known defect: " ++ text]
    | none => []

theorem header_eq (d : Descriptor) (ctx : Context) :
    header d ctx = (headerTexts d ctx).map .note := by
  unfold header headerTexts
  cases d.note with
  | none => rfl
  | some text => cases h : text.isEmpty <;> simp [h]

/-- The artifact shows the trees of a function and of its import, the function below remarks. -/
structure Shows (a : Artifact) (notes : List Text) (func imported : SExpr) : Prop where
  code : ∃ text, a.code = above notes text ∧ Spells [] func.tokens text
  imports : ∃ text, a.imports = some text ∧ Spells [] imported.tokens text

theorem compileFunction_eq_ok {opcode : String} {d : Descriptor} {mode : Mode} {a : Artifact} :
    compileFunction opcode d mode ctx = .ok a ↔
      ∃ func, buildFunction opcode d mode ctx = .ok func ∧
        ∃ code, render (header d ctx ++ [func]) = .ok code ∧
          ∃ imports, render [.hostImport (hostImport d mode ctx)] = .ok imports ∧
            { code, imports := some imports } = a := by
  simp [compileFunction]

/-- **Artifacts show their trees.** -/
theorem compileFunction_shows (v : Vocabulary leaf ctx) {opcode : String} {d : Descriptor}
    {plan : OperandPlan} (name : leaf (.sym ↑("$" ++ opcode)))
    (target : leaf (.sym ↑("$" ++ d.name))) (hw : ctx.wordBytes ≠ 0)
    (hplan : planOperands opcode d ctx = .ok plan) (mode : Mode) :
    ∃ func tree artifact, buildFunction opcode d mode ctx = .ok func ∧ lower func = .ok tree ∧
      tree.Written leaf ∧ compileFunction opcode d mode ctx = .ok artifact ∧
      Shows artifact (headerTexts d ctx) tree (hostImport d mode ctx).lower := by
  obtain ⟨func, built, tree, lowered, written⟩ := v.function mode name target hw hplan
  obtain ⟨_, ⟨⟩, writtenImport⟩ :=
    (vocabulary_any ctx).hostImport (d := d) mode trivial trivial trivial
  obtain ⟨text, laid, spells⟩ := format_ok written 0
  obtain ⟨imports, laidImport, spellsImport⟩ := format_ok writtenImport 0
  have rendered := render_below_notes (headerTexts d ctx)
    (renderNode_eq_ok.mpr ⟨tree, lowered, laid⟩)
  have alone : renderNode (.hostImport (hostImport d mode ctx)) = .ok imports :=
    renderNode_eq_ok.mpr ⟨_, rfl, laidImport⟩
  have renderedImport := render_below_notes [] alone
  rw [← header_eq] at rendered
  exact ⟨func, tree, _, built, lowered, written,
    compileFunction_eq_ok.mpr ⟨func, built, _, rendered, _, renderedImport, rfl⟩,
    ⟨text, rfl, spells [] (endsBefore_nil _)⟩, _, rfl, spellsImport [] (endsBefore_nil _)⟩

end HostGlue.Marshal

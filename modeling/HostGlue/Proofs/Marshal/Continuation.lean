import HostGlue.Proofs.Marshal.Rendered

/-!
# The continuation is all that the modes differ in

Both modes run through the same walk and the same result stage, and ask for the mode in three
places: the import's parameters, the function's parameters, and the arguments of the host call. The
asynchronous function is therefore the synchronous one with a continuation in these places, and for
a function that is not asynchronous the modes agree.

The texts differ as well. The layouts need not break alike, so lines say nothing; what tells
the texts apart is that one more `i32` is on the page, and a layout neither adds nor removes
a character that is no blank.
-/

namespace HostGlue.Marshal

open Machine Wat Interface SExpr

/-! ## The host call in its place -/

/-- What the result stage puts around the host call. -/
inductive Frame where
  | bare
  | stored (addr : Node)
  | extended (addr : Node)
  | inverted (addr : Node)

/-- The call with its answer stored, widened or turned round. -/
def Frame.fill : Frame → Node → Node
  | bare, call => call
  | stored addr, call => .store "i64" addr call
  | extended addr, call => .store "i64" addr (.instr "i64.extend_u/i32" [call])
  | inverted addr, call =>
    .store "i64" addr (.instr "i64.extend_u/i32" [.instr "i32.eqz" [call]])

/-- The frame for a kind of result. -/
def frameOf (ctx : Context) (turned : Bool) (slot : Int) : Option ReturnKind → Frame
  | some .i32 => if turned then .inverted (slotAddr ctx slot 0) else .extended (slotAddr ctx slot 0)
  | some .i64 => .stored (slotAddr ctx slot 0)
  | _ => .bare

section Frame

variable {ctx : Context}

theorem received_eq_fill (turned : Bool) (slot : Int) (call : Node) (kind : Option ReturnKind) :
    received ctx turned slot call kind = (frameOf ctx turned slot kind).fill call := by
  cases kind with
  | none => rfl
  | some kind =>
      cases kind with
      | i32 => cases turned <;> rfl
      | _ => rfl

theorem fill_ne_seq (frame : Frame) (target : String) (args items : List Node) :
    frame.fill (.call target args) ≠ .seq items := by
  cases frame <;> exact nofun

variable {d : Descriptor} (plan : OperandPlan)

/-- The arguments of the host call in the synchronous mode. -/
def passedArgs (ctx : Context) (d : Descriptor) (plan : OperandPlan) : List Node :=
  plan.args ++ handles ctx plan.resultSlot d.result

theorem hostCall_of_not_taken {mode : Mode} (h : takesCallback d mode = false) :
    hostCall ctx d mode plan = .call ("$" ++ d.name) (passedArgs ctx d plan) := by
  simp [hostCall, HostCall.emit, HostCall.ofPlan, passedArgs, h]

theorem hostCall_of_taken {mode : Mode} (h : takesCallback d mode = true) :
    hostCall ctx d mode plan =
      .call ("$" ++ d.name) (passedArgs ctx d plan ++ [.getLocal ctx.callbackLocal]) := by
  simp [hostCall, HostCall.emit, HostCall.ofPlan, passedArgs, h]

/-- The function of a descriptor that has a plan, split at the host call. -/
theorem buildFunction_split {plan : OperandPlan} (opcode : String) (d : Descriptor) (mode : Mode)
    (hw : ctx.wordBytes ≠ 0) (hplan : planOperands opcode d ctx = .ok plan) :
    buildFunction opcode d mode ctx = .ok (.func ("$" ++ opcode)
      (if takesCallback d mode then [(ctx.callbackLocal, "i32")] else []) plan.locals
      ((.seq plan.prelude :: remarks (ctx.statusInverted.contains opcode) d.result) ++
        (frameOf ctx (ctx.statusInverted.contains opcode) plan.resultSlot d.result).fill
          (hostCall ctx d mode plan) ::
        (completion ctx plan.resultSlot d.result ++
          clearing ctx (plan.reconciledSlots.filter (· ≠ plan.resultSlot))))) := by
  rw [buildFunction_eq hw hplan, resultNodes, received_eq_fill]
  rfl

end Frame

/-! ## What a function asks the mode for -/

section Modes

variable {ctx : Context} {opcode : String} {d : Descriptor}

theorem takesCallback_sync : takesCallback d .sync = false := rfl

theorem takesCallback_async : takesCallback d .async = d.isAsync := by simp [takesCallback]

/-- A function that takes no continuation does not depend on the mode. -/
theorem compileFunction_of_not_isAsync (h : d.isAsync = false) :
    compileFunction opcode d .async ctx = compileFunction opcode d .sync ctx := by
  have same : takesCallback d .async = takesCallback d .sync := by
    rw [takesCallback_async, h, takesCallback_sync]
  unfold compileFunction buildFunction marshalResult HostCall.ofPlan hostImport importParams
  rw [same]

/-- The asynchronous import has one more parameter. -/
theorem hostImport_of_isAsync (ctx : Context) (h : d.isAsync = true) :
    hostImport d .async ctx = { hostImport d .sync ctx with
      params := (hostImport d .sync ctx).params ++ ["i32"] } := by
  simp [hostImport, importParams, takesCallback_sync, takesCallback_async, h]

end Modes

/-! ## One more `i32` on the page -/

/-- How often the first digit of `i32` is on the page. -/
def threes (t : SExpr) : Nat := (t.tokens.flatMap Token.spelling).count (.char '3')

@[simp] theorem threes_list (ts : List SExpr) : threes (.list ts) = (ts.map threes).sum := by
  have all : ((tokensAll ts).flatMap Token.spelling).count (.char '3') = (ts.map threes).sum := by
    induction ts with
    | nil => rfl
    | cons t ts ih => simp [threes, List.flatMap_append, List.count_append, ih]
  have marks : List.count (.char '3') (Token.spelling .opening) = 0 ∧
      List.count (.char '3') (Token.spelling .closing) = 0 := by decide
  simp [threes, tokens, List.count_append, marks, all]

/-- Texts with a different number of threes are different. -/
theorem ne_of_threes_lt {t t' : SExpr} {x y : Text} (hx : Spells [] t.tokens x)
    (hy : Spells [] t'.tokens y) (h : threes t < threes t') : x ≠ y := by
  rintro rfl
  have same : threes t = threes t' :=
    (hx.count (c := .char '3') (by decide)).symm.trans (hy.count (by decide))
  exact absurd h (same ▸ Nat.lt_irrefl _)

/-- Where both nodes have a tree, the second shows no fewer threes. -/
def Grows (n n' : Node) : Prop :=
  ∀ t t', lower n = .ok t → lower n' = .ok t' → threes t ≤ threes t'

section Grows

variable {n n' : Node}

theorem grows_call (target : String) (args more : List Node) :
    Grows (.call target args) (.call target (args ++ more)) := by
  intro t t' h h'
  obtain ⟨us, hus, rfl⟩ := lower_call_eq_ok.mp h
  obtain ⟨_, hall, rfl⟩ := lower_call_eq_ok.mp h'
  obtain ⟨us', hus', vs, -, rfl⟩ := lowerAll_append_eq_ok.mp hall
  obtain rfl : us = us' := Except.ok.inj (hus.symm.trans hus')
  simp

theorem Grows.instr (h : Grows n n') (op : String) : Grows (.instr op [n]) (.instr op [n']) := by
  intro t t' ht ht'
  obtain ⟨_, hall, rfl⟩ := lower_instr_eq_ok.mp ht
  obtain ⟨_, hall', rfl⟩ := lower_instr_eq_ok.mp ht'
  obtain ⟨v, hv, _, ⟨⟩, rfl⟩ := lowerAll_cons_eq_ok.mp hall
  obtain ⟨v', hv', _, ⟨⟩, rfl⟩ := lowerAll_cons_eq_ok.mp hall'
  simpa using h v v' hv hv'

theorem Grows.store (h : Grows n n') (valtype : String) (addr : Node) :
    Grows (.store valtype addr n) (.store valtype addr n') := by
  intro t t' ht ht'
  obtain ⟨a, ha, v, hv, rfl⟩ := lower_store_eq_ok.mp ht
  obtain ⟨a', ha', v', hv', rfl⟩ := lower_store_eq_ok.mp ht'
  obtain rfl : a = a' := Except.ok.inj (ha.symm.trans ha')
  simpa using h v v' hv hv'

/-- A frame passes on what the call shows. -/
theorem Grows.fill (h : Grows n n') (frame : Frame) : Grows (frame.fill n) (frame.fill n') := by
  cases frame with
  | bare => exact h
  | stored addr => exact h.store _ _
  | extended addr => exact (h.instr _).store _ _
  | inverted addr => exact ((h.instr _).instr _).store _ _

/-- A function shows more threes with a parameter more, if a node of its body shows no fewer. -/
theorem Grows.func (h : Grows n n') {name callback : String} {locals : List (String × String)}
    {before after : List Node} {t t' : SExpr} (hn : ∀ items, n ≠ .seq items)
    (hn' : ∀ items, n' ≠ .seq items)
    (ht : lower (.func name [] locals (before ++ n :: after)) = .ok t)
    (ht' : lower (.func name [(callback, "i32")] locals (before ++ n' :: after)) = .ok t') :
    threes t < threes t' := by
  obtain ⟨_, hbody, rfl⟩ := lower_func_eq_ok.mp ht
  obtain ⟨_, hbody', rfl⟩ := lower_func_eq_ok.mp ht'
  obtain ⟨us, hus, _, hvs, rfl⟩ := lowerBody_append_eq_ok.mp hbody
  obtain ⟨us', hus', _, hvs', rfl⟩ := lowerBody_append_eq_ok.mp hbody'
  obtain rfl : us = us' := Except.ok.inj (hus.symm.trans hus')
  obtain ⟨u, hu, vs, hafter, rfl⟩ := (lowerBody_plain_eq_ok hn).mp hvs
  obtain ⟨u', hu', vs', hafter', rfl⟩ := (lowerBody_plain_eq_ok hn').mp hvs'
  obtain rfl : vs = vs' := Except.ok.inj (hafter.symm.trans hafter')
  have type : threes (.sym ↑"i32") = 1 := by decide
  have statement := h u u' hu hu'
  simp [declaration, type]
  omega

end Grows

/-- An import shows more threes with a parameter more. -/
theorem threes_import_lt (i : Import) :
    threes i.lower < threes { i with params := i.params ++ ["i32"] }.lower := by
  have type : threes (.sym ↑"i32") = 1 := by decide
  have word : threes (.sym ↑"param") = 0 := by decide
  unfold Import.lower
  cases h : i.params with
  | nil => simp [type]
  | cons p ps => simp [type]

/-- Functions that show a different number of threes have different texts. -/
theorem Shows.code_ne {a b : Artifact} {notes : List Text} {func func' imported imported' : SExpr}
    (h : Shows a notes func imported) (h' : Shows b notes func' imported')
    (more : threes func < threes func') : a.code ≠ b.code := by
  obtain ⟨x, hx, spells⟩ := h.code
  obtain ⟨y, hy, spells'⟩ := h'.code
  intro same
  rw [same] at hx
  exact ne_of_threes_lt spells spells' more (above_inj (hx.symm.trans hy))

theorem Shows.imports_ne {a b : Artifact} {notes notes' : List Text}
    {func func' imported imported' : SExpr} (h : Shows a notes func imported)
    (h' : Shows b notes' func' imported') (more : threes imported < threes imported') :
    a.imports ≠ b.imports := by
  obtain ⟨x, hx, spells⟩ := h.imports
  obtain ⟨y, hy, spells'⟩ := h'.imports
  rw [hx, hy]
  rintro ⟨⟩
  exact ne_of_threes_lt spells spells' more rfl

/-- Neither text of an asynchronous function is the other mode's. -/
theorem texts_differ {ctx : Context} {opcode : String} {d : Descriptor} {plan : OperandPlan}
    {sync async : Artifact} (hw : ctx.wordBytes ≠ 0) (hplan : planOperands opcode d ctx = .ok plan)
    (h : d.isAsync = true) (hsync : compileFunction opcode d .sync ctx = .ok sync)
    (hasync : compileFunction opcode d .async ctx = .ok async) :
    sync.code ≠ async.code ∧ sync.imports ≠ async.imports := by
  obtain ⟨func, tree, _, built, lowered, -, compiled, shows_⟩ :=
    compileFunction_shows (vocabulary_any ctx) trivial trivial hw hplan .sync
  obtain ⟨func', tree', _, built', lowered', -, compiled', shows'⟩ :=
    compileFunction_shows (vocabulary_any ctx) trivial trivial hw hplan .async
  obtain rfl := Except.ok.inj (hsync.symm.trans compiled)
  obtain rfl := Except.ok.inj (hasync.symm.trans compiled')
  have taken : takesCallback d .async = true := takesCallback_async.trans h
  constructor
  · rw [buildFunction_split opcode d .sync hw hplan, hostCall_of_not_taken plan takesCallback_sync]
      at built
    rw [buildFunction_split opcode d .async hw hplan, hostCall_of_taken plan taken, taken] at built'
    cases built
    cases built'
    exact shows_.code_ne shows' (((grows_call _ _ _).fill _).func (fill_ne_seq _ _ _)
      (fill_ne_seq _ _ _) lowered lowered')
  · rw [hostImport_of_isAsync ctx h] at shows'
    exact shows_.imports_ne shows' (threes_import_lt _)

/-! ## The modes compared -/

/-- **The asynchronous function is the synchronous one with a continuation.** Both modes have a
function and an import. They are the same if the descriptor is not asynchronous. If it is, there is
one more parameter to the import, the function takes the continuation, and the host call passes it
on behind its arguments and the output handle; everything else is the same node for node, and
neither text is the other mode's. -/
theorem continuation_added {ctx : Context} {opcode : String} {d : Descriptor} {plan : OperandPlan}
    (hw : ctx.wordBytes ≠ 0) (hplan : planOperands opcode d ctx = .ok plan) :
    ∃ sync async, compileFunction opcode d .sync ctx = .ok sync ∧
      compileFunction opcode d .async ctx = .ok async ∧
      (d.isAsync = false → async = sync) ∧
      (d.isAsync = true →
        hostImport d .async ctx = { hostImport d .sync ctx with
          params := (hostImport d .sync ctx).params ++ ["i32"] } ∧
        (∃ frame : Frame, ∃ before after args,
          args = plan.args ++ handles ctx plan.resultSlot d.result ∧
          buildFunction opcode d .sync ctx = .ok (.func ("$" ++ opcode) [] plan.locals
            (before ++ frame.fill (.call ("$" ++ d.name) args) :: after)) ∧
          buildFunction opcode d .async ctx = .ok (.func ("$" ++ opcode)
            [(ctx.callbackLocal, "i32")] plan.locals
            (before ++ frame.fill
              (.call ("$" ++ d.name) (args ++ [.getLocal ctx.callbackLocal])) :: after))) ∧
        sync.code ≠ async.code ∧ sync.imports ≠ async.imports) := by
  have v := vocabulary_any ctx
  obtain ⟨-, -, sync, -, -, -, syncOk, -⟩ :=
    compileFunction_shows v trivial trivial hw hplan .sync
  obtain ⟨-, -, async, -, -, -, asyncOk, -⟩ :=
    compileFunction_shows v trivial trivial hw hplan .async
  refine ⟨sync, async, syncOk, asyncOk, fun h => ?_, fun h => ?_⟩
  · rw [compileFunction_of_not_isAsync h, syncOk] at asyncOk
    exact (Except.ok.inj asyncOk).symm
  · have taken : takesCallback d .async = true := takesCallback_async.trans h
    have syncFunction := buildFunction_split opcode d .sync hw hplan
    have asyncFunction := buildFunction_split opcode d .async hw hplan
    rw [hostCall_of_not_taken plan takesCallback_sync] at syncFunction
    rw [hostCall_of_taken plan taken] at asyncFunction
    rw [taken] at asyncFunction
    exact ⟨hostImport_of_isAsync ctx h, ⟨_, _, _, _, rfl, syncFunction, asyncFunction⟩,
      texts_differ hw hplan h syncOk asyncOk⟩

/-- A query that is answered with a status. -/
def codeQuery : Descriptor where
  name := "getCodeSize"
  isAsync := true
  inputs := [.address]
  outputs := [.i32]

theorem codeQuery_continued : ∃ sync async,
    compileFunction "CALLCODE" codeQuery .sync {} = .ok sync ∧
      compileFunction "CALLCODE" codeQuery .async {} = .ok async ∧
      (hostImport codeQuery .async {}).params = ["i32", "i32"] ∧
      sync.code ≠ async.code ∧ sync.imports ≠ async.imports := by
  obtain ⟨plan, hplan⟩ : ∃ plan, planOperands "CALLCODE" codeQuery {} = .ok plan := ⟨_, rfl⟩
  obtain ⟨sync, async, hsync, hasync, -, differ⟩ := continuation_added (by decide) hplan
  obtain ⟨imported, -, code, imports⟩ := differ rfl
  refine ⟨sync, async, hsync, hasync, ?_, code, imports⟩
  rw [imported]
  rfl

end HostGlue.Marshal

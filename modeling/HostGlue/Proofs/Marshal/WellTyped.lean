import HostGlue.Proofs.Marshal.Completion
import HostGlue.Proofs.Wat.Typing
import Mathlib.Data.List.Nodup

/-!
# Generated functions are well typed

The arguments that the operand walk assembles and the parameters of the import are computed apart
from each other, the one along the cursor, the other from the kinds alone. Here both are typed, and
the function is in order under the type of its own import: every statement leaves nothing, every
local is declared once, and none is read before it is set.
-/

namespace HostGlue.Marshal

open Machine Wat Interface

/-! ## The types around a function -/

/-- The type of a host function, as its import declares it. -/
def importSignature (spec : Import) : Option Signature := do
  let params ← spec.params.mapM ValType.ofName?
  match spec.result with
  | none => return ⟨params, []⟩
  | some valtype => return ⟨params, [← ValType.ofName? valtype]⟩

/-- The number of words in a slot. -/
def slotWordCount (ctx : Context) : Nat := (ctx.slotBytes.fdiv ctx.wordBytes).toNat

/-- The types of the routines by name: the import, and the routines of the machine. -/
def routineTypes (d : Descriptor) (mode : Mode) (ctx : Context) (name : String) :
    Option Signature :=
  if name = "$" ++ d.name then importSignature (hostImport d mode ctx)
  else if name = ctx.reverseBytes then some ⟨[.i32], [.i32]⟩
  else if name = ctx.checkI32 then some ⟨List.replicate (slotWordCount ctx) .i64, [.i32]⟩
  else if name = ctx.checkI64 then some ⟨List.replicate (slotWordCount ctx) .i64, [.i64]⟩
  else if name = ctx.chargeMemory then some ⟨[.i32, .i32], []⟩
  else none

/-- The types around a function with the given parameters and locals. -/
def functionTyping (d : Descriptor) (mode : Mode) (ctx : Context)
    (declared : List (String × String)) : Typing where
  globals name := if name = ctx.stackPointer ∨ name = ctx.memoryBase then some .i32 else none
  locals name := (declared.lookup name).bind ValType.ofName?
  routines := routineTypes d mode ctx

/-- The types that the operand walk relies on. -/
structure Supports (Θ : Typing) (ctx : Context) : Prop where
  pointer : Θ.globals ctx.stackPointer = some .i32
  base : Θ.globals ctx.memoryBase = some .i32
  checkI32 : Θ.routines ctx.checkI32 = some ⟨List.replicate (slotWordCount ctx) .i64, [.i32]⟩
  checkI64 : Θ.routines ctx.checkI64 = some ⟨List.replicate (slotWordCount ctx) .i64, [.i64]⟩
  charge : Θ.routines ctx.chargeMemory = some ⟨[.i32, .i32], []⟩
  reverse : Θ.routines ctx.reverseBytes = some ⟨[.i32], [.i32]⟩

theorem supports_functionTyping {d : Descriptor} {mode : Mode} {ctx : Context}
    (names : NamesApart ctx ("$" ++ d.name)) (declared : List (String × String)) :
    Supports (functionTyping d mode ctx declared) ctx := by
  simp only [NamesApart, List.nodup_cons, List.mem_cons, not_or] at names
  obtain ⟨⟨h32, h64, hcharge, hreverse, -⟩, ⟨n64, ncharge, nreverse, -⟩, ⟨mcharge, mreverse, -⟩,
    ⟨lreverse, -⟩, -⟩ := names
  refine ⟨if_pos (.inl rfl), if_pos (.inr rfl), ?_, ?_, ?_, ?_⟩
  · show routineTypes d mode ctx ctx.checkI32 = _
    rw [routineTypes, if_neg (Ne.symm h32), if_neg nreverse, if_pos rfl]
  · show routineTypes d mode ctx ctx.checkI64 = _
    rw [routineTypes, if_neg (Ne.symm h64), if_neg mreverse, if_neg (Ne.symm n64), if_pos rfl]
  · show routineTypes d mode ctx ctx.chargeMemory = _
    rw [routineTypes, if_neg (Ne.symm hcharge), if_neg lreverse, if_neg (Ne.symm ncharge),
      if_neg (Ne.symm mcharge), if_pos rfl]
  · show routineTypes d mode ctx ctx.reverseBytes = _
    rw [routineTypes, if_neg (Ne.symm hreverse), if_pos rfl]

/-! ## Types of access code -/

section Types

variable {Θ : Typing} {ctx : Context} {slot : Int}

theorem typeOf_slotAddr (h : Supports Θ ctx) (slot byte : Int) :
    typeOf Θ (slotAddr ctx slot byte) = some [.i32] := by
  unfold slotAddr
  dsimp only
  split
  · simp [typeOf, h.pointer]
  · simp [typeOf, typesOf, h.pointer, operation]

theorem typeOf_store (h : Supports Θ ctx) {valtype : String} {t : ValType} {byte : Int}
    {value : Node} (ht : ValType.ofName? valtype = some t) (hvalue : typeOf Θ value = some [t]) :
    typeOf Θ (.store valtype (slotAddr ctx slot byte) value) = some [] := by
  simp [typeOf, typeOf_slotAddr h, hvalue, ht, Signature.apply]

theorem typeOf_checked (h : Supports Θ ctx) {checker : String} {results : List ValType}
    (hchecker : Θ.routines checker = some ⟨List.replicate (slotWordCount ctx) .i64, results⟩) :
    typeOf Θ (checked ctx checker slot) = some results := by
  have loads (ws : List Int) : typesOf Θ (ws.map fun w =>
      .load "i64" (slotAddr ctx slot (w * ctx.wordBytes))) =
      some (List.replicate ws.length .i64) := by
    induction ws with
    | nil => rfl
    | cons w ws ih =>
        have first : typeOf Θ (.load "i64" (slotAddr ctx slot (w * ctx.wordBytes))) =
            some [.i64] := by
          simp [typeOf, typeOf_slotAddr h, Signature.apply]
        exact typesOf_cons first ih
  have count : (span 0 (ctx.slotBytes.fdiv ctx.wordBytes)).length = slotWordCount ctx := by
    rw [length_span, Int.sub_zero, slotWordCount]
  have words := loads (span 0 (ctx.slotBytes.fdiv ctx.wordBytes))
  rw [count] at words
  simp [checked, typeOf, words, hchecker, Signature.apply]

theorem typesOf_zeroWords (h : Supports Θ ctx) (words : List Int) :
    typesOf Θ (zeroWords ctx slot words) = some [] := by
  refine typesOf_statements fun n hn => ?_
  obtain ⟨w, -, rfl⟩ := List.mem_map.mp hn
  exact typeOf_store h rfl rfl

theorem typesOf_padding (h : Supports Θ ctx) (start : Int) :
    typesOf Θ (padding ctx slot start) = some [] :=
  typesOf_cons (n := .note _) rfl (typesOf_zeroWords h _)

theorem typesOf_clearing (h : Supports Θ ctx) (slots : List Int) :
    typesOf Θ (clearing ctx slots) = some [] := by
  refine typesOf_statements fun n hn => ?_
  obtain ⟨slot, -, hn⟩ := List.mem_flatMap.mp hn
  rcases List.mem_cons.mp hn with rfl | hn
  · rfl
  · exact typeOf_of_statements (typesOf_zeroWords h _) n hn

theorem typesOf_completion (h : Supports Θ ctx) (kind : Option ReturnKind) :
    typesOf Θ (completion ctx slot kind) = some [] := by
  unfold completion
  split
  · rfl
  · exact typesOf_padding h 1
  · exact typesOf_padding h 1
  · exact typesOf_padding h 2
  · exact typesOf_append (typesOf_padding h 3) (typesOf_singleton (typeOf_store h rfl rfl))
  · refine typesOf_singleton ?_
    simp [typeOf, typesOf, typeOf_slotAddr h, h.reverse, Signature.apply, operation]

end Types

/-! ## Types along the walk -/

def valtypeOf (kind : ParamKind) : ValType := if kind = .i64 then .i64 else .i32

theorem ofName?_valtype (kind : ParamKind) :
    ValType.ofName? kind.valtype = some (valtypeOf kind) := by
  cases kind <;> rfl

theorem typesOf_settlePair {Θ : Typing} {ctx : Context} (h : Supports Θ ctx) {pair : Nat}
    {slot : Int} (hoffset : Θ.locals (Cursor.offsetName pair) = some .i32)
    (hlength : Θ.locals (Cursor.lengthName pair) = some .i32) :
    typesOf Θ (settlePair ctx pair slot) = some [] := by
  have number : typeOf Θ (checked ctx ctx.checkI32 slot) = some [.i32] :=
    typeOf_checked h h.checkI32
  refine typesOf_statements fun n hn => ?_
  simp only [settlePair, List.mem_cons, List.not_mem_nil, or_false] at hn
  rcases hn with rfl | rfl | rfl
  · simp [typeOf, number, hlength, Signature.apply]
  · simp [typeOf, typesOf, hoffset, hlength, h.charge, Signature.apply]
  · simp [typeOf, typesOf, hoffset, h.base, Signature.apply, operation]

/-- The argument expressions have the types of the kinds, and the prelude consists of statements. -/
theorem Walk.typesOf {Θ : Typing} {opcode : String} {ctx : Context} {p q : Place}
    {kinds : List ParamKind} {e : Passed} (h : Supports Θ ctx) (w : Walk opcode ctx p kinds e q)
    (declared : ∀ x ∈ e.locals, Θ.locals x.1 = some .i32)
    (waits : p.waiting = true → Θ.locals (Cursor.offsetName p.pairs) = some .i32) :
    typesOf Θ e.args = some (kinds.map valtypeOf) ∧ typesOf Θ e.prelude = some [] := by
  induction w with
  | nil => exact ⟨rfl, rfl⟩
  | @cons p q r kind rest e e' step tail ih =>
      have declaredRest : ∀ x ∈ e'.locals, Θ.locals x.1 = some .i32 :=
        fun x hx => declared x (List.mem_append_right _ hx)
      have own : ∀ x ∈ e.locals, Θ.locals x.1 = some .i32 :=
        fun x hx => declared x (List.mem_append_left _ hx)
      rw [List.map_cons]
      cases step with
      | reference hk =>
          obtain ⟨args, prelude⟩ := ih declaredRest waits
          have value : valtypeOf kind = .i32 := by
            cases kind <;> simp [isReference] at hk <;> rfl
          rw [value]
          exact ⟨typesOf_cons (typeOf_slotAddr h _ _) args, prelude⟩
      | outputPointer =>
          obtain ⟨args, prelude⟩ := ih declaredRest waits
          exact ⟨typesOf_cons (typeOf_slotAddr h _ _) args, prelude⟩
      | @scalar _ checker hw hk =>
          obtain ⟨args, prelude⟩ := ih declaredRest waits
          have value : typeOf Θ (checked ctx checker p.slot) = some [valtypeOf kind] := by
            cases kind <;> simp [scalarChecker?] at hk <;> subst hk
            · exact typeOf_checked h h.checkI32
            · exact typeOf_checked h h.checkI64
          exact ⟨typesOf_cons value args, prelude⟩
      | offset hw hk =>
          have hoffset := own _ (List.mem_singleton_self _)
          obtain ⟨args, prelude⟩ := ih declaredRest fun _ => hoffset
          have number : typeOf Θ (checked ctx ctx.checkI32 p.slot) = some [.i32] :=
            typeOf_checked h h.checkI32
          have value : typeOf Θ (.getLocal (Cursor.offsetName p.pairs)) =
              some [valtypeOf kind] := by
            cases kind <;> simp [ParamKind.isOffset] at hk <;> simp [typeOf, hoffset, valtypeOf]
          have bind : typeOf Θ (.setLocal (Cursor.offsetName p.pairs)
              (checked ctx ctx.checkI32 p.slot)) = some [] := by
            simp [typeOf, number, hoffset, Signature.apply]
          exact ⟨typesOf_cons value args, typesOf_cons bind prelude⟩
      | length hw hk =>
          have hlength := own _ (List.mem_singleton_self _)
          obtain ⟨args, prelude⟩ := ih declaredRest fun waiting => absurd waiting Bool.false_ne_true
          have value : typeOf Θ (.getLocal (Cursor.lengthName p.pairs)) =
              some [valtypeOf .length] := by
            simp [typeOf, hlength, valtypeOf]
          exact ⟨typesOf_cons value args,
            typesOf_append (typesOf_settlePair h (waits hk) hlength) prelude⟩

/-! ## The host call against its import -/

theorem mapM_ofName? {α : Type} {f : α → String} {g : α → ValType}
    (h : ∀ a, ValType.ofName? (f a) = some (g a)) (items : List α) :
    (items.map f).mapM ValType.ofName? = some (items.map g) := by
  induction items with
  | nil => rfl
  | cons a items ih =>
      rw [List.map_cons, List.mapM_cons, h, ih]
      rfl

/-- The types of the results that the host returns. -/
def returned : Option ReturnKind → List ValType
  | some .i32 => [.i32]
  | some .i64 => [.i64]
  | _ => []

theorem importSignature_eq (d : Descriptor) (mode : Mode) (ctx : Context) :
    importSignature (hostImport d mode ctx) = some ⟨d.inputs.map valtypeOf ++
      (d.outputs.filter (¬ ·.byValue)).map (fun _ => .i32) ++
      (if takesCallback d mode then [.i32] else []), returned d.result⟩ := by
  have callback : (if takesCallback d mode then ["i32"] else []).mapM ValType.ofName? =
      some (if takesCallback d mode then [.i32] else []) := by
    cases takesCallback d mode <;> rfl
  have params : (importParams d mode).mapM ValType.ofName? = some (d.inputs.map valtypeOf ++
      (d.outputs.filter (¬ ·.byValue)).map (fun _ => .i32) ++
      (if takesCallback d mode then [.i32] else [])) := by
    rw [importParams, List.mapM_append, List.mapM_append, mapM_ofName? ofName?_valtype,
      mapM_ofName? (g := fun _ => .i32) fun _ => rfl, callback]
    rfl
  rw [importSignature, show (hostImport d mode ctx).params = importParams d mode from rfl, params]
  have spec : (hostImport d mode ctx).result = importResult d := rfl
  rw [spec]
  unfold importResult returned
  cases d.result with
  | none => rfl
  | some kind => cases kind <;> rfl

/-- The host call takes the parameters of the import, in their order. -/
theorem typeOf_hostCall {Θ : Typing} {ctx : Context} {d : Descriptor} {mode : Mode}
    {plan : OperandPlan} (h : Supports Θ ctx) (single : d.outputs.length ≤ 1)
    (hhost : Θ.routines ("$" ++ d.name) = importSignature (hostImport d mode ctx))
    (hargs : typesOf Θ plan.args = some (d.inputs.map valtypeOf))
    (hcallback : takesCallback d mode = true → Θ.locals ctx.callbackLocal = some .i32) :
    typeOf Θ (hostCall ctx d mode plan) = some (returned d.result) := by
  have location : typesOf Θ (handles ctx plan.resultSlot d.result) =
      some ((d.outputs.filter (¬ ·.byValue)).map (fun _ => .i32)) := by
    rw [Descriptor.result]
    rcases outputs : d.outputs with _ | ⟨kind, _ | ⟨other, rest⟩⟩
    · rfl
    · cases kind with
      | i32 => rfl
      | i64 => rfl
      | i128 => exact typesOf_singleton (typeOf_slotAddr h _ _)
      | address => exact typesOf_singleton (typeOf_slotAddr h _ _)
      | i256 => exact typesOf_singleton (typeOf_slotAddr h _ _)
    · rw [outputs, List.length_cons, List.length_cons] at single
      exact absurd single (by omega)
  have last : typesOf Θ
      ((if takesCallback d mode then some ctx.callbackLocal else none).map Node.getLocal).toList =
      some (if takesCallback d mode then [.i32] else []) := by
    cases hcb : takesCallback d mode with
    | false => rfl
    | true =>
        refine typesOf_singleton ?_
        rw [typeOf, hcallback hcb]
        rfl
  have all := typesOf_append hargs (typesOf_append location last)
  rw [hostCall, HostCall.emit, typeOf]
  show (typesOf Θ (plan.args ++ (handles ctx plan.resultSlot d.result ++
      ((if takesCallback d mode then some ctx.callbackLocal else none).map
        Node.getLocal).toList))).bind
      (fun ts => (Θ.routines ("$" ++ d.name)).bind fun s => s.apply ts) = _
  rw [all, hhost, importSignature_eq]
  simp [Signature.apply]

theorem typeOf_received {Θ : Typing} {ctx : Context} {inverted : Bool} {slot : Int} {call : Node}
    {kind : Option ReturnKind} (h : Supports Θ ctx) (hcall : typeOf Θ call = some (returned kind)) :
    typeOf Θ (received ctx inverted slot call kind) = some [] := by
  unfold received
  split
  · refine typeOf_store h rfl ?_
    cases inverted with
    | false => simp [typeOf, typesOf, hcall, returned, operation]
    | true => simp [typeOf, typesOf, hcall, returned, operation]
  · exact typeOf_store h rfl hcall
  · rename_i not32 not64
    rw [hcall]
    unfold returned
    split
    · exact absurd rfl not32
    · exact absurd rfl not64
    · rfl

/-! ## Locals -/

theorem Walk.declares {opcode : String} {ctx : Context} {p q : Place} {kinds : List ParamKind}
    {e : Passed} (w : Walk opcode ctx p kinds e q) (paired : Paired p.waiting kinds) :
    (e.locals.map (·.1)).Nodup ∧ ∀ x ∈ e.locals,
      (p.waiting = true → x.1 ≠ Cursor.offsetName p.pairs) ∧ ¬ Unnumbered p.pairs x.1 := by
  induction w with
  | nil => exact ⟨List.nodup_nil, by simp⟩
  | @cons p q r kind rest e e' step tail ih =>
      obtain ⟨pairedRest, idle⟩ := paired.of_step step
      obtain ⟨nodup, apart⟩ := ih pairedRest
      cases step with
      | reference hk => exact ⟨nodup, apart⟩
      | outputPointer => exact ⟨nodup, apart⟩
      | scalar hw hk => exact ⟨nodup, apart⟩
      | offset hw hk =>
          have noneWaits (waiting : p.waiting = true) : False := by
            rw [idle hk] at waiting
            cases waiting
          refine ⟨?_, fun x hx => ⟨fun waiting => (noneWaits waiting).elim, ?_⟩⟩
          · refine List.nodup_cons.mpr ⟨fun again => ?_, nodup⟩
            obtain ⟨x, hx, same⟩ := List.mem_map.mp again
            exact (apart x hx).1 rfl same
          · rcases List.mem_cons.mp hx with rfl | hx
            · exact fun free => (free p.pairs le_rfl).1 rfl
            · exact (apart x hx).2
      | length hw hk =>
          -- the names behind belong to later pairs
          have later (x) (hx : x ∈ e'.locals) : x.1 ≠ Cursor.lengthName p.pairs ∧
              x.1 ≠ Cursor.offsetName p.pairs := by
            refine ⟨fun same => (apart x hx).2 ?_, fun same => (apart x hx).2 ?_⟩
            · rw [same]
              exact unnumbered_lengthName (by show _ < p.pairs + 1; omega)
            · rw [same]
              exact unnumbered_offsetName (by show _ < p.pairs + 1; omega)
          refine ⟨?_, fun x hx => ?_⟩
          · refine List.nodup_cons.mpr ⟨fun again => ?_, nodup⟩
            obtain ⟨x, hx, same⟩ := List.mem_map.mp again
            exact (later x hx).1 same
          · rcases List.mem_cons.mp hx with rfl | hx
            · exact ⟨fun _ => Ne.symm (offsetName_ne_lengthName _ _),
                fun free => (free p.pairs le_rfl).2 rfl⟩
            · exact ⟨fun _ => (later x hx).2,
                fun free => (apart x hx).2 (free.mono (Nat.le_succ _))⟩

section Accesses

variable {ctx : Context} {slot : Int}

@[simp] theorem accesses_slotAddr (ctx : Context) (slot byte : Int) :
    accesses (slotAddr ctx slot byte) = [] := by
  unfold slotAddr
  dsimp only
  split <;> rfl

theorem accessesAll_eq_nil {ns : List Node} (h : ∀ n ∈ ns, accesses n = []) :
    accessesAll ns = [] := by
  rw [List.eq_nil_iff_forall_not_mem]
  intro a ha
  obtain ⟨n, hn, ha⟩ := mem_accessesAll.mp ha
  rw [h n hn] at ha
  cases ha

@[simp] theorem accesses_checked (checker : String) :
    accesses (checked ctx checker slot) = [] := by
  refine accessesAll_eq_nil fun n hn => ?_
  obtain ⟨w, -, rfl⟩ := List.mem_map.mp hn
  exact accesses_slotAddr ctx slot _

theorem accesses_settlePair (pair : Nat) :
    accessesAll (settlePair ctx pair slot) = [.set (Cursor.lengthName pair),
      .get (Cursor.offsetName pair), .get (Cursor.lengthName pair),
      .get (Cursor.offsetName pair), .set (Cursor.offsetName pair)] := by
  simp [settlePair, accesses]

@[simp] theorem accesses_zeroWords (words : List Int) :
    accessesAll (zeroWords ctx slot words) = [] := by
  refine accessesAll_eq_nil fun n hn => ?_
  obtain ⟨w, -, rfl⟩ := List.mem_map.mp hn
  simp [accesses]

@[simp] theorem accesses_clearing (slots : List Int) : accessesAll (clearing ctx slots) = [] := by
  refine accessesAll_eq_nil fun n hn => ?_
  obtain ⟨slot, -, hn⟩ := List.mem_flatMap.mp hn
  rcases List.mem_cons.mp hn with rfl | hn
  · rfl
  · obtain ⟨w, -, rfl⟩ := List.mem_map.mp hn
    simp [accesses]

@[simp] theorem accesses_completion (kind : Option ReturnKind) :
    accessesAll (completion ctx slot kind) = [] := by
  unfold completion padding
  split <;> simp [accesses]

@[simp] theorem accesses_received (inverted : Bool) (call : Node) (kind : Option ReturnKind) :
    accesses (received ctx inverted slot call kind) = accesses call := by
  unfold received
  split
  · cases inverted <;> simp [accesses]
  · simp [accesses]
  · rfl

/-- In the result stage only the arguments and the continuation are read. -/
theorem accesses_resultNodes (opcode : String) (d : Descriptor) (mode : Mode) (plan : OperandPlan) :
    accessesAll (resultNodes ctx opcode d mode plan) = accessesAll plan.args ++
      if takesCallback d mode then [.get ctx.callbackLocal] else [] := by
  have silent (inverted : Bool) : accessesAll (remarks inverted d.result) = [] := by
    unfold remarks
    split
    · cases inverted <;> rfl
    · rfl
  have location : accessesAll (handles ctx plan.resultSlot d.result) = [] := by
    unfold handles
    split <;> simp
  have last : accessesAll
      ((if takesCallback d mode then some ctx.callbackLocal else none).map Node.getLocal).toList =
      if takesCallback d mode then [.get ctx.callbackLocal] else [] := by
    cases takesCallback d mode <;> rfl
  have call : accesses (hostCall ctx d mode plan) = accessesAll plan.args ++
      if takesCallback d mode then [.get ctx.callbackLocal] else [] := by
    rw [hostCall, HostCall.emit, accesses, accessesAll_append, accessesAll_append, location,
      List.nil_append]
    exact congrArg (accessesAll plan.args ++ ·) last
  simp only [resultNodes, accessesAll_append, accessesAll_cons, silent, accesses_received,
    accesses_completion, accesses_clearing, List.nil_append, List.append_nil, call]

/-- The accesses of what a walk passes, with the locals set before it. -/
structure Orderly (known : List String) (e : Passed) : Prop where
  prelude : SetBeforeGet known (accessesAll e.prelude)
  sets : ∀ x ∈ e.locals, .set x.1 ∈ accessesAll e.prelude
  args : ∀ a ∈ accessesAll e.args, ∃ x ∈ e.locals, a = .get x.1
  named : ∀ a ∈ accessesAll e.prelude, a.name ∈ e.locals.map (·.1) ∨ a.name ∈ known

/-- What one input passes before the rest. -/
theorem Orderly.append {known known' : List String} {e e' : Passed} (h : Orderly known e)
    (h' : Orderly known' e')
    (inherited : ∀ name ∈ known', name ∈ known ∨ name ∈ e.locals.map (·.1)) :
    Orderly known (e.append e') where
  prelude := by
    rw [Passed.append, accessesAll_append]
    refine h.prelude.append h'.prelude fun name hname => ?_
    refine (inherited name hname).imp id fun own => ?_
    obtain ⟨x, hx, rfl⟩ := List.mem_map.mp own
    exact h.sets x hx
  sets x hx := by
    rw [Passed.append, accessesAll_append]
    rcases List.mem_append.mp hx with hx | hx
    · exact List.mem_append_left _ (h.sets x hx)
    · exact List.mem_append_right _ (h'.sets x hx)
  args a ha := by
    rw [Passed.append, accessesAll_append] at ha
    rcases List.mem_append.mp ha with ha | ha
    · obtain ⟨x, hx, rfl⟩ := h.args a ha
      exact ⟨x, List.mem_append_left _ hx, rfl⟩
    · obtain ⟨x, hx, rfl⟩ := h'.args a ha
      exact ⟨x, List.mem_append_right _ hx, rfl⟩
  named a ha := by
    rw [Passed.append, accessesAll_append] at ha
    rw [Passed.append, List.map_append, List.mem_append]
    rcases List.mem_append.mp ha with ha | ha
    · exact (h.named a ha).imp .inl id
    · rcases h'.named a ha with own | old
      · exact .inl (.inr own)
      · exact (inherited _ old).elim .inr fun own => .inl (.inl own)

theorem Step.orderly {opcode : String} {p q : Place} {kind : ParamKind} {e : Passed}
    (step : Step opcode ctx p kind e q) {known : List String}
    (waits : p.waiting = true → Cursor.offsetName p.pairs ∈ known) : Orderly known e := by
  cases step with
  | reference hk => exact ⟨.of_known (by simp), by simp, by simp, by simp⟩
  | outputPointer => exact ⟨.of_known (by simp), by simp, by simp, by simp⟩
  | scalar hw hk => exact ⟨.of_known (by simp), by simp, by simp, by simp⟩
  | offset hw hk =>
      refine ⟨.of_known (by simp [accesses]), by simp [accesses], by simp [accesses], ?_⟩
      simp [accesses, Access.name]
  | length hw hk =>
      have offset := waits hk
      refine ⟨?_, by simp [accesses_settlePair], by simp [accesses], ?_⟩
      · have first : SetBeforeGet known [.set (Cursor.lengthName p.pairs)] := .of_known (by simp)
        have others : SetBeforeGet (Cursor.lengthName p.pairs :: known)
            [.get (Cursor.offsetName p.pairs), .get (Cursor.lengthName p.pairs),
              .get (Cursor.offsetName p.pairs), .set (Cursor.offsetName p.pairs)] := by
          refine .of_known fun name hname => ?_
          simp only [List.mem_cons, Access.get.injEq, reduceCtorEq, List.not_mem_nil,
            or_false] at hname
          rcases hname with rfl | rfl | rfl
          · exact List.mem_cons_of_mem _ offset
          · exact List.mem_cons_self
          · exact List.mem_cons_of_mem _ offset
        show SetBeforeGet known (accessesAll (settlePair ctx p.pairs p.slot))
        rw [accesses_settlePair]
        refine first.append others fun name hname => ?_
        rcases List.mem_cons.mp hname with rfl | hname
        · exact .inr (List.mem_singleton_self _)
        · exact .inl hname
      · intro a ha
        replace ha : a ∈ accessesAll (settlePair ctx p.pairs p.slot) := ha
        simp only [accesses_settlePair, List.mem_cons, List.not_mem_nil, or_false] at ha
        rcases ha with rfl | rfl | rfl | rfl | rfl
        · exact .inl (by simp [Access.name])
        · exact .inr offset
        · exact .inl (by simp [Access.name])
        · exact .inr offset
        · exact .inr offset

/-- No walk reads a local before it is set. -/
theorem Walk.orderly {opcode : String} {p q : Place} {kinds : List ParamKind} {e : Passed}
    (w : Walk opcode ctx p kinds e q) {known : List String}
    (waits : p.waiting = true → Cursor.offsetName p.pairs ∈ known) : Orderly known e := by
  induction w generalizing known with
  | nil => exact ⟨.of_known (by simp), by simp, by simp, by simp⟩
  | @cons p q r kind rest e e' step tail ih =>
      have here := step.orderly waits
      cases step with
      | reference hk => exact here.append (ih waits) fun name h => .inl h
      | outputPointer => exact here.append (ih waits) fun name h => .inl h
      | scalar hw hk => exact here.append (ih waits) fun name h => .inl h
      | offset hw hk =>
          have later : Orderly (Cursor.offsetName p.pairs :: known) e' :=
            ih fun _ => List.mem_cons_self
          refine here.append later fun name h => ?_
          rcases List.mem_cons.mp h with rfl | h
          · exact .inr (by simp)
          · exact .inl h
      | length hw hk =>
          have later : Orderly known e' := ih fun waiting => absurd waiting Bool.false_ne_true
          exact here.append later fun name h => .inl h

end Accesses

/-! ## Functions -/

theorem typesOf_remarks {Θ : Typing} (inverted : Bool) (kind : Option ReturnKind) :
    typesOf Θ (remarks inverted kind) = some [] := by
  unfold remarks
  split
  · cases inverted <;> rfl
  · rfl

section Body

variable {opcode : String} {d : Descriptor} {mode : Mode} {ctx : Context} {e : Passed} {q : Place}

/-- The statements of a function. -/
theorem Walk.body_typed {Θ : Typing} (h : Supports Θ ctx) (single : d.outputs.length ≤ 1)
    (hhost : Θ.routines ("$" ++ d.name) = importSignature (hostImport d mode ctx))
    (w : Walk opcode ctx {} d.inputs e q) (declared : ∀ x ∈ e.locals, Θ.locals x.1 = some .i32)
    (hcallback : takesCallback d mode = true → Θ.locals ctx.callbackLocal = some .i32) :
    Wat.typesOf Θ (.seq e.prelude :: resultNodes ctx opcode d mode (e.plan q)) = some [] := by
  obtain ⟨args, prelude⟩ := w.typesOf h declared fun waiting => absurd waiting Bool.false_ne_true
  have call : typeOf Θ (hostCall ctx d mode (e.plan q)) = some (returned d.result) :=
    typeOf_hostCall h single hhost args hcallback
  have stage : Wat.typesOf Θ (resultNodes ctx opcode d mode (e.plan q)) = some [] :=
    typesOf_append (typesOf_remarks _ _) (typesOf_cons (typeOf_received h call)
      (typesOf_append (typesOf_completion h _) (typesOf_clearing h _)))
  exact typesOf_cons (n := .seq e.prelude) prelude stage

theorem accesses_body : accessesAll (.seq e.prelude :: resultNodes ctx opcode d mode (e.plan q)) =
    accessesAll e.prelude ++ (accessesAll e.args ++
      if takesCallback d mode then [.get ctx.callbackLocal] else []) := by
  rw [accessesAll_cons, accesses_resultNodes]
  rfl

/-- Behind an orderly prelude the arguments and the continuation may be read. -/
theorem Orderly.body (opcode : String) (q : Place) {params : List String} (h : Orderly [] e)
    (hcallback : takesCallback d mode = true → ctx.callbackLocal ∈ params) :
    SetBeforeGet params
        (accessesAll (.seq e.prelude :: resultNodes ctx opcode d mode (e.plan q))) ∧
      ∀ a ∈ accessesAll (.seq e.prelude :: resultNodes ctx opcode d mode (e.plan q)),
        a.name ∈ params ∨ a.name ∈ e.locals.map (·.1) := by
  have continuation : ∀ a ∈ (if takesCallback d mode then [Access.get ctx.callbackLocal] else []),
      a = .get ctx.callbackLocal ∧ ctx.callbackLocal ∈ params := by
    intro a ha
    cases hcb : takesCallback d mode with
    | false => simp [hcb] at ha
    | true =>
        rw [if_pos hcb] at ha
        exact ⟨List.mem_singleton.mp ha, hcallback hcb⟩
  have early : SetBeforeGet params (accessesAll e.prelude) := by
    intro before name behind split
    rcases h.prelude before name behind split with known | set
    · cases known
    · exact .inr set
  have late : SetBeforeGet (params ++ e.locals.map (·.1)) (accessesAll e.args ++
      if takesCallback d mode then [.get ctx.callbackLocal] else []) := by
    refine .of_known fun name hname => ?_
    rcases List.mem_append.mp hname with hname | hname
    · obtain ⟨x, hx, same⟩ := h.args _ hname
      obtain rfl := Access.get.inj same
      exact List.mem_append_right _ (List.mem_map_of_mem hx)
    · obtain ⟨same, param⟩ := continuation _ hname
      obtain rfl := Access.get.inj same
      exact List.mem_append_left _ param
  rw [accesses_body]
  constructor
  · refine early.append late fun name hname => ?_
    rcases List.mem_append.mp hname with param | own
    · exact .inl param
    · obtain ⟨x, hx, rfl⟩ := List.mem_map.mp own
      exact .inr (h.sets x hx)
  · intro a ha
    rw [List.mem_append, List.mem_append] at ha
    rcases ha with ha | ha | ha
    · rcases h.named a ha with own | known
      · exact .inr own
      · cases known
    · obtain ⟨x, hx, rfl⟩ := h.args a ha
      exact .inr (List.mem_map_of_mem hx)
    · obtain ⟨rfl, param⟩ := continuation a ha
      exact .inl param

end Body

/-- **Generated functions are well typed.** A descriptor with at most one result whose inputs keep
the pairing rule has a function, in either variant, and the function is in order under the import
that is generated with it. -/
theorem function_wellTyped (opcode : String) (d : Descriptor) (mode : Mode) (ctx : Context)
    (single : d.outputs.length ≤ 1) (paired : checkPairing d.inputs = .ok ())
    (hw : ctx.wordBytes ≠ 0) (names : NamesApart ctx ("$" ++ d.name))
    (free : Unnumbered 0 ctx.callbackLocal) :
    ∃ params locals body,
      buildFunction opcode d mode ctx = .ok (.func ("$" ++ opcode) params locals body) ∧
      FunctionTyped (functionTyping d mode ctx (params ++ locals)) params locals body := by
  obtain ⟨e, q, w⟩ : ∃ e q, Walk opcode ctx {} d.inputs e q :=
    exists_walk hw (paired_of_checkPairing paired)
  have hplan : planOperands opcode d ctx = .ok (e.plan q) :=
    planOperands_eq_ok_iff.mpr ⟨e, q, w, rfl⟩
  refine ⟨_, e.locals, .seq e.prelude :: _, buildFunction_eq hw hplan, ?_⟩
  generalize hparams : (if takesCallback d mode then [(ctx.callbackLocal, "i32")] else []) = params
  have paramNames : ∀ x ∈ params, x = (ctx.callbackLocal, "i32") := by
    intro x hx
    rw [← hparams] at hx
    cases h : takesCallback d mode with
    | false => simp [h] at hx
    | true => simpa [h] using hx
  have callbackParam (h : takesCallback d mode = true) : (ctx.callbackLocal, "i32") ∈ params := by
    rw [← hparams, if_pos h]
    exact List.mem_singleton_self _
  have localType : ∀ x ∈ params ++ e.locals,
      (functionTyping d mode ctx (params ++ e.locals)).locals x.1 = some .i32 := by
    have typed : ∀ x ∈ params ++ e.locals, x.2 = "i32" := by
      intro x hx
      rcases List.mem_append.mp hx with hx | hx
      · rw [paramNames x hx]
      · exact w.locals_i32 x hx
    intro x hx
    show ((params ++ e.locals).lookup x.1).bind ValType.ofName? = _
    rw [lookup_i32 typed hx]
    rfl
  -- the parameter is not one of the locals, so no name is declared twice
  have once : ((params ++ e.locals).map (·.1)).Nodup := by
    obtain ⟨nodup, numbered⟩ := w.declares (paired_of_checkPairing paired)
    rw [List.map_append, List.nodup_append]
    refine ⟨?_, nodup, ?_⟩
    · rw [← hparams]
      cases takesCallback d mode <;> simp
    · intro name hname other hother same
      obtain ⟨x, hx, rfl⟩ := List.mem_map.mp hname
      obtain ⟨y, hy, rfl⟩ := List.mem_map.mp hother
      rw [paramNames x hx] at same
      exact (numbered y hy).2 (same ▸ free)
  have body := w.body_typed (supports_functionTyping names (params ++ e.locals)) single
    (if_pos rfl) (fun x hx => localType x (List.mem_append_right _ hx))
    fun h => localType _ (List.mem_append_left _ (callbackParam h))
  have orderly : Orderly [] e := w.orderly fun waiting => absurd waiting Bool.false_ne_true
  have callbackName (h : takesCallback d mode = true) : ctx.callbackLocal ∈ params.map (·.1) :=
    List.mem_map.mpr ⟨_, callbackParam h, rfl⟩
  obtain ⟨initialised, named⟩ := orderly.body opcode q callbackName
  refine ⟨typeOf_of_statements (typesOf_flatten body), fun a ha => ?_, fun x hx => ?_, initialised⟩
  · rw [List.count_eq_one_of_mem once]
    rw [List.map_append, List.mem_append]
    exact named a ha
  · rw [accesses_body]
    exact List.mem_append_left _ (orderly.sets x hx)

/-- A creation from a value and code in memory, which answers with an address. -/
def creation : Descriptor where
  name := "create"
  isAsync := true
  inputs := [.i128, .readOffset, .length]
  outputs := [.address]

theorem creation_wellTyped : ∃ params locals body,
    buildFunction "CREATE" creation .async {} = .ok (.func "$CREATE" params locals body) ∧
      FunctionTyped (functionTyping creation .async {} (params ++ locals)) params locals body :=
  function_wellTyped "CREATE" creation .async {} (by decide) (by decide) (by decide) (by decide)
    unnumbered_callback

end HostGlue.Marshal

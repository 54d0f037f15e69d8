import HostGlue.Proofs.Marshal.Order

/-!
# Accounting for memory offsets

A memory offset is bound to a local by the checker. The length that comes for it charges for the
memory and rebases the offset; no other code does. `history` lists what happens to a local in the
order in which it happens, so an offset is accounted for if its history is to be bound, charged
and rebased, once each.

The walk is followed from the step that binds the offset: in front of it the offset's local is not
touched, and behind it by the first length only. The pairing rule lets the last offset go without a
length, and that one is never accounted for.
-/

namespace HostGlue.Marshal

open Machine Wat Interface

/-! ## What happens to a local -/

inductive OffsetEvent where
  /-- It was given what the checker let through. -/
  | bound
  /-- It was handed to the charging routine. -/
  | charged
  /-- The memory base was added to it. -/
  | rebased
  /-- It was given any other value. -/
  | overwritten
  deriving Repr, DecidableEq

def isRead (name : String) : Node → Bool
  | .getLocal other => other = name
  | _ => false

def assignment (ctx : Context) (name : String) : Node → OffsetEvent
  | .call checker _ => if checker = ctx.checkI32 then .bound else .overwritten
  | .instr op [.getGlobal base, .getLocal source] =>
    if op = "i32.add" ∧ base = ctx.memoryBase ∧ source = name then .rebased else .overwritten
  | _ => .overwritten

/-- What the instruction does to the local, beside passing its value on. -/
def offsetEvent (ctx : Context) (name : String) : Node → Option OffsetEvent
  | .setLocal target value => if target = name then some (assignment ctx name value) else none
  | .call target args =>
    if target = ctx.chargeMemory ∧ args.any (isRead name) then some .charged else none
  | _ => none

/-- What instructions do to the local, one after the other. -/
def eventsOf (ctx : Context) (name : String) (instructions : List Node) : List OffsetEvent :=
  instructions.filterMap (offsetEvent ctx name)

/-- What the nodes do to the local, in the order in which they do it. -/
def history (ctx : Context) (name : String) (nodes : List Node) : List OffsetEvent :=
  eventsOf ctx name (effectsAll nodes)

/-- The local is bound, then charged for, then rebased, and nothing else happens to it. -/
def Accounted (ctx : Context) (name : String) (instructions : List Node) : Prop :=
  eventsOf ctx name instructions = [.bound, .charged, .rebased]

section History

variable {ctx : Context} {name : String} {ns ks : List Node}

@[simp] theorem eventsOf_append :
    eventsOf ctx name (ns ++ ks) = eventsOf ctx name ns ++ eventsOf ctx name ks :=
  List.filterMap_append

theorem eventsOf_eq_nil (h : ∀ x ∈ ns, offsetEvent ctx name x = none) : eventsOf ctx name ns = [] :=
  List.filterMap_eq_nil_iff.mpr h

@[simp] theorem history_nil : history ctx name [] = [] := rfl

@[simp] theorem history_append :
    history ctx name (ns ++ ks) = history ctx name ns ++ history ctx name ks := by
  simp [history]

theorem history_eq_nil (h : ∀ n ∈ ns, ∀ x ∈ effects n, offsetEvent ctx name x = none) :
    history ctx name ns = [] := by
  refine eventsOf_eq_nil fun x hx => ?_
  obtain ⟨n, hn, hx⟩ := mem_effectsAll.mp hx
  exact h n hn x hx

theorem event_of_slotAddr {slot byte : Int} {x : Node} (h : x ∈ effects (slotAddr ctx slot byte)) :
    offsetEvent ctx name x = none := by
  rcases mem_effects_slotAddr h with rfl | ⟨n, rfl⟩ | ⟨n, rfl⟩ <;> rfl

/-- A checked slot reads no local. -/
theorem event_of_checked {checker : String} {slot : Int} {x : Node}
    (h : x ∈ effects (checked ctx checker slot)) : offsetEvent ctx name x = none := by
  rcases mem_effects_checked h with rfl | ⟨addr, rfl⟩ | ⟨byte, address⟩
  · have unread : (((span 0 (ctx.slotBytes.fdiv ctx.wordBytes)).map fun w =>
        Node.load "i64" (slotAddr ctx slot (w * ctx.wordBytes))).any (isRead name)) = false := by
      rw [List.any_map, List.any_eq_false]
      exact fun w _ => Bool.false_ne_true
    rw [checked, offsetEvent, if_neg]
    rw [unread]
    exact fun both => Bool.false_ne_true both.2
  · rfl
  · exact event_of_slotAddr address

theorem history_bind (local_ : String) (slot : Int) :
    history ctx name [.setLocal local_ (checked ctx ctx.checkI32 slot)] =
      if local_ = name then [.bound] else [] := by
  have inner : eventsOf ctx name (effects (checked ctx ctx.checkI32 slot)) = [] :=
    eventsOf_eq_nil fun x hx => event_of_checked hx
  have bound : assignment ctx name (checked ctx ctx.checkI32 slot) = .bound := if_pos rfl
  rw [history, effectsAll_cons, effects, eventsOf_append, eventsOf_append, inner]
  by_cases same : local_ = name
  · simp [eventsOf, offsetEvent, same, bound]
  · simp [eventsOf, offsetEvent, same]

/-- The code behind a length charges for the offset of its pair and rebases it. -/
theorem history_settlePair (n pair : Nat) (slot : Int) :
    history ctx (Cursor.offsetName n) (settlePair ctx pair slot) =
      if pair = n then [.charged, .rebased] else [] := by
  have length : history ctx (Cursor.offsetName n)
      [.setLocal (Cursor.lengthName pair) (checked ctx ctx.checkI32 slot)] = [] := by
    rw [history_bind, if_neg (Ne.symm (offsetName_ne_lengthName n pair))]
  have split : settlePair ctx pair slot =
      [.setLocal (Cursor.lengthName pair) (checked ctx ctx.checkI32 slot)] ++
        [.call ctx.chargeMemory
          [.getLocal (Cursor.offsetName pair), .getLocal (Cursor.lengthName pair)],
        .setLocal (Cursor.offsetName pair)
          (.instr "i32.add" [.getGlobal ctx.memoryBase, .getLocal (Cursor.offsetName pair)])] := rfl
  have other : Cursor.lengthName pair ≠ Cursor.offsetName n :=
    Ne.symm (offsetName_ne_lengthName n pair)
  rw [split, history_append, length, List.nil_append]
  by_cases same : pair = n
  · subst same
    simp [history, eventsOf, effects, List.filterMap_cons, offsetEvent, isRead, assignment]
  · have apart : Cursor.offsetName pair ≠ Cursor.offsetName n := fun h => same (offsetName_inj h)
    simp [history, eventsOf, effects, offsetEvent, isRead, apart, other, same]

end History

/-! ## Along the walk -/

section Walk

variable {opcode : String} {ctx : Context} {p q r : Place} {kind : ParamKind}
  {kinds before after : List ParamKind} {e : Passed}

/-- What one input does to the local of an offset: an offset binds its own, and a length settles
that of its pair. -/
theorem Step.history_eq (step : Step opcode ctx p kind e q) (n : Nat) :
    history ctx (Cursor.offsetName n) e.prelude =
      if p.pairs = n then
        if kind.isOffset then [.bound] else if kind = .length then [.charged, .rebased] else []
      else [] := by
  have own : Cursor.offsetName p.pairs = Cursor.offsetName n ↔ p.pairs = n :=
    ⟨offsetName_inj, congrArg Cursor.offsetName⟩
  cases step with
  | reference h => cases kind <;> simp_all [isReference, ParamKind.isOffset]
  | outputPointer => simp [ParamKind.isOffset]
  | scalar hw h => cases kind <;> simp_all [scalarChecker?, ParamKind.isOffset]
  | offset hw h =>
      show history ctx _ [_] = _
      rw [history_bind]
      simp [own, h]
  | length hw h =>
      show history ctx _ (settlePair ctx p.pairs p.slot) = _
      rw [history_settlePair]
      simp [ParamKind.isOffset]

/-- An input does nothing to a local as it is passed on. -/
theorem Step.history_args (step : Step opcode ctx p kind e q) (name : String) :
    history ctx name e.args = [] := by
  refine history_eq_nil fun n hn x hx => ?_
  cases step with
  | reference h =>
      obtain rfl := List.mem_singleton.mp hn
      exact event_of_slotAddr hx
  | outputPointer =>
      obtain rfl := List.mem_singleton.mp hn
      exact event_of_slotAddr hx
  | scalar hw h =>
      obtain rfl := List.mem_singleton.mp hn
      exact event_of_checked hx
  | offset hw h =>
      obtain rfl := List.mem_singleton.mp hn
      obtain rfl := List.mem_singleton.mp hx
      rfl
  | length hw h =>
      obtain rfl := List.mem_singleton.mp hn
      obtain rfl := List.mem_singleton.mp hx
      rfl

theorem Step.args_offset (step : Step opcode ctx p kind e q) (offset : kind.isOffset = true) :
    e.args = [.getLocal (Cursor.offsetName p.pairs)] := by
  cases step with
  | reference h => cases kind <;> simp_all [isReference, ParamKind.isOffset]
  | outputPointer => cases offset
  | scalar hw h => cases kind <;> simp_all [scalarChecker?, ParamKind.isOffset]
  | offset hw h => rfl
  | length hw h => cases offset

theorem Step.place_eq (step : Step opcode ctx p kind e q) :
    q.pairs = p.pairs + [kind].count .length ∧ q.waiting = waitsBehind p.waiting [kind] := by
  cases step with
  | reference h => cases kind <;> simp_all [isReference, waitsBehind, isOffsetOrLength,
      ParamKind.isOffset]
  | outputPointer => simp [waitsBehind, isOffsetOrLength, ParamKind.isOffset]
  | scalar hw h => cases kind <;> simp_all [scalarChecker?, waitsBehind, isOffsetOrLength,
      ParamKind.isOffset]
  | offset hw h => cases kind <;> simp_all [ParamKind.isOffset, waitsBehind, isOffsetOrLength]
  | length hw h => simp [waitsBehind_length]

/-- Where the walk stands behind some inputs. -/
theorem Walk.place_eq (w : Walk opcode ctx p kinds e q) :
    q.pairs = p.pairs + kinds.count .length ∧ q.waiting = waitsBehind p.waiting kinds := by
  induction w with
  | nil => simp
  | @cons p q r kind rest e e' step tail ih =>
      obtain ⟨pairs, waiting⟩ := step.place_eq
      obtain ⟨pairs', waiting'⟩ := ih
      constructor
      · rw [pairs', pairs, Nat.add_assoc, ← List.count_append, List.singleton_append]
      · rw [waiting', waiting, ← waitsBehind_cons]

theorem Walk.history_args (w : Walk opcode ctx p kinds e q) (name : String) :
    history ctx name e.args = [] := by
  induction w with
  | nil => rfl
  | cons step tail ih =>
      rw [Passed.append, history_append, step.history_args, ih]
      rfl

/-- A walk over inputs and more is a walk over the inputs and one over the others. -/
theorem Walk.of_append (w : Walk opcode ctx p (before ++ after) e r) :
    ∃ q e₁ e₂, Walk opcode ctx p before e₁ q ∧ Walk opcode ctx q after e₂ r ∧
      e = e₁.append e₂ := by
  induction before generalizing p e with
  | nil => exact ⟨p, {}, e, .nil, w, rfl⟩
  | cons kind rest ih =>
      cases w with
      | cons step tail =>
          obtain ⟨q, e₁, e₂, w₁, w₂, rfl⟩ := ih tail
          exact ⟨q, _, e₂, .cons step w₁, w₂, by simp [Passed.append]⟩

/-- Nothing happens to the local of an offset before the walk comes to its pair, unless an offset
of that pair waits already. -/
theorem Walk.history_before (w : Walk opcode ctx p kinds e q) {n : Nat} (hn : q.pairs ≤ n)
    (idle : q.pairs = n → q.waiting = false) :
    history ctx (Cursor.offsetName n) e.prelude = [] := by
  induction w with
  | nil => rfl
  | @cons p q r kind rest e e' step tail ih =>
      obtain ⟨pairs, waiting⟩ := step.place_eq
      obtain ⟨pairs', waiting'⟩ := tail.place_eq
      have apart : p.pairs = n → kind.isOffset = false ∧ kind ≠ .length := by
        intro same
        -- no pair is completed from here on, so an offset that came would still wait
        have no : [kind].count .length = 0 ∧ rest.count .length = 0 := by omega
        refine ⟨Bool.eq_false_iff.mpr fun offset => ?_, fun length => ?_⟩
        · rw [waitsBehind_offset offset] at waiting
          rw [waiting, waitsBehind_of_length_not_mem (List.count_eq_zero.mp no.2),
            idle (by omega)] at waiting'
          cases waiting'
        · subst length
          simp at no
      rw [Passed.append, history_append, step.history_eq, ih hn idle, List.append_nil]
      by_cases same : p.pairs = n
      · simp [same, apart same]
      · exact if_neg same

/-- Nothing happens to the local of an offset when its pair is completed. -/
theorem Walk.history_behind (w : Walk opcode ctx p kinds e q) {n : Nat} (hn : n < p.pairs) :
    history ctx (Cursor.offsetName n) e.prelude = [] := by
  induction w with
  | nil => rfl
  | @cons p q r kind rest e e' step tail ih =>
      have pairs := step.place_eq.1
      rw [Passed.append, history_append, step.history_eq, if_neg (by omega),
        ih (by omega)]
      rfl

/-- A waiting offset is charged for and rebased by the first length, if one comes. -/
theorem Walk.history_waiting (w : Walk opcode ctx p kinds e q)
    (paired : KeepsPairing p.waiting kinds) (waits : p.waiting = true) :
    history ctx (Cursor.offsetName p.pairs) e.prelude =
      if .length ∈ kinds then [.charged, .rebased] else [] := by
  induction w with
  | nil => simp
  | @cons p q r kind rest e e' step tail ih =>
      obtain ⟨pairs, waiting⟩ := step.place_eq
      obtain ⟨first, others⟩ := keepsPairing_cons.mp paired
      have other : kind.isOffset = false := by
        refine Bool.eq_false_iff.mpr fun offset => ?_
        rw [first.2 offset] at waits
        cases waits
      rw [Passed.append, history_append, step.history_eq, if_pos rfl, other]
      by_cases length : kind = .length
      · subst length
        rw [tail.history_behind (by simpa using pairs ▸ Nat.lt_succ_self p.pairs)]
        simp
      · have same : q.pairs = p.pairs := by
          rw [pairs, List.count_eq_zero.mpr (by simpa using Ne.symm length)]
          rfl
        have still : q.waiting = true := by
          rw [waiting, waitsBehind_other (by simp [isOffsetOrLength, other, length]), waits]
        rw [← same, ih (waiting ▸ others) still]
        simp [length, Ne.symm length]

/-- What happens to the local of an offset, from the start of the walk to its end. -/
theorem Walk.history_offset (w : Walk opcode ctx p (before ++ kind :: after) e r)
    (paired : KeepsPairing p.waiting (before ++ kind :: after)) (offset : kind.isOffset = true) :
    let name := Cursor.offsetName (p.pairs + before.count .length)
    e.args[before.length]? = some (.getLocal name) ∧
      history ctx name (e.prelude ++ e.args) =
        .bound :: if .length ∈ after then [.charged, .rebased] else [] := by
  intro name
  have silent := w.history_args name
  have idle : waitsBehind p.waiting before = false := (paired before kind after rfl).2 offset
  obtain ⟨q, e₁, e', w₁, w', rfl⟩ := w.of_append
  obtain ⟨pairs, waiting⟩ := w₁.place_eq
  have args := w₁.length_args
  rw [← waiting] at idle
  cases w' with
  | @cons _ q' _ _ _ e₂ e₃ step tail =>
      have here := step.history_eq q.pairs
      obtain ⟨pairs', waiting'⟩ := step.place_eq
      have same : q'.pairs = q.pairs := by
        rw [pairs', List.count_eq_zero.mpr]
        · rfl
        · rw [List.mem_singleton]
          rintro rfl
          cases offset
      rw [waitsBehind_offset offset] at waiting'
      have pairedRest : KeepsPairing q'.waiting after := by
        rw [waiting', ← waitsBehind_offset offset (waitsBehind p.waiting before)]
        exact (keepsPairing_cons.mp paired.of_append).2
      have behind := tail.history_waiting pairedRest waiting'
      have front := w₁.history_before (Nat.le_refl q.pairs) fun _ => idle
      rw [if_pos rfl, if_pos offset] at here
      rw [same] at behind
      rw [pairs] at here behind front
      refine ⟨?_, ?_⟩
      · rw [Passed.append, Passed.append, step.args_offset offset,
          List.getElem?_append_right (Nat.le_of_eq args), args, Nat.sub_self, pairs]
        rfl
      · rw [history_append, silent, List.append_nil]
        simp only [Passed.append, history_append]
        rw [front, here, behind]
        rfl

end Walk

/-! ## Up to the host call -/

section HostCall

variable {ctx : Context}

theorem history_hostArgs (d : Descriptor) (mode : Mode) (plan : OperandPlan) (name : String) :
    history ctx name (hostArgs ctx d mode plan) = history ctx name plan.args := by
  have location : history ctx name (handles ctx plan.resultSlot d.result) = [] :=
    eventsOf_eq_nil fun x hx => event_of_slotAddr (mem_effects_handles hx)
  have callback (local_ : Option String) : history ctx name (local_.map .getLocal).toList = [] := by
    cases local_ <;> rfl
  rw [hostArgs, history_append, history_append, location, callback, List.append_nil,
    List.append_nil]

/-- Up to the host call nothing is done to a local but by the prelude and the arguments. -/
theorem events_up_to_call (opcode : String) (d : Descriptor) (mode : Mode) (plan : OperandPlan) :
    ∃ front behind,
      effectsAll (.seq plan.prelude :: resultNodes ctx opcode d mode plan) =
        front ++ .call ("$" ++ d.name) (hostArgs ctx d mode plan) :: behind ∧
      ∀ name, eventsOf ctx name front = history ctx name (plan.prelude ++ plan.args) := by
  obtain ⟨lead, behind, split, idle⟩ := effects_around_call ctx opcode d mode plan
  refine ⟨_, behind, split, fun name => ?_⟩
  have silent : eventsOf ctx name lead = [] := by
    refine eventsOf_eq_nil fun x hx => ?_
    rcases idle x hx with ⟨text, rfl⟩ | address
    · rfl
    · exact event_of_slotAddr address
  rw [eventsOf_append, eventsOf_append, silent, List.nil_append, ← history, ← history,
    history_hostArgs, history_append]

end HostCall

/-! ## The law -/

/-- **Every memory offset is bound before the host call, and then charged for and rebased if a
length comes for it.** So all of them are accounted for unless the last one waits at the end of the
inputs. -/
theorem offsets_accounted_iff {ctx : Context} {source key : String} {raw : Json.Value}
    {d : Descriptor} (h : Descriptor.ofJson source key raw = .ok d) (hw : ctx.wordBytes ≠ 0)
    (opcode : String) (mode : Mode) :
    ∃ plan params nodes front extra behind,
      planOperands opcode d ctx = .ok plan ∧
      buildFunction opcode d mode ctx =
        .ok (.func ("$" ++ opcode) params plan.locals (.seq plan.prelude :: nodes)) ∧
      effectsAll (.seq plan.prelude :: nodes) =
        front ++ .call ("$" ++ d.name) (plan.args ++ extra) :: behind ∧
      (∀ before kind after, d.inputs = before ++ kind :: after → kind.isOffset = true →
        let name := Cursor.offsetName (before.count .length)
        plan.args[before.length]? = some (.getLocal name) ∧
        eventsOf ctx name front =
          .bound :: if .length ∈ after then [.charged, .rebased] else []) ∧
      ((∀ before kind after, d.inputs = before ++ kind :: after → kind.isOffset = true →
          Accounted ctx (Cursor.offsetName (before.count .length)) front) ↔
        waitsBehind false d.inputs = false) := by
  obtain ⟨paired, e, q, w, planned⟩ := exists_plan h hw opcode
  obtain ⟨front, behind, split, same⟩ := events_up_to_call opcode d mode (e.plan q)
  have each : ∀ before kind after, d.inputs = before ++ kind :: after → kind.isOffset = true →
      let name := Cursor.offsetName (before.count .length)
      e.args[before.length]? = some (.getLocal name) ∧
      eventsOf ctx name front = .bound :: if .length ∈ after then [.charged, .rebased] else [] := by
    intro before kind after inputs offset name
    rw [inputs] at w paired
    obtain ⟨passed, events⟩ := w.history_offset paired offset
    rw [Nat.zero_add] at passed events
    exact ⟨passed, (same name).trans events⟩
  refine ⟨e.plan q, _, _, front, _, behind, planned, buildFunction_eq hw planned, split, each, ?_⟩
  rw [waitsBehind_eq_false_iff]
  refine forall₃_congr fun before kind after => forall₂_congr fun inputs offset => ?_
  rw [Accounted, (each before kind after inputs offset).2]
  by_cases comes : .length ∈ after <;> simp [comes]

/-- An offset with its length. -/
def sendRange : Descriptor := { name := "send", inputs := [.readOffset, .length] }

theorem sendRange_accounted :
    Descriptor.ofJson "m" "SEND" (.obj [("name", .str "send"),
        ("input", .arr [.str "readOffset", .str "length"]), ("output", .arr [])]) = .ok sendRange ∧
      ({} : Context).wordBytes ≠ 0 ∧
      ∃ plan params nodes front extra behind,
        planOperands "SEND" sendRange {} = .ok plan ∧
        buildFunction "SEND" sendRange .sync {} =
          .ok (.func "$SEND" params plan.locals (.seq plan.prelude :: nodes)) ∧
        effectsAll (.seq plan.prelude :: nodes) =
          front ++ .call "$send" (plan.args ++ extra) :: behind ∧
        Accounted {} "$offset0" front := by
  have read : Descriptor.ofJson "m" "SEND" (.obj [("name", .str "send"),
      ("input", .arr [.str "readOffset", .str "length"]), ("output", .arr [])]) = .ok sendRange :=
    rfl
  have width : ({} : Context).wordBytes ≠ 0 := by decide
  obtain ⟨plan, params, nodes, front, extra, behind, planned, built, split, -, settled⟩ :=
    offsets_accounted_iff read width "SEND" .sync
  exact ⟨read, width, plan, params, nodes, front, extra, behind, planned, built, split,
    settled.mpr rfl [] .readOffset [.length] rfl rfl⟩

/-- An offset that no length comes for. -/
def sendStart : Descriptor := { name := "send", inputs := [.readOffset] }

/-- The offset is accepted without a length, and handed to the host as it was bound. -/
theorem sendStart_unaccounted :
    Descriptor.ofJson "m" "SEND" (.obj [("name", .str "send"),
        ("input", .arr [.str "readOffset"]), ("output", .arr [])]) = .ok sendStart ∧
      ∃ plan, planOperands "SEND" sendStart {} = .ok plan ∧
        plan.args = [.getLocal "$offset0"] ∧
        history {} "$offset0" (plan.prelude ++ plan.args) = [.bound] :=
  ⟨rfl, _, rfl, rfl, rfl⟩

end HostGlue.Marshal

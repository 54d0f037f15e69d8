import HostGlue.Proofs.Wat.Evaluation

/-!
# Types of generated code

The types of the values that a node leaves, computed from the types of the globals, locals and
routines it names. An instruction takes exactly the operands it has, in their order; a statement
leaves nothing. Beside the types, the accesses to locals in the order in which they happen say
whether a local is set before it is read.

`eval_typed` is what the types are for: a typed node that meets typed routines and locals leaves
values of its types or traps, and is never stuck.
-/

namespace HostGlue.Wat

structure Signature where
  params : List ValType
  results : List ValType
  deriving Repr, DecidableEq

/-- The types that code finds around it. -/
structure Typing where
  globals : String → Option ValType
  locals : String → Option ValType
  routines : String → Option Signature

/-- What is left of the operand types by an operation that takes them all. -/
def Signature.apply (s : Signature) (ts : List ValType) : Option (List ValType) :=
  if ts = s.params then some s.results else none

def operation : String → List ValType → Option (List ValType)
  | "i32.add", [.i32, .i32] => some [.i32]
  | "i32.eqz", [.i32] => some [.i32]
  | "i64.extend_u/i32", [.i32] => some [.i64]
  | "drop", [_] => some []
  | _, _ => none

mutual

/-- The types of the values that a node leaves, if it is in order. -/
def typeOf (Θ : Typing) : Node → Option (List ValType)
  | .const valtype _ => (ValType.ofName? valtype).map ([·])
  | .getGlobal name => (Θ.globals name).map ([·])
  | .getLocal name => (Θ.locals name).map ([·])
  | .setLocal name value => do
    let ts ← typeOf Θ value
    let t ← Θ.locals name
    Signature.apply ⟨[t], []⟩ ts
  | .instr op args => do
    let ts ← typesOf Θ args
    operation op ts
  | .load valtype addr => do
    let ts ← typeOf Θ addr
    let t ← ValType.ofName? valtype
    Signature.apply ⟨[.i32], [t]⟩ ts
  | .store valtype addr value => do
    let ts ← typeOf Θ addr
    let us ← typeOf Θ value
    let t ← ValType.ofName? valtype
    Signature.apply ⟨[.i32, t], []⟩ (ts ++ us)
  | .call target args => do
    let ts ← typesOf Θ args
    let s ← Θ.routines target
    s.apply ts
  | .note _ => some []
  | .seq items => typesOf Θ items
  | .func .. => none
  | .hostImport _ => none
  | .blank => none

def typesOf (Θ : Typing) : List Node → Option (List ValType)
  | [] => some []
  | node :: rest => do
    let ts ← typeOf Θ node
    let us ← typesOf Θ rest
    return ts ++ us

end

section Lists

variable {Θ : Typing} {n : Node} {ns ks : List Node} {ts us : List ValType}

@[simp] theorem typesOf_nil : typesOf Θ [] = some [] := rfl

theorem typesOf_cons (hn : typeOf Θ n = some ts) (hns : typesOf Θ ns = some us) :
    typesOf Θ (n :: ns) = some (ts ++ us) := by
  rw [typesOf, hn, hns]
  rfl

theorem typesOf_cons_eq_some {vs : List ValType} (h : typesOf Θ (n :: ns) = some vs) :
    ∃ ts us, typeOf Θ n = some ts ∧ typesOf Θ ns = some us ∧ vs = ts ++ us := by
  rw [typesOf] at h
  obtain ⟨ts, hn, h⟩ := Option.bind_eq_some_iff.mp h
  obtain ⟨us, hns, h⟩ := Option.bind_eq_some_iff.mp h
  exact ⟨ts, us, hn, hns, (Option.some.inj h).symm⟩

theorem typesOf_singleton (hn : typeOf Θ n = some ts) : typesOf Θ [n] = some ts := by
  rw [typesOf_cons hn typesOf_nil, List.append_nil]

theorem typesOf_append (hns : typesOf Θ ns = some ts) (hks : typesOf Θ ks = some us) :
    typesOf Θ (ns ++ ks) = some (ts ++ us) := by
  induction ns generalizing ts with
  | nil =>
      cases hns
      exact hks
  | cons n ns ih =>
      obtain ⟨as, bs, hn, hrest, rfl⟩ := typesOf_cons_eq_some hns
      rw [List.cons_append, List.append_assoc]
      exact typesOf_cons hn (ih hrest)

/-- Statements, one after the other. -/
theorem typesOf_statements (h : ∀ n ∈ ns, typeOf Θ n = some []) : typesOf Θ ns = some [] := by
  induction ns with
  | nil => rfl
  | cons n ns ih =>
      exact typesOf_cons (h n List.mem_cons_self) (ih fun k hk => h k (List.mem_cons_of_mem _ hk))

theorem typeOf_of_statements (h : typesOf Θ ns = some []) : ∀ n ∈ ns, typeOf Θ n = some [] := by
  induction ns with
  | nil => simp
  | cons n ns ih =>
      obtain ⟨ts, us, hn, hns, none⟩ := typesOf_cons_eq_some h
      obtain ⟨rfl, rfl⟩ := List.append_eq_nil_iff.mp none.symm
      intro k hk
      rcases List.mem_cons.mp hk with rfl | hk
      · exact hn
      · exact ih hns k hk

/-- Sequences have no type of their own. -/
theorem typesOf_flatten (h : typesOf Θ ns = some ts) : typesOf Θ (flatten ns) = some ts := by
  induction ns using flatten.induct generalizing ts with
  | case1 => rwa [flatten]
  | case2 items rest ihItems ihRest =>
      obtain ⟨as, bs, hn, hns, rfl⟩ := typesOf_cons_eq_some h
      rw [flatten]
      exact typesOf_append (ihItems hn) (ihRest hns)
  | case3 node rest hseq ih =>
      obtain ⟨as, bs, hn, hns, rfl⟩ := typesOf_cons_eq_some h
      rw [flatten]
      · exact typesOf_cons hn (ih hns)
      · exact hseq

end Lists

/-! ## Accesses to locals -/

inductive Access where
  | get (name : String)
  | set (name : String)
  deriving Repr, DecidableEq

def Access.name : Access → String
  | .get name => name
  | .set name => name

mutual

/-- The accesses of a node to locals, in the order in which they happen. -/
def accesses : Node → List Access
  | .getLocal name => [.get name]
  | .setLocal name value => accesses value ++ [.set name]
  | .instr _ args => accessesAll args
  | .load _ addr => accesses addr
  | .store _ addr value => accesses addr ++ accesses value
  | .call _ args => accessesAll args
  | .seq items => accessesAll items
  | _ => []

def accessesAll : List Node → List Access
  | [] => []
  | node :: rest => accesses node ++ accessesAll rest

end

@[simp] theorem accessesAll_nil : accessesAll [] = [] := rfl

@[simp] theorem accessesAll_cons (n : Node) (ns : List Node) :
    accessesAll (n :: ns) = accesses n ++ accessesAll ns := rfl

@[simp] theorem accessesAll_append (ns ks : List Node) :
    accessesAll (ns ++ ks) = accessesAll ns ++ accessesAll ks := by
  induction ns with
  | nil => rfl
  | cons n ns ih => rw [List.cons_append, accessesAll_cons, accessesAll_cons, ih, List.append_assoc]

theorem mem_accessesAll {ns : List Node} {a : Access} :
    a ∈ accessesAll ns ↔ ∃ n ∈ ns, a ∈ accesses n := by
  induction ns with
  | nil => simp
  | cons n ns ih => simp [ih]

/-- Every local that is read is one of `known` or was set before. -/
def SetBeforeGet (known : List String) (as : List Access) : Prop :=
  ∀ before name behind, as = before ++ .get name :: behind →
    name ∈ known ∨ .set name ∈ before

section SetBeforeGet

variable {known known' : List String} {as bs : List Access}

theorem SetBeforeGet.of_known (h : ∀ name, .get name ∈ as → name ∈ known) :
    SetBeforeGet known as := by
  rintro before name behind rfl
  exact .inl (h name (by simp))

theorem SetBeforeGet.append (ha : SetBeforeGet known as) (hb : SetBeforeGet known' bs)
    (h : ∀ name ∈ known', name ∈ known ∨ .set name ∈ as) : SetBeforeGet known (as ++ bs) := by
  intro before name behind split
  rcases List.append_eq_append_iff.mp split with ⟨more, rfl, hbs⟩ | ⟨more, has, hbehind⟩
  · rcases hb more name behind hbs with hname | hname
    · rcases h name hname with hname | hname
      · exact .inl hname
      · exact .inr (List.mem_append_left _ hname)
    · exact .inr (List.mem_append_right _ hname)
  · cases more with
    | nil =>
        rw [List.append_nil] at has
        subst has
        rcases hb [] name behind hbehind.symm with hname | hname
        · exact h name hname
        · cases hname
    | cons a more =>
        obtain ⟨rfl, -⟩ := List.cons.inj hbehind
        exact ha before name more has

end SetBeforeGet

/-- A function is in order under the types around it. Its statements leave no value, every local it
accesses is declared once, every local it declares is set, and none is read before that. -/
structure FunctionTyped (Θ : Typing) (params locals : List (String × String)) (body : List Node) :
    Prop where
  statements : ∀ n ∈ flatten body, typeOf Θ n = some []
  declaredOnce : ∀ a ∈ accessesAll body, ((params ++ locals).map (·.1)).count a.name = 1
  localsSet : ∀ x ∈ locals, .set x.1 ∈ accessesAll body
  setBeforeGet : SetBeforeGet (params.map (·.1)) (accessesAll body)

/-! ## Typed code is not stuck -/

/-- The routine takes arguments of the types and answers with results of the types, or traps. -/
def Signature.Meets (s : Signature) (routine : Routine) : Prop :=
  ∀ args m, args.map Value.type = s.params →
    (∃ vs m', routine args m = .ok (vs, m') ∧ vs.map Value.type = s.results) ∨
      routine args m = .error .trap

structure Instance.Meets (Γ : Instance) (Θ : Typing) : Prop where
  globals : ∀ name t, Θ.globals name = some t → t = .i32
  routines : ∀ name s, Θ.routines name = some s →
    ∃ routine, Γ.routine name = some routine ∧ s.Meets routine

def LocalsMeet (Θ : Typing) (locals : String → Option Value) : Prop :=
  ∀ name t, Θ.locals name = some t → ∃ v, locals name = some v ∧ v.type = t

/-- Values of the types, and locals as before; or a trap. -/
def Sound (Θ : Typing) (ts : List ValType) : Outcome (List Value) → Prop
  | .ok vs σ => vs.map Value.type = ts ∧ LocalsMeet Θ σ.locals
  | .error e _ => e = .trap

section Sound

variable {Γ : Instance} {Θ : Typing} {σ : State} {ts us : List ValType}
  {x : Run (List Value)} {f : List Value → Run (List Value)}

theorem Sound.bind (hx : Sound Θ ts (x σ))
    (hf : ∀ vs τ, vs.map Value.type = ts → LocalsMeet Θ τ.locals → Sound Θ us (f vs τ)) :
    Sound Θ us ((x >>= f) σ) := by
  cases h : x σ with
  | ok vs τ =>
      rw [h] at hx
      rw [bind_ok h]
      exact hf vs τ hx.1 hx.2
  | error e τ =>
      rw [h] at hx
      rw [bind_error h]
      exact hx

theorem value_type (t : ValType) (n : Int) : (t.value n).type = t := by
  cases t <;> rfl

theorem map_type_eq_singleton {vs : List Value} {t : ValType} (h : vs.map Value.type = [t]) :
    ∃ v, vs = [v] ∧ v.type = t := by
  obtain ⟨v, rest, rfl, hv, hrest⟩ := List.map_eq_cons_iff.mp h
  obtain rfl := List.map_eq_nil_iff.mp hrest
  exact ⟨v, rfl, hv⟩

theorem type_eq_i32 {v : Value} (h : v.type = .i32) : ∃ a, v = .i32 a := by
  cases v with
  | i32 a => exact ⟨a, rfl⟩
  | i64 a => cases h

theorem apply_eq_some {s : Signature} (h : s.apply ts = some us) :
    ts = s.params ∧ us = s.results := by
  unfold Signature.apply at h
  split at h
  · rename_i same
    exact ⟨same, (Option.some.inj h).symm⟩
  · cases h

theorem assign_sound {name : String} {t : ValType} {vs : List Value}
    (hname : Θ.locals name = some t) (hvs : vs.map Value.type = [t])
    (hσ : LocalsMeet Θ σ.locals) : Sound Θ [] (assign name vs σ) := by
  obtain ⟨v, rfl, hv⟩ := map_type_eq_singleton hvs
  obtain ⟨old, hold, -⟩ := hσ name t hname
  unfold assign
  dsimp only
  rw [if_neg (by simp [hold])]
  refine ⟨rfl, fun other u hother => ?_⟩
  by_cases same : other = name
  · subst same
    obtain rfl := Option.some.inj (hname.symm.trans hother)
    exact ⟨v, Function.update_self .., hv⟩
  · obtain ⟨w, hw, htype⟩ := hσ other u hother
    exact ⟨w, (Function.update_of_ne same ..).trans hw, htype⟩

theorem operate_sound {op : String} {vs : List Value}
    (hop : operation op (vs.map Value.type) = some ts) (hσ : LocalsMeet Θ σ.locals) :
    Sound Θ ts (operate op vs σ) := by
  unfold operation at hop
  split at hop
  · rename_i types
    obtain ⟨v, rest, rfl, hv, hrest⟩ := List.map_eq_cons_iff.mp types
    obtain ⟨w, rfl, hw⟩ := map_type_eq_singleton hrest
    obtain ⟨a, rfl⟩ := type_eq_i32 hv
    obtain ⟨b, rfl⟩ := type_eq_i32 hw
    cases hop
    exact ⟨rfl, hσ⟩
  · rename_i types
    obtain ⟨v, rfl, hv⟩ := map_type_eq_singleton types
    obtain ⟨a, rfl⟩ := type_eq_i32 hv
    cases hop
    exact ⟨rfl, hσ⟩
  · rename_i types
    obtain ⟨v, rfl, hv⟩ := map_type_eq_singleton types
    obtain ⟨a, rfl⟩ := type_eq_i32 hv
    cases hop
    exact ⟨rfl, hσ⟩
  · rename_i types
    obtain ⟨v, rfl, -⟩ := map_type_eq_singleton types
    cases hop
    exact ⟨rfl, hσ⟩
  · cases hop

theorem loadFrom_sound {t : ValType} {vs : List Value} (hvs : vs.map Value.type = [.i32])
    (hσ : LocalsMeet Θ σ.locals) : Sound Θ [t] (loadFrom t vs σ) := by
  obtain ⟨v, rfl, hv⟩ := map_type_eq_singleton hvs
  obtain ⟨a, rfl⟩ := type_eq_i32 hv
  unfold loadFrom
  dsimp only
  cases σ.memory.load? a.toNat t.width with
  | none => rfl
  | some n => exact ⟨congrArg ([·]) (value_type t n), hσ⟩

theorem storeTo_sound {t : ValType} {vs : List Value} (hvs : vs.map Value.type = [.i32, t])
    (hσ : LocalsMeet Θ σ.locals) : Sound Θ [] (storeTo t vs σ) := by
  obtain ⟨v, rest, rfl, hv, hrest⟩ := List.map_eq_cons_iff.mp hvs
  obtain ⟨w, rfl, hw⟩ := map_type_eq_singleton hrest
  obtain ⟨a, rfl⟩ := type_eq_i32 hv
  unfold storeTo
  dsimp only
  rw [if_pos hw]
  cases σ.memory.store? a.toNat t.width w.toNat with
  | none => rfl
  | some m => exact ⟨rfl, hσ⟩

theorem invoke_sound {target : String} {s : Signature} {args : List Value}
    (meets : Γ.Meets Θ) (htarget : Θ.routines target = some s)
    (hargs : args.map Value.type = s.params)
    (hσ : LocalsMeet Θ σ.locals) : Sound Θ s.results (invoke Γ target args σ) := by
  obtain ⟨routine, linked, typed⟩ := meets.routines target s htarget
  unfold invoke
  rw [linked]
  dsimp only
  rcases typed args σ.memory hargs with ⟨vs, m, answer, hvs⟩ | trap
  · rw [answer]
    exact ⟨hvs, hσ⟩
  · rw [trap]
    rfl

end Sound

mutual

/-- **Typed code is not stuck.** Where routines and locals have their types, a typed node leaves
values of its types or traps, and the locals keep their types. -/
theorem eval_typed {Γ : Instance} {Θ : Typing} (meets : Γ.Meets Θ) :
    ∀ (n : Node) {ts : List ValType} {σ : State}, typeOf Θ n = some ts → LocalsMeet Θ σ.locals →
      Sound Θ ts (eval Γ n σ)
  | .const valtype n, ts, σ, h, hσ => by
      obtain ⟨t, ht, rfl⟩ := Option.map_eq_some_iff.mp h
      rw [eval, ht]
      exact ⟨congrArg ([·]) (value_type t n), hσ⟩
  | .getGlobal name, ts, σ, h, hσ => by
      obtain ⟨t, ht, rfl⟩ := Option.map_eq_some_iff.mp h
      obtain rfl := meets.globals name t ht
      exact ⟨rfl, hσ⟩
  | .getLocal name, ts, σ, h, hσ => by
      obtain ⟨t, ht, rfl⟩ := Option.map_eq_some_iff.mp h
      obtain ⟨v, hv, rfl⟩ := hσ name t ht
      simp only [eval, hv]
      exact ⟨rfl, hσ⟩
  | .setLocal name value, ts, σ, h, hσ => by
      obtain ⟨us, hvalue, h⟩ := Option.bind_eq_some_iff.mp h
      obtain ⟨t, ht, h⟩ := Option.bind_eq_some_iff.mp h
      obtain ⟨rfl, rfl⟩ := apply_eq_some h
      rw [eval]
      exact (eval_typed meets value hvalue hσ).bind fun vs τ hvs hτ => assign_sound ht hvs hτ
  | .instr op args, ts, σ, h, hσ => by
      obtain ⟨us, hargs, h⟩ := Option.bind_eq_some_iff.mp h
      rw [eval]
      refine (evalAll_typed meets args hargs hσ).bind fun vs τ hvs hτ => ?_
      subst hvs
      exact operate_sound h hτ
  | .load valtype addr, ts, σ, h, hσ => by
      obtain ⟨us, haddr, h⟩ := Option.bind_eq_some_iff.mp h
      obtain ⟨t, ht, h⟩ := Option.bind_eq_some_iff.mp h
      obtain ⟨rfl, rfl⟩ := apply_eq_some h
      rw [eval, ht]
      exact (eval_typed meets addr haddr hσ).bind fun vs τ hvs hτ => loadFrom_sound hvs hτ
  | .store valtype addr value, ts, σ, h, hσ => by
      obtain ⟨us, haddr, h⟩ := Option.bind_eq_some_iff.mp h
      obtain ⟨ws, hvalue, h⟩ := Option.bind_eq_some_iff.mp h
      obtain ⟨t, ht, h⟩ := Option.bind_eq_some_iff.mp h
      obtain ⟨both, rfl⟩ := apply_eq_some h
      rw [eval, ht]
      refine (eval_typed meets addr haddr hσ).bind fun vs τ hvs hτ =>
        (eval_typed meets value hvalue hτ).bind fun us υ hus hυ => storeTo_sound ?_ hυ
      rw [List.map_append, hvs, hus, both]
  | .call target args, ts, σ, h, hσ => by
      obtain ⟨us, hargs, h⟩ := Option.bind_eq_some_iff.mp h
      obtain ⟨s, hs, h⟩ := Option.bind_eq_some_iff.mp h
      obtain ⟨rfl, rfl⟩ := apply_eq_some h
      rw [eval]
      exact (evalAll_typed meets args hargs hσ).bind fun vs τ hvs hτ => invoke_sound meets hs hvs hτ
  | .note _, ts, σ, h, hσ => by
      cases h
      exact ⟨rfl, hσ⟩
  | .seq items, ts, σ, h, hσ => evalAll_typed meets items h hσ
  | .func .., _, _, h, _ => nomatch h
  | .hostImport _, _, _, h, _ => nomatch h
  | .blank, _, _, h, _ => nomatch h

theorem evalAll_typed {Γ : Instance} {Θ : Typing} (meets : Γ.Meets Θ) :
    ∀ (ns : List Node) {ts : List ValType} {σ : State}, typesOf Θ ns = some ts →
      LocalsMeet Θ σ.locals → Sound Θ ts (evalAll Γ ns σ)
  | [], ts, σ, h, hσ => by
      cases h
      exact ⟨rfl, hσ⟩
  | n :: ns, ts, σ, h, hσ => by
      obtain ⟨us, ws, hn, hns, rfl⟩ := typesOf_cons_eq_some h
      rw [evalAll]
      refine (eval_typed meets n hn hσ).bind fun vs τ hvs hτ =>
        (evalAll_typed meets ns hns hτ).bind fun xs υ hxs hυ => ⟨?_, hυ⟩
      rw [List.map_append, hvs, hxs]

end

end HostGlue.Wat

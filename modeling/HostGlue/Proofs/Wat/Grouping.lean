import HostGlue.Proofs.Wat.Placement

/-!
# Grouping leaves no trace

A sequence at the top, in the body of a function or in such a sequence stands for its items.
`ungroupBody` takes all of them out: it puts the items in the place of every sequence at the top and
in every function body, wherever the function stands. `flatten` sees the top only, and a body is
dissolved later, when its function is lowered; that lowering does not see the difference is shown by
one induction over nodes and lists of nodes.

A sequence as operand is not taken out. It has no tree, and neither has a blank: `misfits` lists
them in the order in which lowering comes to them, and the first one is what is reported. Nothing
else is, since a tree that a node has can be laid out.
-/

namespace HostGlue.Wat

open SExpr

/-! ## Dissolving sequences -/

mutual

/-- The node with all sequences in function bodies replaced by their items. -/
def Node.ungroup : Node → Node
  | .setLocal name value => .setLocal name value.ungroup
  | .instr op args => .instr op (ungroupOperands args)
  | .load valtype addr => .load valtype addr.ungroup
  | .store valtype addr value => .store valtype addr.ungroup value.ungroup
  | .call target args => .call target (ungroupOperands args)
  | .seq items => .seq (ungroupOperands items)
  | .func name params locals body => .func name params locals (ungroupBody body)
  | node => node

/-- A sequence among operands stays what it is. -/
def ungroupOperands : List Node → List Node
  | [] => []
  | node :: rest => node.ungroup :: ungroupOperands rest

/-- The nodes with every sequence replaced by its items, repeatedly, here and in function bodies. -/
def ungroupBody : List Node → List Node
  | [] => []
  | .seq items :: rest => ungroupBody items ++ ungroupBody rest
  | node :: rest => node.ungroup :: ungroupBody rest

end

/-- None of the nodes is a sequence. -/
def SequenceFree (nodes : List Node) : Prop := ∀ n ∈ nodes, ∀ items, n ≠ .seq items

section Flattening

variable {nodes : List Node}

theorem flatten_of_sequenceFree (free : SequenceFree nodes) : flatten nodes = nodes := by
  induction nodes with
  | nil => rw [flatten]
  | cons node rest ih =>
      obtain ⟨plain, free⟩ := List.forall_mem_cons.mp free
      rw [flatten_plain plain, ih free]

theorem sequenceFree_flatten (nodes : List Node) : SequenceFree (flatten nodes) := by
  fun_induction flatten nodes with
  | case1 => exact List.forall_mem_nil _
  | case2 items rest ihItems ihRest => exact List.forall_mem_append.mpr ⟨ihItems, ihRest⟩
  | case3 node rest plain ih => exact List.forall_mem_cons.mpr ⟨plain, ih⟩

theorem flatten_flatten (nodes : List Node) : flatten (flatten nodes) = flatten nodes :=
  flatten_of_sequenceFree (sequenceFree_flatten nodes)

theorem flatten_append (nodes more : List Node) :
    flatten (nodes ++ more) = flatten nodes ++ flatten more := by
  fun_induction flatten nodes with
  | case1 => rfl
  | case2 items rest _ ih => rw [List.cons_append, flatten, ih, List.append_assoc]
  | case3 node rest plain ih => rw [List.cons_append, flatten_plain plain, ih, List.cons_append]

theorem Node.ungroup_plain {n : Node} (plain : ∀ items, n ≠ .seq items) :
    ∀ items, n.ungroup ≠ .seq items := by
  cases n with
  | seq items => exact absurd rfl (plain items)
  | _ => simp [Node.ungroup]

theorem ungroupBody_plain {n : Node} (plain : ∀ items, n ≠ .seq items) (rest : List Node) :
    ungroupBody (n :: rest) = n.ungroup :: ungroupBody rest := by
  cases n with
  | seq items => exact absurd rfl (plain items)
  | _ => rw [ungroupBody]; exact plain

/-- What is dissolved beyond flattening stands in function bodies. -/
theorem ungroupBody_eq_map (nodes : List Node) :
    ungroupBody nodes = (flatten nodes).map Node.ungroup := by
  fun_induction flatten nodes with
  | case1 => rfl
  | case2 items rest ihItems ihRest => rw [ungroupBody, ihItems, ihRest, List.map_append]
  | case3 node rest plain ih => rw [ungroupBody_plain plain, ih, List.map_cons]

theorem sequenceFree_ungroupBody (nodes : List Node) : SequenceFree (ungroupBody nodes) := by
  rw [ungroupBody_eq_map]
  refine List.forall_mem_map.mpr fun n mem => Node.ungroup_plain (sequenceFree_flatten nodes n mem)

theorem ungroupBody_append (nodes more : List Node) :
    ungroupBody (nodes ++ more) = ungroupBody nodes ++ ungroupBody more := by
  simp only [ungroupBody_eq_map, flatten_append, List.map_append]

/-- A sequence may be put around any nodes that follow one another. -/
theorem ungroupBody_seq (front items behind : List Node) :
    ungroupBody (front ++ .seq items :: behind) = ungroupBody (front ++ (items ++ behind)) := by
  rw [ungroupBody_append, ungroupBody_append, ungroupBody, ungroupBody_append]

end Flattening

/-! ## Lowering does not see sequences -/

theorem lowerBody_plain {n : Node} (plain : ∀ items, n ≠ .seq items) (rest : List Node) :
    lowerBody (n :: rest) = (do
      let first ← lower n
      let others ← lowerBody rest
      return first :: others) := by
  cases n with
  | seq items => exact absurd rfl (plain items)
  | _ => rw [lowerBody]; exact plain

theorem lowerBody_append (nodes more : List Node) :
    lowerBody (nodes ++ more) = (do
      let first ← lowerBody nodes
      let others ← lowerBody more
      return first ++ others) := by
  fun_induction flatten nodes with
  | case1 => simp [lowerBody]
  | case2 items rest _ ih => simp [lowerBody, ih, ← List.append_assoc]
  | case3 node rest plain ih => simp [lowerBody_plain plain, ih]

mutual

/-- **A node has the same tree, or the same fault, with the sequences in it dissolved.** -/
theorem lower_ungroup : ∀ n : Node, lower n.ungroup = lower n
  | .setLocal _ value => by rw [Node.ungroup, lower, lower, lower_ungroup value]
  | .instr _ args => by rw [Node.ungroup, lower, lower, lowerAll_ungroupOperands args]
  | .load _ addr => by rw [Node.ungroup, lower, lower, lower_ungroup addr]
  | .store _ addr value => by
      rw [Node.ungroup, lower, lower, lower_ungroup addr, lower_ungroup value]
  | .call _ args => by rw [Node.ungroup, lower, lower, lowerAll_ungroupOperands args]
  | .func _ _ _ body => by rw [Node.ungroup, lower, lower, lowerBody_ungroupBody body]
  | .const _ _ => rfl
  | .getGlobal _ => rfl
  | .getLocal _ => rfl
  | .note _ => rfl
  | .seq _ => rfl
  | .hostImport _ => rfl
  | .blank => rfl

theorem lowerAll_ungroupOperands : ∀ nodes : List Node,
    lowerAll (ungroupOperands nodes) = lowerAll nodes
  | [] => rfl
  | node :: rest => by
      rw [ungroupOperands, lowerAll, lowerAll, lower_ungroup node, lowerAll_ungroupOperands rest]

theorem lowerBody_ungroupBody : ∀ nodes : List Node,
    lowerBody (ungroupBody nodes) = lowerBody nodes
  | [] => rfl
  | node :: rest => by
      cases node with
      | seq items =>
          rw [ungroupBody, lowerBody_append, lowerBody, lowerBody_ungroupBody items,
            lowerBody_ungroupBody rest]
      | _ =>
          rw [ungroupBody_plain (by simp), lowerBody_plain (Node.ungroup_plain (by simp)),
            lowerBody_plain (by simp), lower_ungroup, lowerBody_ungroupBody rest]

end

theorem renderNode_ungroup (n : Node) : renderNode n.ungroup = renderNode n := by
  rw [renderNode, renderNode, lower_ungroup]

/-- **Dissolving sequences leaves the text, or the fault, as it is.** -/
theorem render_ungroupBody (nodes : List Node) : render (ungroupBody nodes) = render nodes := by
  have same : renderNode ∘ Node.ungroup = renderNode := funext renderNode_ungroup
  rw [render, render, flatten_of_sequenceFree (sequenceFree_ungroupBody nodes), ungroupBody_eq_map,
    List.mapM_map, same]

theorem render_congr {nodes others : List Node} (same : ungroupBody nodes = ungroupBody others) :
    render nodes = render others := by
  rw [← render_ungroupBody nodes, same, render_ungroupBody]

/-- A sequence that opens the body of a function, as the prelude of a generated function does, may
as well be written out. -/
theorem render_func_seq (header : List Node) (name : String)
    (params locals : List (String × String)) (items body : List Node) :
    render (header ++ [.func name params locals (.seq items :: body)]) =
      render (header ++ [.func name params locals (items ++ body)]) := by
  have bodies : ungroupBody (.seq items :: body) = ungroupBody (items ++ body) :=
    ungroupBody_seq [] items body
  refine render_congr ?_
  rw [ungroupBody_append, ungroupBody_append]
  show _ ++ [Node.func name params locals (ungroupBody _)] =
    _ ++ [Node.func name params locals (ungroupBody _)]
  rw [bodies]

/-! ## Which fault is reported -/

/-- What has no tree and stands where one is expected. -/
inductive Misfit where
  | sequence
  | blank
  deriving Repr, DecidableEq

def Misfit.error : Misfit → RenderError
  | .sequence => .sequenceAsOperand
  | .blank => .blankNode

/-- Of several misfits the first is reported. -/
def reported (misfits : List Misfit) : Option RenderError := misfits.head?.map Misfit.error

theorem reported_append (misfits more : List Misfit) :
    reported (misfits ++ more) = (reported misfits).or (reported more) := by
  rw [reported, List.head?_append, Option.map_or, reported, reported]

theorem reported_eq_none_iff {misfits : List Misfit} : reported misfits = none ↔ misfits = [] := by
  rw [reported, Option.map_eq_none_iff, List.head?_eq_none_iff]

mutual

/-- The misfits in a node, in the order in which lowering comes to them. It does not come to the
items of a sequence that is one. -/
def Node.misfits : Node → List Misfit
  | .setLocal _ value => value.misfits
  | .instr _ args => operandMisfits args
  | .load _ addr => addr.misfits
  | .store _ addr value => addr.misfits ++ value.misfits
  | .call _ args => operandMisfits args
  | .seq _ => [.sequence]
  | .func _ _ _ body => bodyMisfits body
  | .blank => [.blank]
  | _ => []

def operandMisfits : List Node → List Misfit
  | [] => []
  | node :: rest => node.misfits ++ operandMisfits rest

/-- The misfits among the nodes of a body, where a sequence stands for its items. -/
def bodyMisfits : List Node → List Misfit
  | [] => []
  | .seq items :: rest => bodyMisfits items ++ bodyMisfits rest
  | node :: rest => node.misfits ++ bodyMisfits rest

end

theorem bodyMisfits_plain {n : Node} (plain : ∀ items, n ≠ .seq items) (rest : List Node) :
    bodyMisfits (n :: rest) = n.misfits ++ bodyMisfits rest := by
  cases n with
  | seq items => exact absurd rfl (plain items)
  | _ => rw [bodyMisfits]; exact plain

theorem bodyMisfits_eq_flatMap (nodes : List Node) :
    bodyMisfits nodes = (flatten nodes).flatMap Node.misfits := by
  fun_induction flatten nodes with
  | case1 => rfl
  | case2 items rest ihItems ihRest => rw [bodyMisfits, ihItems, ihRest, List.flatMap_append]
  | case3 node rest plain ih => rw [bodyMisfits_plain plain, ih, List.flatMap_cons]

mutual

/-- **Lowering fails with the first misfit.** -/
theorem failure_lower : ∀ n : Node, failure (lower n) = reported n.misfits
  | .setLocal _ value => by rw [lower, failure_map, failure_lower value, Node.misfits]
  | .instr _ args => by rw [lower, failure_map, failure_lowerAll args, Node.misfits]
  | .load _ addr => by rw [lower, failure_map, failure_lower addr, Node.misfits]
  | .store _ addr value => by
      rw [lower, failure_map₂, failure_lower addr, failure_lower value, Node.misfits,
        reported_append]
  | .call _ args => by rw [lower, failure_map, failure_lowerAll args, Node.misfits]
  | .func _ _ _ body => by rw [lower, failure_map, failure_lowerBody body, Node.misfits]
  | .const _ _ => rfl
  | .getGlobal _ => rfl
  | .getLocal _ => rfl
  | .note _ => rfl
  | .seq _ => rfl
  | .hostImport _ => rfl
  | .blank => rfl

theorem failure_lowerAll : ∀ nodes : List Node,
    failure (lowerAll nodes) = reported (operandMisfits nodes)
  | [] => rfl
  | node :: rest => by
      rw [lowerAll, failure_map₂, failure_lower node, failure_lowerAll rest, operandMisfits,
        reported_append]

theorem failure_lowerBody : ∀ nodes : List Node,
    failure (lowerBody nodes) = reported (bodyMisfits nodes)
  | [] => rfl
  | node :: rest => by
      cases node with
      | seq items =>
          rw [lowerBody, failure_map₂, failure_lowerBody items, failure_lowerBody rest, bodyMisfits,
            reported_append]
      | _ =>
          rw [lowerBody_plain (by simp), failure_map₂, failure_lower, failure_lowerBody rest,
            bodyMisfits_plain (by simp), reported_append]

end

mutual

/-- Nodes are placed exactly if there is no misfit in them. -/
theorem misfits_eq_nil_iff : ∀ n : Node, n.misfits = [] ↔ n.Placed
  | .setLocal _ value => misfits_eq_nil_iff value
  | .instr _ args => operandMisfits_eq_nil_iff args
  | .load _ addr => misfits_eq_nil_iff addr
  | .store _ addr value => by
      rw [Node.misfits, List.append_eq_nil_iff, misfits_eq_nil_iff addr, misfits_eq_nil_iff value,
        Node.Placed]
  | .call _ args => operandMisfits_eq_nil_iff args
  | .func _ _ _ body => bodyMisfits_eq_nil_iff body
  | .const _ _ => iff_of_true rfl trivial
  | .getGlobal _ => iff_of_true rfl trivial
  | .getLocal _ => iff_of_true rfl trivial
  | .note _ => iff_of_true rfl trivial
  | .hostImport _ => iff_of_true rfl trivial
  | .seq _ => iff_of_false (List.cons_ne_nil _ _) id
  | .blank => iff_of_false (List.cons_ne_nil _ _) id

theorem operandMisfits_eq_nil_iff : ∀ nodes : List Node,
    operandMisfits nodes = [] ↔ operandsPlaced nodes
  | [] => iff_of_true rfl trivial
  | node :: rest => by
      rw [operandMisfits, List.append_eq_nil_iff, misfits_eq_nil_iff node,
        operandMisfits_eq_nil_iff rest, operandsPlaced]

theorem bodyMisfits_eq_nil_iff : ∀ nodes : List Node, bodyMisfits nodes = [] ↔ bodyPlaced nodes
  | [] => iff_of_true rfl trivial
  | node :: rest => by
      cases node with
      | seq items =>
          rw [bodyMisfits, List.append_eq_nil_iff, bodyMisfits_eq_nil_iff items,
            bodyMisfits_eq_nil_iff rest, bodyPlaced]
      | _ =>
          rw [bodyMisfits_plain (by simp), List.append_eq_nil_iff, misfits_eq_nil_iff,
            bodyMisfits_eq_nil_iff rest, bodyPlaced]
          simp

end

/-- A tree that a node has is laid out, so nothing but lowering fails. -/
theorem failure_renderNode (n : Node) : failure (renderNode n) = reported n.misfits := by
  rw [← failure_lower]
  cases lowered : lower n with
  | error e => rw [renderNode, lowered]; rfl
  | ok t =>
      have none : reported n.misfits = none := by rw [← failure_lower, lowered]; rfl
      have placed : n.Placed := (misfits_eq_nil_iff n).mp (reported_eq_none_iff.mp none)
      obtain ⟨text, rendered⟩ := renderNode_ok (hasText_of_placed placed)
      rw [rendered]
      rfl

theorem failure_mapM_renderNode (nodes : List Node) :
    failure (nodes.mapM renderNode) = reported (nodes.flatMap Node.misfits) := by
  induction nodes with
  | nil => rfl
  | cons node rest ih =>
      rw [List.mapM_cons, failure_map₂, ih, failure_renderNode, List.flatMap_cons,
        reported_append]

/-- **Nodes are refused for the first misfit**, and for nothing else. -/
theorem failure_render (nodes : List Node) :
    failure (render nodes) = reported (bodyMisfits nodes) := by
  rw [render, failure_map, failure_mapM_renderNode, bodyMisfits_eq_flatMap]

/-! ## Grouping -/

/-- **Grouping leaves no trace.** Take nodes that are the same once every sequence at the top and in
the bodies of functions, at any depth, is replaced by its items, repeatedly. Flattened they hold no
sequences, and what differs then stands in function bodies only; flattening twice is flattening
once, and nodes that follow one another are flattened one after the other. They have the same text
or are refused for the same fault. The fault is the first that lowering meets, so nodes without
blanks in which a sequence is an operand are refused for a sequence, however they are grouped. -/
theorem grouping_invisible {nodes others : List Node}
    (same : ungroupBody nodes = ungroupBody others) :
    (SequenceFree (flatten nodes) ∧ SequenceFree (flatten others) ∧
      (flatten nodes).map Node.ungroup = (flatten others).map Node.ungroup) ∧
    (∀ list, flatten (flatten list) = flatten list) ∧
    (∀ list more, flatten (list ++ more) = flatten list ++ flatten more) ∧
    render nodes = render others ∧
    (∀ e, render nodes = .error e ↔ reported (bodyMisfits nodes) = some e) ∧
    (.sequence ∈ bodyMisfits nodes → .blank ∉ bodyMisfits nodes →
      render nodes = .error .sequenceAsOperand ∧ render others = .error .sequenceAsOperand) := by
  have texts : render nodes = render others := render_congr same
  have refused (e : RenderError) :
      render nodes = .error e ↔ reported (bodyMisfits nodes) = some e := by
    rw [← failure_render, failure_eq_some_iff]
  refine ⟨⟨sequenceFree_flatten nodes, sequenceFree_flatten others, ?_⟩, flatten_flatten,
    flatten_append, texts, refused, fun operand noBlank => ?_⟩
  · rw [← ungroupBody_eq_map, ← ungroupBody_eq_map, same]
  · rw [← texts, and_self, refused]
    cases misfits : bodyMisfits nodes with
    | nil => rw [misfits] at operand; cases operand
    | cons first others =>
        cases first with
        | sequence => rfl
        | blank => exact absurd (misfits ▸ List.mem_cons_self) noBlank

/-- A function among operands, with sequences in its body, below a comment in a sequence. -/
def groupedBlock : List Node :=
  [.seq [.note "grouped", .seq []],
    .instr "block" [.func "$f" [] [] [.seq [.call "$g" [], .seq [.instr "drop" []]], .seq []]]]

def plainBlock : List Node :=
  [.note "grouped", .instr "block" [.func "$f" [] [] [.call "$g" [], .instr "drop" []]]]

/-- A sequence as operand, itself in a sequence. -/
def groupedOperand : List Node := [.seq [.note "refused", .setLocal "$x" (.seq [.getLocal "$y"])]]

def plainOperand : List Node := [.note "refused", .setLocal "$x" (.seq [.getLocal "$y"])]

theorem groupedBlock_invisible :
    ungroupBody groupedBlock = ungroupBody plainBlock ∧ render groupedBlock = render plainBlock ∧
      ungroupBody groupedOperand = ungroupBody plainOperand ∧
      render groupedOperand = .error .sequenceAsOperand ∧
      render plainOperand = .error .sequenceAsOperand := by
  have block : ungroupBody groupedBlock = ungroupBody plainBlock := rfl
  have operand : ungroupBody groupedOperand = ungroupBody plainOperand := rfl
  obtain ⟨-, -, -, texts, -⟩ := grouping_invisible block
  obtain ⟨-, -, -, -, -, refused⟩ := grouping_invisible operand
  exact ⟨block, texts, operand, refused (by decide) (by decide)⟩

end HostGlue.Wat

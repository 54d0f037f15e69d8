import HostGlue.Proofs.SExpr.Faults
import HostGlue.Proofs.Wat.Rendering
import Mathlib.Data.List.TakeWhile

/-!
# Nodes that always have a text

A sequence may stand wherever several nodes may stand: at the top, in the body of a function, and
among the items of such a sequence. Where one tree is expected neither it nor a blank has a meaning.
Nodes that keep to this are `placed`, and they have a text: lowering does not fail on them, it makes
no empty list, and the leaves it makes all have a written form, so the formatter does not fail
either.

The module ends with all that is said of failures: which they are for a tree, and that there are
none for placed nodes.
-/

namespace HostGlue.Wat

open SExpr

mutual

/-- The node stands for one tree, and so do the operands in it. -/
def Node.Placed : Node → Prop
  | .setLocal _ value => value.Placed
  | .instr _ args => operandsPlaced args
  | .load _ addr => addr.Placed
  | .store _ addr value => addr.Placed ∧ value.Placed
  | .call _ args => operandsPlaced args
  | .func _ _ _ body => bodyPlaced body
  | .seq _ => False
  | .blank => False
  | _ => True

def operandsPlaced : List Node → Prop
  | [] => True
  | node :: rest => node.Placed ∧ operandsPlaced rest

/-- Every node, of sequences every item, stands for one tree. -/
def bodyPlaced : List Node → Prop
  | [] => True
  | .seq items :: rest => bodyPlaced items ∧ bodyPlaced rest
  | node :: rest => node.Placed ∧ bodyPlaced rest

end

/-! ## Bodies without sequences -/

theorem flatten_plain {node : Node} (plain : ∀ items, node ≠ .seq items) (rest : List Node) :
    flatten (node :: rest) = node :: flatten rest := by
  cases node with
  | seq items => exact absurd rfl (plain items)
  | _ => rw [flatten]; exact plain

/-- A body is lowered as its nodes are, sequences dissolved. -/
theorem lowerBody_eq_ok_iff {nodes : List Node} {ts : List SExpr} :
    lowerBody nodes = .ok ts ↔ lowerAll (flatten nodes) = .ok ts := by
  fun_induction flatten nodes generalizing ts with
  | case1 => simp [lowerBody, lowerAll]
  | case2 items rest ihItems ihRest =>
      rw [lowerBody_seq_eq_ok, lowerAll_append_eq_ok]
      simp only [ihItems, ihRest]
  | case3 node rest plain ih =>
      rw [lowerBody_plain_eq_ok plain, lowerAll_cons_eq_ok]
      simp only [ih]

/-! ## Placed nodes have a text -/

/-- The node has a tree that is laid out, whatever its leaves. -/
abbrev HasText (n : Node) : Prop := Renders (fun _ => True) n

theorem written_declared (head : String) (ds : List (String × String)) :
    WrittenAll (fun _ => True) (ds.map (declaration head)) :=
  written_declarations trivial fun _ _ => ⟨trivial, trivial⟩

mutual

theorem hasText_of_placed : ∀ {n : Node}, n.Placed → HasText n
  | .const _ _, _ => renders_const trivial trivial
  | .getGlobal _, _ => renders_getGlobal trivial trivial
  | .getLocal _, _ => renders_getLocal trivial trivial
  | .setLocal _ _, h => renders_setLocal trivial trivial (hasText_of_placed h)
  | .instr _ _, h => renders_instr trivial (hasText_of_operandsPlaced h)
  | .load _ _, h => renders_load trivial (hasText_of_placed h)
  | .store _ _ _, h => renders_store trivial (hasText_of_placed h.1) (hasText_of_placed h.2)
  | .call _ _, h => renders_call trivial trivial (hasText_of_operandsPlaced h)
  | .note _, _ => renders_note trivial
  | .func _ params locals _, h => by
      obtain ⟨ts, lowered, written⟩ := lowerAll_ok (hasText_of_bodyPlaced h)
      refine ⟨_, lower_func_eq_ok.mpr ⟨ts, lowerBody_eq_ok_iff.mpr lowered, rfl⟩,
        List.cons_ne_nil _ _, trivial, trivial, ?_⟩
      rw [writtenAll_append, writtenAll_append]
      exact ⟨⟨written_declared "param" params, written_declared "local" locals⟩, written⟩
  | .hostImport _, _ => renders_hostImport (fun _ _ => trivial) trivial trivial trivial
      (fun _ _ => trivial) fun _ _ => trivial
  | .seq _, h => h.elim
  | .blank, h => h.elim

theorem hasText_of_operandsPlaced : ∀ {nodes : List Node}, operandsPlaced nodes →
    ∀ n ∈ nodes, HasText n
  | [], _ => by simp
  | node :: rest, h =>
      List.forall_mem_cons.mpr ⟨hasText_of_placed h.1, hasText_of_operandsPlaced h.2⟩

theorem hasText_of_bodyPlaced : ∀ {nodes : List Node}, bodyPlaced nodes →
    ∀ n ∈ flatten nodes, HasText n
  | [], _ => by simp [flatten]
  | node :: rest, h => by
      cases node with
      | seq items =>
          rw [flatten, List.forall_mem_append]
          exact ⟨hasText_of_bodyPlaced h.1, hasText_of_bodyPlaced h.2⟩
      | _ =>
          rw [flatten_plain (by simp), List.forall_mem_cons]
          exact ⟨hasText_of_placed h.1, hasText_of_bodyPlaced h.2⟩

end

theorem renderNode_ok {n : Node} (h : HasText n) : ∃ text, renderNode n = .ok text := by
  obtain ⟨t, lowered, written⟩ := h
  obtain ⟨text, laid, -⟩ := format_ok written 0
  exact ⟨text, renderNode_eq_ok.mpr ⟨t, lowered, laid⟩⟩

/-- **Placed nodes have a text.** -/
theorem render_ok {nodes : List Node} (h : bodyPlaced nodes) : ∃ text, render nodes = .ok text := by
  cases ran : (flatten nodes).mapM renderNode with
  | ok texts => exact ⟨_, by rw [render, ran]; rfl⟩
  | error e =>
      obtain ⟨n, mem, e', failed⟩ := except_mapM_fails_iff.mp ⟨e, ran⟩
      obtain ⟨text, rendered⟩ := renderNode_ok (hasText_of_bodyPlaced h n mem)
      rw [rendered] at failed
      cases failed

/-! ## All faults -/

/-- **Faults are faults of leaves.** Take a tree without an empty list in it. At every depth it has
a text exactly if all its leaves have a written form, and otherwise it is refused for the leftmost
leaf that has none, as that leaf would be. No tree is refused for a comment in it; a list that is
laid out as a block has an item behind its leading atoms; and placed nodes always have a text. -/
theorem faults_by_leaves :
    (∀ t : SExpr, .list [] ∉ t.parts → ∀ indent,
      ((∃ text, t.format indent = .ok text) ↔ ∀ leaf ∈ t.leaves, leaf.isWritable = true) ∧
      ∀ e, t.format indent = .error e ↔ ∃ front leaf behind,
        t.leaves = front ++ leaf :: behind ∧ (∀ x ∈ front, x.isWritable = true) ∧
          leaf.isWritable = false ∧ atom leaf = .error e) ∧
    (∀ (t : SExpr) indent, t.format indent ≠ .error (.unsupported .comment)) ∧
    (∀ items indent, oneLine? indent items = .ok none → items.dropWhile isAtom ≠ []) ∧
    ∀ nodes, bodyPlaced nodes → ∃ text, render nodes = .ok text := by
  refine ⟨fun t filled indent => ⟨?_, fun e => ?_⟩,
    fun t indent => format_ne_error_comment indent t, fun items indent block => ?_,
    fun nodes placed => render_ok placed⟩
  · rw [← failure_eq_none_iff, failure_format filled, firstFault_eq_none_iff]
  · rw [← failure_eq_some_iff, failure_format filled, firstFault_eq_some_iff]
  · obtain ⟨x, mem, behind⟩ := exists_behind_atoms block
    intro none
    have isAtom := List.dropWhile_eq_nil_iff.mp none x mem
    rw [behind] at isAtom
    cases isAtom

/-- A list that a comment makes a block of, with two leaves that have no written form. -/
def remarkedFault : SExpr :=
  .list [.sym "call", .list [.comment "left", .unwritable (.other "<class 'NoneType'>")],
    .unwritable .boolean]

/-- A function below a comment, both in a sequence. -/
def groupedFunction : List Node :=
  [.seq [.note "grouped", .func "$f" [] [] [.seq [.call "$g" [], .seq []], .instr "drop" []]]]

/-- The leaf beside the comment is the leftmost, at whatever depth the list is laid out. -/
theorem remarkedFault_by_leaves : .list [] ∉ remarkedFault.parts ∧
    (∀ indent, remarkedFault.format indent =
      .error (.unsupported (.other "<class 'NoneType'>"))) ∧
    bodyPlaced groupedFunction ∧ ∃ text, render groupedFunction = .ok text := by
  have filled : .list [] ∉ remarkedFault.parts := by simp [remarkedFault, parts]
  have placed : bodyPlaced groupedFunction := by
    simp [groupedFunction, bodyPlaced, Node.Placed, operandsPlaced]
  obtain ⟨byLeaves, -, -, texts⟩ := faults_by_leaves
  refine ⟨filled, fun indent => ((byLeaves _ filled indent).2 _).mpr ?_, placed, texts _ placed⟩
  exact ⟨[.sym "call", .comment "left"], .unwritable (.other "<class 'NoneType'>"),
    [.unwritable .boolean], rfl, by simp [isWritable], rfl, rfl⟩

end HostGlue.Wat

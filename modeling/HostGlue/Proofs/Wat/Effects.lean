import HostGlue.Wat.Node

/-!
# Effects of a node

A node and the nodes below it in the order in which they take effect: an operand comes before the
instruction that takes it, and operands come from left to right. Statements about what emitted code
does, and in which order, are statements about this list.
-/

namespace HostGlue.Wat

mutual

/-- The node and those below it, each behind its operands. Sequences have no effect of their own. -/
def effects : Node → List Node
  | .setLocal name value => effects value ++ [.setLocal name value]
  | .instr op args => effectsAll args ++ [.instr op args]
  | .load valtype addr => effects addr ++ [.load valtype addr]
  | .store valtype addr value => effects addr ++ (effects value ++ [.store valtype addr value])
  | .call target args => effectsAll args ++ [.call target args]
  | .seq items => effectsAll items
  | node => [node]

def effectsAll : List Node → List Node
  | [] => []
  | node :: rest => effects node ++ effectsAll rest

end

@[simp] theorem effectsAll_nil : effectsAll [] = [] := rfl

@[simp] theorem effectsAll_cons (n : Node) (ns : List Node) :
    effectsAll (n :: ns) = effects n ++ effectsAll ns := rfl

@[simp] theorem effectsAll_append (ns ks : List Node) :
    effectsAll (ns ++ ks) = effectsAll ns ++ effectsAll ks := by
  induction ns with
  | nil => rfl
  | cons n ns ih => rw [List.cons_append, effectsAll_cons, effectsAll_cons, ih, List.append_assoc]

theorem mem_effectsAll {ns : List Node} {x : Node} :
    x ∈ effectsAll ns ↔ ∃ n ∈ ns, x ∈ effects n := by
  induction ns with
  | nil => simp
  | cons n ns ih => simp [ih]

end HostGlue.Wat

import HostGlue.Interface.Kind

/-!
# Pairing of offsets and lengths

A memory offset waits for a length; until it has one no other offset may come, and a length may only
come when an offset waits. Kinds of other parameters may stand anywhere, and the last offset may
stay without a length.
-/

namespace HostGlue.Interface

/-- A break of the pairing rule, at the index of an input. -/
inductive PairingFault where
  | offsetWhileWaiting (index : Nat)
  | lengthWithoutOffset (index : Nat)
  deriving Repr, DecidableEq

/-- Whether an offset waits after the given input, or how the input breaks the rule. -/
def pairStep (waiting : Bool) (index : Nat) (kind : ParamKind) : Except PairingFault Bool :=
  if kind.isOffset then
    if waiting then .error (.offsetWhileWaiting index) else .ok true
  else if kind = .length then
    if waiting then .ok false else .error (.lengthWithoutOffset index)
  else .ok waiting

/-- Walks over the inputs from the given index on. -/
def checkPairingFrom (waiting : Bool) (index : Nat) : List ParamKind → Except PairingFault Unit
  | [] => .ok ()
  | kind :: rest => do
    let waiting ← pairStep waiting index kind
    checkPairingFrom waiting (index + 1) rest

/-- Accepts inputs that keep the pairing rule. -/
def checkPairing (inputs : List ParamKind) : Except PairingFault Unit :=
  checkPairingFrom false 0 inputs

end HostGlue.Interface

import LocalFlow.Function.Basic

/-!
Definitions of locals. A local gets a value from a node that writes it, from a join of control flow,
from the caller if it is a parameter, and otherwise it starts at zero.
-/

namespace LocalFlow

inductive Definition
  /-- The set or tee at `ref`. -/
  | instr (ref : Ref) (index : Nat)
  /-- The value merged on entry to `block`. -/
  | phi (block index : Nat)
  | param (index : Nat)
  | zero (index : Nat)
deriving DecidableEq

namespace Definition

def index : Definition → Nat
  | .instr _ index | .phi _ index | .param index | .zero index => index

def initial (fn : Function) (index : Nat) : Definition :=
  if fn.isParam index then .param index else .zero index

/-- The text for a numbered sort of definition; a sort without a name is written by its number. -/
def describe (sort : Nat) (ref : Ref) (block : Int) (index : Nat) : String :=
  match sort with
  | 0 => s!"instr({ref.text})"
  | 1 => s!"phi(bb_{block}, {index})"
  | 2 => s!"param({index})"
  | 3 => s!"zero({index})"
  | sort => s!"def({sort})"

def text : Definition → String
  | .instr ref index => describe 0 ref (-1) index
  | .phi block index => describe 1 .absent block index
  | .param index => describe 2 .absent (-1) index
  | .zero index => describe 3 .absent (-1) index

end Definition

/-- The merge of the definitions of one local on entry to a block, by the predecessor that control
comes from. -/
structure Phi where
  index : Nat
  block : Nat
  /-- By ascending predecessor. -/
  incoming : List (Nat × Definition) := []

namespace Phi

def definition (phi : Phi) : Definition := .phi phi.block phi.index

/-- Inserts or replaces the definition that comes from `p`, keeping the predecessors in order. -/
def place (p : Nat) (d : Definition) : List (Nat × Definition) → List (Nat × Definition)
  | [] => [(p, d)]
  | entry :: rest =>
    if p < entry.1 then (p, d) :: entry :: rest
    else if p = entry.1 then (p, d) :: rest
    else entry :: place p d rest

def setIncoming (phi : Phi) (p : Nat) (d : Definition) : Phi :=
  { phi with incoming := place p d phi.incoming }

def text (phi : Phi) : String :=
  let entries := phi.incoming.map fun (p, d) => s!"bb_{p}: {d.text}"
  s!"{phi.index} = phi \x7b" ++ ", ".intercalate entries ++ "\x7d"

end Phi

end LocalFlow

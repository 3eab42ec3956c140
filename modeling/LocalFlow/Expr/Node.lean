import LocalFlow.Expr.Literal

/-!
Nodes and their handles. The nodes of a function live side by side in one arena and refer to each
other by position, so a node stays where it is when its surroundings change.
-/

namespace LocalFlow

/-- A handle to a node. A negative handle stands for an absent child. -/
abbrev Ref := Int

namespace Ref

def absent : Ref := -1

def isPresent (r : Ref) : Bool := 0 ≤ r

def text (r : Ref) : String :=
  if r < 0 then "nil" else s!"#{r}"

end Ref

/--
One expression. Which fields count depends on the kind, and so does the meaning of the children:

* a block has its items, a loop its body, an if the condition and one or two arms;
* a branch has a value and a condition, a branch table a value and an index, a return a value, and
  all of these but the index may be absent;
* a select has two values and a condition, a store an address and a value, a call its arguments;
* any other node has its operands in evaluation order.
-/
structure Node where
  kind : Kind := .nop
  type : ValueType := .none
  op : Operator := .add
  /-- The local or global that is accessed. -/
  index : Nat := 0
  value : Literal := {}
  /-- The label carried or targeted, the default target of a branch table, or the callee. -/
  label : String := ""
  /-- The indexed targets of a branch table. -/
  labels : List String := []
  kids : List Ref := []
deriving DecidableEq

namespace Node

def kid (n : Node) (i : Nat) : Ref := n.kids.getD i .absent

/-- The last child: the value written by a set or a tee. -/
def operand (n : Node) : Ref := n.kids.getLast?.getD .absent

/-- A branch that falls through when its condition is zero. -/
def isConditional (n : Node) : Bool := (n.kid 1).isPresent

end Node

end LocalFlow

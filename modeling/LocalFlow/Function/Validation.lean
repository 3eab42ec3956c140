import LocalFlow.Function.Basic
import LocalFlow.Unvisited

/-!
Well-formed functions. The body must be a tree: every handle in range, no node with two parents,
every node with the children its kind asks for, and every local declared. The first offending node,
parents before children, is reported.
-/

namespace LocalFlow

namespace Kind

/-- Least and greatest number of child slots. Blocks and calls take any number. -/
def arity? : Kind → Option (Nat × Option Nat)
  | .nop | .const | .localGet | .globalGet | .unreachable | .memorySize => some (0, some 0)
  | .unary | .localSet | .localTee | .globalSet | .loop | .ret | .drop | .load | .memoryGrow =>
    some (1, some 1)
  | .binary | .br | .brTable | .store => some (2, some 2)
  | .select => some (3, some 3)
  | .ifElse => some (2, some 3)
  | .block | .call => some (0, none)
  | .unknown _ => none

def isOptionalSlot (kind : Kind) (i : Nat) : Bool :=
  match kind with
  | .br | .ret => true
  | .brTable => i = 0
  | _ => false

end Kind

namespace Node

def slotFlaw? (n : Node) (size : Nat) (child : Ref) (i : Nat) : Option Flaw :=
  if child = .absent then
    if n.kind.isOptionalSlot i then none else some (.missingChild n.kind i)
  else if child < 0 || size ≤ child then some (.childOutOfRange i child)
  else none

def flaw? (n : Node) (size : Nat) : Option Flaw :=
  match n.kind.arity? with
  | none => some (.unknownKind n.kind)
  | some (least, most) =>
    if n.kids.length < least || most.any (· < n.kids.length) then
      some (.slotCount n.kind n.kids.length)
    else n.kids.zipIdx.findSome? fun (child, i) => n.slotFlaw? size child i

end Node

namespace Function

def rejection? (fn : Function) (r : Ref) (n : Node) : Option Rejection :=
  match n.flaw? fn.nodes.size with
  | some flaw => some (.malformed fn.name r flaw)
  | none =>
    if n.kind.isLocalAccess && fn.numLocals ≤ n.index then
      some (.localIndex fn.name r n.index fn.numLocals)
    else none

theorem node?_lt_size {fn : Function} {r : Ref} {n : Node} (h : fn.node? r = some n) :
    r.toNat < fn.nodes.size := by
  cases r with
  | ofNat i => exact (Array.getElem?_eq_some_iff.mp h).1
  | negSucc _ => simp [node?] at h

/-- Visits the pending handles and all below them, parents first. -/
def validateFrom (fn : Function) (seen : List Nat) : List Ref → Except Rejection Unit
  | [] => .ok ()
  | r :: pending =>
    if r.isPresent then
      if _ : r.toNat ∈ seen then .error (.malformed fn.name r .secondParent)
      else match _ : fn.node? r with
        | none => .error (.malformed fn.name r .bodyOutOfRange)
        | some n =>
          match fn.rejection? r n with
          | some why => .error why
          | none => fn.validateFrom (r.toNat :: seen) (n.kids ++ pending)
    else fn.validateFrom seen pending
termination_by pending => (unvisited fn.nodes.size seen, pending.length)
decreasing_by
  · exact Prod.Lex.left _ _ (unvisited_cons_lt (node?_lt_size ‹_›) ‹_›)
  · exact Prod.Lex.right _ (by simp)

/-- Accepts exactly the functions whose body is a well-formed tree. An absent body is one. -/
def validate (fn : Function) : Except Rejection Unit :=
  fn.validateFrom [] [fn.body]

end Function

end LocalFlow

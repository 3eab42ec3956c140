import LocalFlow.Function.Basic

/-!
The tree of expressions below a handle. Handles are followed once, in `Function.tree`; every walk
over a function is then a plain recursion on the tree. A handle that names no node becomes a leaf of
its own, so a walk fails only if it comes there. Children are unfolded when a walk asks for them: a
node with many parents stands in many places of the tree, and a walk pays only for those it visits.
-/

namespace LocalFlow

inductive Tree
  | absent
  /-- The handle names no node. -/
  | dangling (r : Ref)
  /-- The nodes above form a path longer than the arena: some node is its own descendant. -/
  | endless (r : Ref)
  | node (r : Ref) (head : Node) (kids : List (Unit → Tree))

/-- Follows handles down to the given depth. -/
def Function.unfold (fn : Function) : Nat → Ref → Tree
  | depth, r =>
    if r.isPresent then
      match fn.node? r, depth with
      | none, _ => .dangling r
      | some _, 0 => .endless r
      | some n, depth + 1 => .node r n (n.kids.map fun kid _ => fn.unfold depth kid)
    else .absent

/-- The tree below `r`. A path without repeated nodes is no longer than the arena. -/
def Function.tree (fn : Function) (r : Ref) : Tree :=
  fn.unfold fn.nodes.size r

namespace Tree

def isPresent : Tree → Bool
  | .absent => false
  | _ => true

mutual

/-- The nodes of the tree, children first, which is the order of evaluation. -/
def postOrder : Tree → Except Failure (List (Ref × Node))
  | .absent => .ok []
  | .dangling _ | .endless _ => .error .outOfRange
  | .node r n kids => return (← postOrderAll kids) ++ [(r, n)]

def postOrderAll : List (Unit → Tree) → Except Failure (List (Ref × Node))
  | [] => .ok []
  | t :: ts => return (← postOrder (t ())) ++ (← postOrderAll ts)

end

mutual

/-- The handles of the tree, parents first. The children of a handle in `skip` are left out, and a
handle in `skip` need not name a node. -/
def preOrder (skip : List Ref) : Tree → Except Failure (List Ref)
  | .absent => .ok []
  | .dangling r | .endless r => if r ∈ skip then .ok [r] else .error .outOfRange
  | .node r _ kids =>
    if r ∈ skip then .ok [r] else return r :: (← preOrderAll skip kids)

def preOrderAll (skip : List Ref) : List (Unit → Tree) → Except Failure (List Ref)
  | [] => .ok []
  | t :: ts => return (← preOrder skip (t ())) ++ (← preOrderAll skip ts)

end

end Tree

namespace Function

/-- The handles below `r`, children first. -/
def postOrder (fn : Function) (r : Ref) : Except Failure (List Ref) :=
  return (← (fn.tree r).postOrder).map (·.1)

/-- The handles below `r`, parents first, without the children of the handles in `skip`. -/
def preOrder (fn : Function) (r : Ref) (skip : List Ref) : Except Failure (List Ref) :=
  (fn.tree r).preOrder skip

end Function

end LocalFlow

import LocalFlow.Graph.Basic
import LocalFlow.Unvisited

/-!
Depth-first orders of the blocks that can be reached from the entry. Successors are explored in the
order of their edges, and a block is finished after all of them.
-/

namespace LocalFlow.Graph

variable {α : Type}

/-- A block on the current path and those of its successors that are still to be explored. -/
abbrev Frame := Nat × List Nat

def framesSize (frames : List Frame) : Nat :=
  (frames.flatMap fun frame => frame.1 :: frame.2).length

/-- Continues a search and lists the blocks in the order in which they are finished. -/
def finishOrder (g : Graph α) (visited : List Nat) : List Frame → List Nat
  | [] => []
  | (b, []) :: frames => b :: g.finishOrder visited frames
  | (b, s :: rest) :: frames =>
    if _ : s < g.size ∧ s ∉ visited then
      g.finishOrder (s :: visited) ((s, g.succ s) :: (b, rest) :: frames)
    else g.finishOrder visited ((b, rest) :: frames)
termination_by frames => (unvisited g.size visited, framesSize frames)
decreasing_by
  · exact Prod.Lex.right _ (by simp [framesSize])
  · rename_i h
    exact Prod.Lex.left _ _ (unvisited_cons_lt h.1 h.2)
  · exact Prod.Lex.right _ (by simp [framesSize])

/-- The reachable blocks, each after its unexplored successors. An entry that names no block is an
error, unless there are no blocks at all, and so is an edge that leads to no block. -/
def postOrder (g : Graph α) : Except Failure (List Nat) := do
  if g.blocks.isEmpty then return []
  let e ← found g.start?
  let order := g.finishOrder [e] [(e, g.succ e)]
  let _ ← (order.flatMap g.succ).mapM (fetch g.blocks)
  return order

def reversePostOrder (g : Graph α) : Except Failure (List Nat) :=
  return (← g.postOrder).reverse

def reachable (g : Graph α) : Except Failure (List Bool) := do
  let order ← g.postOrder
  return (List.range g.size).map (· ∈ order)

def exits (g : Graph α) : Except Failure (List Nat) := do
  let order ← g.postOrder
  return (List.range g.size).filter fun b => b ∈ order && (g.succ b).isEmpty

end LocalFlow.Graph

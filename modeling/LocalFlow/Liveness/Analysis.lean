import LocalFlow.Function.Validation
import LocalFlow.Liveness.Overlap

/-!
All that slot allocation needs to know of a function: its actions with their flags, the live locals
of each block and the interferences.
-/

namespace LocalFlow

structure Analysis where
  graph : Graph Action
  live : Liveness
  interference : Interference
  /-- How many pairs interfere. -/
  numEdges : Nat

namespace Analysis

/-- The nodes that write a value nobody reads, by block and position. -/
def ineffective (a : Analysis) : List Ref :=
  a.graph.blocks.toList.flatMap fun block =>
    (block.items.filter fun x => x.access = .set && !x.effective).map (·.origin)

end Analysis

def Function.analyze (fn : Function) : Except Failure Analysis := do
  fn.validate.mapError .rejected
  let g ← fn.actionGraph
  let live := g.liveness
  let graph := g.markRanges live
  let interference ← fn.interference graph live
  return ⟨graph, live, interference, (← interference.edges).length⟩

end LocalFlow

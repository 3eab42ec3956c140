import LocalFlow.Coalescing.Coloring
import LocalFlow.Coalescing.Redirection
import LocalFlow.Liveness.Analysis

/-!
Coalescing the locals of a function: locals that do not interfere come to share a slot, and the
stores and copies that have become redundant are removed.
-/

namespace LocalFlow

structure Summary where
  /-- The slot of each local that there was. -/
  mapping : Array Nat
  before : Nat
  after : Nat
  stores : Nat
  copies : Nat

structure Coalesced where
  function : Function
  summary : Summary
  /-- What was known of the function before. -/
  analysis : Analysis

/-- Changes a function over to the given slots. The declared variables become one for each class. -/
def Function.applyColoring (fn : Function) (classes : Coloring) (ineffective : List Ref) :
    Except Failure (Function × Summary) := do
  let mapping := classes.mapping fn
  let w ← Redirection.remap mapping ineffective { function := fn }
  let w ← { w with function := { w.function with vars := classes.vars fn } }.removeDeadStores
  return (w.function, ⟨mapping, fn.numLocals, w.function.numLocals, w.stores, w.copies⟩)

def Function.coalesce {G : Type} (fn : Function) (lib : GraphLibrary G) (order : SlotOrder) :
    Except Failure Coalesced :=
  Except.mapError (.inPass .coalescing fn.name) do
    let analysis ← fn.analyze
    let classes ← fn.color lib analysis.interference order
    let (function, summary) ← fn.applyColoring classes analysis.ineffective
    return ⟨function, summary, analysis⟩

end LocalFlow

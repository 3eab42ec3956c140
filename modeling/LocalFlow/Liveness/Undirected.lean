import LocalFlow.IndexSet
import LocalFlow.Liveness.Interference

/-!
Undirected graphs, as a library keeps them, and interferences as such a graph.
-/

namespace LocalFlow

/-- A library of undirected graphs whose nodes are numbers. A graph grows by one node or one edge at a
time, and the library may refuse either. -/
structure GraphLibrary (G : Type) where
  new : G
  addNode : G → Nat → Option G
  setEdge : G → Nat → Nat → Option G
  nodes : G → List Nat
  /-- The other ends of the edges at a node. -/
  neighbors : G → Nat → List Nat

def GraphLibrary.lists : GraphLibrary (IndexSet × List (Nat × Nat)) where
  new := (∅, [])
  addNode g v := if v ∈ g.1 then none else some (g.1.insert v, g.2)
  setEdge g x y := if x = y then none else some ((g.1.insert x).insert y, (x, y) :: g.2)
  nodes g := g.1.toList
  neighbors g u := (IndexSet.ofList (Interference.partners g.2 u)).toList

/-- The relation as a graph of a library, with a node for each local. -/
def Interference.toGraph {G : Type} (m : Interference) (lib : GraphLibrary G) : Except Failure G := do
  let g ← (List.range m.numLocals).foldlM (fun g v => found (lib.addNode g v)) lib.new
  (← m.edges).foldlM (fun g e => found (lib.setEdge g e.1 e.2)) g

end LocalFlow

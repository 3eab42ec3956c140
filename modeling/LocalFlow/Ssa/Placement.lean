import LocalFlow.Graph.Dominators
import LocalFlow.Ssa.Definition

/-!
Where definitions meet. A local needs a merge wherever the frontier of one of its definitions lies;
a merge is a definition too, so merges spread until nothing is new.
-/

namespace LocalFlow

namespace Function

def accessesIn (fn : Function) (items : List Ref) : List (Ref × Node) :=
  items.filterMap fun r =>
    match fn.node? r with
    | some n => if n.kind.isLocalAccess then some (r, n) else none
    | none => none

def checkAccess (fn : Function) (r : Ref) : Except Failure Unit := do
  let n ← fn.node r
  if n.kind.isLocalAccess && fn.numLocals ≤ n.index then
    .error (.rejected (.localIndex fn.name r n.index fn.numLocals))

def checkAccesses (fn : Function) (g : Graph Ref) (t : DominatorTree) : Except Failure Unit :=
  forM ((List.range g.size).filter t.isReachable) fun b => forM (g.items b) fn.checkAccess

def writesIn (fn : Function) (g : Graph Ref) (v b : Nat) : Bool :=
  (fn.accessesIn (g.items b)).any fun (_, n) => n.kind.isLocalWrite && n.index = v

/-- The blocks that define local `v`: the entry, which defines every local, and then the other
reachable blocks that write it. -/
def definitionSites (fn : Function) (g : Graph Ref) (t : DominatorTree) (v : Nat) : List Nat :=
  let written := (List.range g.size).filter fun b => t.isReachable b && fn.writesIn g v b
  match g.start? with
  | some e => e :: written.filter (· ≠ e)
  | none => written

end Function

namespace DominatorTree

def newMerges (t : DominatorTree) (merges : List Nat) (b : Nat) : List Nat :=
  (t.frontier b).toList.filter fun f => f < t.size && f ∉ merges

/-- Spreads merges from the pending definitions. A new merge is a pending definition, unless its
block is a definition site and so pending or done by itself. -/
def spread (t : DominatorTree) (sites merges : List Nat) : List Nat → List Nat
  | [] => merges
  | b :: pending =>
    t.spread sites (merges ++ t.newMerges merges b)
      (pending ++ (t.newMerges merges b).filter (· ∉ sites))
termination_by pending => (unvisited t.size merges, pending.length)
decreasing_by
  cases hnew : t.newMerges merges b with
  | nil => exact (by simpa using Prod.Lex.right _ (by simp))
  | cons f rest =>
    refine Prod.Lex.left _ _ (unvisited_append_lt (by simp) fun i hi => ?_)
    rw [← hnew] at hi
    simpa using (List.mem_filter.mp hi).2

def mergesOf (t : DominatorTree) (sites : List Nat) : List Nat :=
  t.spread sites [] sites

end DominatorTree

/-- The merges of each block by ascending local, before any incoming definition is known. -/
def Function.placePhis (fn : Function) (g : Graph Ref) (t : DominatorTree) : Array (List Phi) :=
  let merges := (List.range fn.numLocals).map fun v => (v, t.mergesOf (fn.definitionSites g t v))
  ((List.range g.size).map fun b =>
    merges.filterMap fun (v, blocks) =>
      if b ∈ blocks then some { index := v, block := b } else none).toArray

end LocalFlow

import LocalFlow.Ssa.Placement

/-!
Renaming: which definition each read of a local sees. Blocks are visited down the dominator tree
with one stack of definitions for each local; a block pushes what it defines, and pops it again
after the blocks that it dominates. A node, a block or a stack that does not exist is an error, and
so is a stack without a definition.
-/

namespace LocalFlow

structure Renaming where
  /-- For each local its definitions, the current one first. -/
  reaching : Array (List Definition)
  phis : Array (List Phi)
  /-- What each read sees, the last read first. -/
  reads : List (Ref × Definition) := []
  /-- The blocks visited so far, the last one first. -/
  visited : List Nat := []

namespace Renaming

def start (fn : Function) (phis : Array (List Phi)) : Renaming where
  reaching := ((List.range fn.numLocals).map fun v => [Definition.initial fn v]).toArray
  phis := phis

def top (s : Renaming) (v : Nat) : Except Failure Definition := do
  found (← fetch s.reaching v).head?

def push (s : Renaming) (d : Definition) : Except Failure Renaming := do
  let stack ← fetch s.reaching d.index
  return { s with reaching := s.reaching.setIfInBounds d.index (d :: stack) }

def pop (s : Renaming) (v : Nat) : Except Failure Renaming := do
  let _ :: stack ← fetch s.reaching v | .error .outOfRange
  return { s with reaching := s.reaching.setIfInBounds v stack }

/-- One node of a block: a read sees the current definition, a write becomes it. -/
def access (fn : Function) (s : Renaming) (r : Ref) : Except Failure Renaming := do
  let n ← fn.node r
  if n.kind.isLocalWrite then s.push (.instr r n.index)
  else if n.kind.isLocalAccess then return { s with reads := (r, ← s.top n.index) :: s.reads }
  else return s

def phisAt (s : Renaming) (b : Nat) : List Phi := s.phis.getD b []

/-- Hands the current definitions to the merges of `succ`, as coming from `b`. -/
def feed (b : Nat) (s : Renaming) (succ : Nat) : Except Failure Renaming := do
  let filled ← (s.phisAt succ).mapM fun phi => return phi.setIncoming b (← s.top phi.index)
  return { s with phis := s.phis.setIfInBounds succ filled }

/-- Visits block `b` itself: its merges, its nodes, and the merges of its successors. -/
def enterBlock (fn : Function) (g : Graph Ref) (b : Nat) (s : Renaming) :
    Except Failure Renaming := do
  let block ← fetch g.blocks b
  let s ← (s.phisAt b).foldlM (fun s phi => s.push phi.definition)
    { s with visited := b :: s.visited }
  let s ← block.items.foldlM (access fn) s
  block.succ.foldlM (feed b) s

/-- The locals that block `b` pushes a definition of, once for each definition. -/
def pushedIn (fn : Function) (g : Graph Ref) (b : Nat) (s : Renaming) : List Nat :=
  (s.phisAt b).map (·.index) ++
    ((fn.accessesIn (g.items b)).filter fun (_, n) => n.kind.isLocalWrite).map (·.2.index)

/-- Visits block `b` and the blocks below it in the dominator tree, which is not deeper than the
given depth. -/
def visit (fn : Function) (g : Graph Ref) (t : DominatorTree) :
    Nat → Nat → Renaming → Except Failure Renaming
  | 0, _, _ => .error .outOfRange
  | depth + 1, b, s => do
    let pushed := pushedIn fn g b s
    let s ← enterBlock fn g b s
    let s ← (t.children b).foldlM (fun s c => visit fn g t depth c s) s
    pushed.foldlM pop s

end Renaming

end LocalFlow

import LocalFlow.Graph.Order
import LocalFlow.IndexSet

/-!
Dominators. A block dominates another if every path from the entry to the other passes through it.
Immediate dominators are found by passes over the reachable blocks in reverse post order: in each
pass a block takes the nearest common ancestor of those predecessors that have one already, until a
pass changes nothing. Dominance, the dominator tree, common dominators and dominance frontiers are
read off the immediate dominators. Unreachable blocks take part in none of these relations. A block
that does not exist is an error, and so is a way up that does not lead to the entry.
-/

namespace LocalFlow

/-- For each block its immediate dominator, once it is known. The entry has itself. -/
abbrev Idoms := Array (Option Nat)

namespace Idoms

def get? (idoms : Idoms) (b : Nat) : Option Nat := idoms[b]?.join

def parent (idoms : Idoms) (b : Nat) : Except Failure Nat := do found (← fetch idoms b)

/-- The nearest common ancestor of `a` and `b`: the block of higher rank moves up until both meet.
Ranks fall on the way up, so the sum of the ranks bounds the number of moves. -/
def meet (idoms : Idoms) (rank : Nat → Nat) : Nat → Nat → Nat → Except Failure Nat
  | 0, _, _ => .error .outOfRange
  | moves + 1, a, b =>
    if a = b then .ok a
    else if rank b < rank a then do meet idoms rank moves (← idoms.parent a) b
    else do meet idoms rank moves a (← idoms.parent b)

def intersect (idoms : Idoms) (rank : Nat → Nat) (a b : Nat) : Except Failure Nat :=
  meet idoms rank (rank a + rank b + 1) a b

def consider (idoms : Idoms) (rank : Nat → Nat) (best : Option Nat) (p : Nat) :
    Except Failure (Option Nat) := do
  match ← fetch idoms p, best with
  | none, best => return best
  | some _, none => return some p
  | some _, some d => return some (← idoms.intersect rank p d)

/-- The nearest common ancestor of those among the given predecessors that have a dominator. -/
def candidate (idoms : Idoms) (rank : Nat → Nat) (preds : List Nat) : Except Failure (Option Nat) :=
  preds.foldlM (idoms.consider rank) none

def update (rank : Nat → Nat) (preds : Nat → List Nat) (state : Idoms × Bool) (b : Nat) :
    Except Failure (Idoms × Bool) := do
  match ← state.1.candidate rank (preds b) with
  | some d =>
    if (← fetch state.1 b) = some d then return state
    else return (← assign state.1 b (some d), true)
  | none => return state

def pass (idoms : Idoms) (rank : Nat → Nat) (preds : Nat → List Nat) (blocks : List Nat) :
    Except Failure (Idoms × Bool) :=
  blocks.foldlM (update rank preds) (idoms, false)

def settle (rank : Nat → Nat) (preds : Nat → List Nat) (blocks : List Nat) :
    Nat → Idoms → Except Failure Idoms
  | 0, _ => .error .outOfRange
  | passes + 1, idoms => do
    let next ← idoms.pass rank preds blocks
    if next.2 then settle rank preds blocks passes next.1 else return next.1

end Idoms

structure DominatorTree where
  entry : Int
  /-- The reachable blocks in reverse post order. -/
  order : List Nat
  /-- For each block its position in the order. -/
  ranks : Array (Option Nat)
  idoms : Idoms
  /-- For each position in the order the way from its block up to the entry. -/
  ways : Array (List Nat)
  frontiers : Array IndexSet

namespace DominatorTree

def size (t : DominatorTree) : Nat := t.ranks.size

def rank? (t : DominatorTree) (b : Nat) : Option Nat := t.ranks[b]?.join

def isReachable (t : DominatorTree) (b : Nat) : Bool := (t.rank? b).isSome

/-- The immediate dominator of a reachable block; that of the entry is the entry. -/
def idom? (t : DominatorTree) (b : Nat) : Option Nat :=
  if t.isReachable b then t.idoms.get? b else none

/-- The way from `b` up to the entry, which takes no more than so many steps. -/
def chain (idoms : Idoms) (entry : Int) : Nat → Nat → Except Failure (List Nat)
  | 0, _ => .error .outOfRange
  | steps + 1, b =>
    if (b : Int) = entry then return [b]
    else return b :: (← chain idoms entry steps (← idoms.parent b))

/-- The dominators of `b`, nearest first: `b` itself and all blocks above it in the tree. -/
def ancestors (t : DominatorTree) (b : Nat) : List Nat :=
  match t.rank? b with
  | some i => t.ways.getD i []
  | none => []

def dominates (t : DominatorTree) (a b : Nat) : Bool := a ∈ t.ancestors b

def strictlyDominates (t : DominatorTree) (a b : Nat) : Bool := a ≠ b && t.dominates a b

def dominated (t : DominatorTree) (a : Nat) : List Nat :=
  (List.range t.size).filter (t.dominates a)

def children (t : DominatorTree) (b : Nat) : List Nat :=
  (List.range t.size).filter fun c => (c : Int) ≠ t.entry && t.idom? c = some b

/-- The nearest block that dominates both, if both can be reached: the first block on the way up from
`b` that is on the way up from `a` as well. No way up goes beyond the entry. -/
def commonDominator? (t : DominatorTree) (a b : Nat) : Option Nat :=
  if t.isReachable a && t.isReachable b then
    let above := t.ancestors a
    (t.ancestors b).find? fun x => x ∈ above || (x : Int) = t.entry
  else none

def frontier (t : DominatorTree) (b : Nat) : IndexSet :=
  if t.isReachable b then t.frontiers.getD b ∅ else ∅

/-- The blocks whose frontier contains `b`: on the way up from each reachable predecessor, those
before the first strict dominator of `b`. A block with a single way in is in no frontier; the entry
counts one way in from outside. -/
def runners (t : DominatorTree) (preds : List Nat) (b : Nat) : List Nat :=
  let above := t.ancestors b
  let ways := preds.filter t.isReachable
  if ways.length + (if (b : Int) = t.entry then 1 else 0) < 2 then []
  else ways.flatMap fun p => (t.ancestors p).takeWhile fun x => x = b || x ∉ above

def withFrontiers (t : DominatorTree) (preds : Nat → List Nat) : DominatorTree :=
  let start := Array.replicate t.size ∅
  let frontiers := t.order.foldl (fun table b =>
    (t.runners (preds b) b).foldl (fun table x => table.modify x (·.insert b)) table) start
  { t with frontiers }

end DominatorTree

namespace Graph

variable {α : Type}

def ranksOf (size : Nat) (order : List Nat) : Array (Option Nat) :=
  order.zipIdx.foldl (fun ranks (b, i) => ranks.setIfInBounds b (some i))
    (Array.replicate size none)

/-- The immediate dominators of the blocks in the given order. Each pass but the last moves some
block up to one of fewer than `size` places. -/
def immediateDominators (g : Graph α) (order : List Nat) (rank : Nat → Nat) :
    Except Failure Idoms := do
  let unknown := Array.replicate g.size none
  match order with
  | [] => return unknown
  | e :: rest =>
    let start ← assign unknown e (some e)
    Idoms.settle rank g.pred rest ((g.size + 1) * (g.size + 1)) start

/-- The dominators of a graph. The tree and the frontiers are read off the ways up from all reachable
blocks; for the frontiers all their predecessors are looked up. -/
def dominatorTree (g : Graph α) : Except Failure DominatorTree := do
  let order ← g.reversePostOrder
  let ranks := ranksOf g.size order
  let rank (b : Nat) : Nat := ranks[b]?.join.getD 0
  let idoms ← g.immediateDominators order rank
  let ways ← order.mapM (DominatorTree.chain idoms g.entry g.size)
  let _ ← (order.flatMap g.pred).mapM (fetch ranks)
  return DominatorTree.withFrontiers ⟨g.entry, order, ranks, idoms, ways.toArray, #[]⟩ g.pred

end Graph

end LocalFlow

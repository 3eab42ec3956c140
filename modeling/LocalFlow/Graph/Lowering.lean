import LocalFlow.Function.Tree
import LocalFlow.Graph.Basic

/-!
Lowering a tree to a control-flow graph. Blocks, loops and ifs shape the graph; every other node is
offered to a recorder at the point where it is evaluated. A branch must name an enclosing labelled
block or loop: a branch to a loop goes back to its head, a branch to a block goes to the block of
the graph that follows it, which exists only if some branch asks for it.
-/

namespace LocalFlow

/-- An enclosing construct that a branch may name. -/
inductive Scope
  /-- The block that follows is made when the first branch asks for it. -/
  | block (label : String) (exit : Option Nat)
  | loop (label : String) (head : Nat)

def Scope.label : Scope → String
  | .block label _ => label
  | .loop label _ => label

/-- The block that will be filled when the scope is left. -/
def Scope.exit? : Scope → Option Nat
  | .block _ exit => exit
  | .loop _ _ => none

/-- A graph under construction, with the enclosing constructs, innermost first, and the block that
is being filled. -/
structure Lowering (α : Type) where
  graph : Graph α
  scopes : List Scope
  current : Nat

namespace Lowering

variable {α : Type}

def start : Lowering α where
  graph := { blocks := #[{}] }
  scopes := []
  current := 0

def fresh (s : Lowering α) : Lowering α × Nat :=
  let (graph, b) := s.graph.addBlock []
  ({ s with graph }, b)

def moveTo (s : Lowering α) (b : Nat) : Lowering α := { s with current := b }

def linkTo (s : Lowering α) (b : Nat) : Except Failure (Lowering α) :=
  return { s with graph := ← s.graph.addEdge s.current b }

def goTo (s : Lowering α) (b : Nat) : Except Failure (Lowering α) :=
  return (← s.linkTo b).moveTo b

def fork (s : Lowering α) (b c : Nat) : Except Failure (Lowering α) := do
  let s ← s.linkTo b
  return (← s.linkTo c).moveTo b

/-- Goes on in a new block to which nothing leads yet. -/
def moveOn (s : Lowering α) : Lowering α :=
  let (s, next) := s.fresh
  s.moveTo next

/-- Goes on in a new block to which the current one falls through. -/
def fallOn (s : Lowering α) : Except Failure (Lowering α) :=
  let (s, next) := s.fresh
  s.goTo next

def record (recorder : Ref → Option α) (r : Ref) (s : Lowering α) : Except Failure (Lowering α) :=
  match recorder r with
  | some item => return { s with graph := ← s.graph.addItem s.current item }
  | none => .ok s

def enter (s : Lowering α) (scope : Scope) : Lowering α :=
  { s with scopes := scope :: s.scopes }

def leave (s : Lowering α) : Except Failure (Lowering α × Scope) :=
  match s.scopes with
  | scope :: scopes => .ok ({ s with scopes }, scope)
  | [] => .error .outOfRange

def goToExit (s : Lowering α) (scope : Scope) : Except Failure (Lowering α) :=
  match scope.exit? with
  | some exit => s.goTo exit
  | none => .ok s

/-- Leaves the innermost block `r`, through the block that follows it if a branch asked for one. -/
def leaveBlock (s : Lowering α) (r : Ref) : Except Failure (Lowering α) := do
  let (s, scope) ← s.leave
  let s ← s.goToExit scope
  return { s with graph := s.graph.setTarget r { exit := s.current } }

/-- Enters the loop `r`: its head is linked to, and its exit is made along with it. -/
def enterLoop (s : Lowering α) (r : Ref) (label : String) : Except Failure (Lowering α × Nat) := do
  let (s, head) := s.fresh
  let (s, exit) := s.fresh
  let s ← s.goTo head
  let graph := s.graph.setTarget r { exit, restart := some head }
  return ({ s with graph }.enter (.loop label head), exit)

def leaveLoop (s : Lowering α) (exit : Nat) : Except Failure (Lowering α) := do
  let (s, _) ← s.leave
  s.goTo exit

/-- The target of the innermost scope with the given label. A block that no branch has named yet
takes `next` as its exit. -/
def scopeTarget? (label : String) (next : Nat) : List Scope → Option (Nat × List Scope)
  | [] => none
  | scope :: rest =>
    if scope.label = label then
      match scope with
      | .loop _ head => some (head, scope :: rest)
      | .block _ (some exit) => some (exit, scope :: rest)
      | .block _ none => some (next, .block label (some next) :: rest)
    else (scopeTarget? label next rest).map fun (b, scopes) => (b, scope :: scopes)

/-- The block that a branch to `label` goes to. No construct is named by the empty label. -/
def resolve (s : Lowering α) (label : String) : Except Failure (Lowering α × Nat) :=
  match if label = "" then none else scopeTarget? label s.graph.size s.scopes with
  | some (b, scopes) =>
    let s := if b < s.graph.size then s else s.fresh.1
    .ok ({ s with scopes }, b)
  | none => .error (.rejected (.unresolvedLabel label))

def resolveAll (s : Lowering α) : List String → Except Failure (Lowering α × List Nat)
  | [] => .ok (s, [])
  | label :: labels => do
    let (s, b) ← s.resolve label
    let (s, bs) ← s.resolveAll labels
    return (s, b :: bs)

mutual

/-- Lowers a tree, beginning in the current block. -/
def visit (recorder : Ref → Option α) : Tree → Lowering α → Except Failure (Lowering α)
  | .absent, s => .ok s
  | .dangling _, _ | .endless _, _ => .error .outOfRange
  | .node r n kids, s =>
    match n.kind with
    | .block => do
      let s ← visitAll recorder kids (s.enter (.block n.label none))
      s.leaveBlock r
    | .loop => do
      let (s, exit) ← s.enterLoop r n.label
      let s ← visitSlot recorder kids 0 s
      s.leaveLoop exit
    | .ifElse => do
      let s ← visitSlot recorder kids 0 s
      let (s, ifTrue) := s.fresh
      if (n.kid 2).isPresent then
        let (s, ifFalse) := s.fresh
        let (s, join) := s.fresh
        let s ← visitSlot recorder kids 1 (← s.fork ifTrue ifFalse)
        let s ← s.linkTo join
        let s ← visitSlot recorder kids 2 (s.moveTo ifFalse)
        s.goTo join
      else
        let (s, join) := s.fresh
        let s ← visitSlot recorder kids 1 (← s.fork ifTrue join)
        s.goTo join
    | .br => do
      let s ← visitAll recorder kids s
      let (s, target) ← s.resolve n.label
      let s ← s.record recorder r
      let s ← s.linkTo target
      if n.isConditional then s.fallOn else .ok s.moveOn
    | .brTable => do
      let s ← visitAll recorder kids s
      let (s, targets) ← s.resolveAll (n.labels ++ [n.label])
      let s ← s.record recorder r
      return (← targets.foldlM linkTo s).moveOn
    | .ret | .unreachable => do
      let s ← visitAll recorder kids s
      return (← s.record recorder r).moveOn
    | _ => do
      let s ← visitAll recorder kids s
      s.record recorder r

def visitAll (recorder : Ref → Option α) :
    List (Unit → Tree) → Lowering α → Except Failure (Lowering α)
  | [], s => .ok s
  | t :: ts, s => do visitAll recorder ts (← visit recorder (t ()) s)

def visitSlot (recorder : Ref → Option α) :
    List (Unit → Tree) → Nat → Lowering α → Except Failure (Lowering α)
  | [], _, s => .ok s
  | t :: _, 0, s => visit recorder (t ()) s
  | _ :: ts, i + 1, s => visitSlot recorder ts i s

end

end Lowering

namespace Function

variable {α : Type}

/-- The control-flow graph of the tree below `root`, with what the recorder keeps of its nodes. -/
def lower (fn : Function) (root : Ref) (recorder : Ref → Option α) : Except Failure (Graph α) :=
  return (← Lowering.visit recorder (fn.tree root) .start).graph

def nodeGraph (fn : Function) : Except Failure (Graph Ref) :=
  fn.lower fn.body some

def readIndex? (fn : Function) (r : Ref) : Option Nat :=
  match fn.node? r with
  | some n => if n.kind = .localGet then some n.index else none
  | none => none

end Function

end LocalFlow

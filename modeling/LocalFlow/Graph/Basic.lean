import LocalFlow.Failure

/-!
Control-flow graphs. Blocks are numbered in the order in which they were added; an edge is recorded
at both of its ends.
-/

namespace LocalFlow

/-- A basic block: its number, its neighbours in the order of linking, and what was recorded in it. -/
structure Block (α : Type) where
  id : Nat := 0
  pred : List Nat := []
  succ : List Nat := []
  items : List α := []

/-- Where control goes when a labelled construct is left, and where a loop starts over. -/
structure Target where
  exit : Nat
  restart : Option Nat := none
deriving DecidableEq

structure Graph (α : Type) where
  /-- Names a block once there is one; any number can be set. -/
  entry : Int := 0
  blocks : Array (Block α) := #[]
  /-- The targets of the labelled constructs, by ascending handle. -/
  targets : List (Ref × Target) := []

namespace Graph

variable {α : Type}

def size (g : Graph α) : Nat := g.blocks.size

def succ (g : Graph α) (b : Nat) : List Nat := (g.blocks[b]?.map (·.succ)).getD []

def pred (g : Graph α) (b : Nat) : List Nat := (g.blocks[b]?.map (·.pred)).getD []

def items (g : Graph α) (b : Nat) : List α := (g.blocks[b]?.map (·.items)).getD []

def start? (g : Graph α) : Option Nat :=
  match g.entry with
  | .ofNat e => if e < g.size then some e else none
  | .negSucc _ => none

def addBlock (g : Graph α) (items : List α) : Graph α × Nat :=
  ({ g with blocks := g.blocks.push { id := g.size, items } }, g.size)

/-- Links two blocks, unless they are linked already. -/
def link (g : Graph α) (a b : Nat) : Graph α :=
  if b ∈ g.succ a then g
  else
    let blocks := g.blocks.modify a fun x => { x with succ := x.succ ++ [b] }
    { g with blocks := blocks.modify b fun x => { x with pred := x.pred ++ [a] } }

/-- Links two blocks that must both exist. -/
def addEdge (g : Graph α) : Int → Int → Except Failure (Graph α)
  | .ofNat a, .ofNat b =>
    if a < g.size && b < g.size then .ok (g.link a b) else .error .outOfRange
  | _, _ => .error .outOfRange

def record (g : Graph α) (b : Nat) (item : α) : Graph α :=
  { g with blocks := g.blocks.modify b fun x => { x with items := x.items ++ [item] } }

/-- Appends an item to a block that must exist. -/
def addItem (g : Graph α) (b : Nat) (item : α) : Except Failure (Graph α) :=
  if b < g.size then .ok (g.record b item) else .error .outOfRange

/-- Inserts or replaces the target of a handle, keeping the handles in order. -/
def placeTarget (r : Ref) (target : Target) : List (Ref × Target) → List (Ref × Target)
  | [] => [(r, target)]
  | entry :: rest =>
    if r < entry.1 then (r, target) :: entry :: rest
    else if r = entry.1 then (r, target) :: rest
    else entry :: placeTarget r target rest

def setTarget (g : Graph α) (r : Ref) (target : Target) : Graph α :=
  { g with targets := placeTarget r target g.targets }

def target? (g : Graph α) (r : Ref) : Option Target := g.targets.lookup r

def numEdges (g : Graph α) : Nat :=
  (g.blocks.toList.flatMap fun b => b.succ).length

end Graph

end LocalFlow

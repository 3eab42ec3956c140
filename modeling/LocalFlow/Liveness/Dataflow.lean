import LocalFlow.Liveness.Action

/-!
Live locals. A local is live where some way on reads it before writing it. The sets at both ends of
every block are found by passes over the blocks, last block first, that only ever add members,
until a pass adds none.
-/

namespace LocalFlow

structure Liveness where
  ins : Array IndexSet
  outs : Array IndexSet
deriving DecidableEq

namespace Liveness

def empty (size : Nat) : Liveness := ⟨Array.replicate size ∅, Array.replicate size ∅⟩

def liveIn (live : Liveness) (b : Nat) : IndexSet := live.ins.getD b ∅

def liveOut (live : Liveness) (b : Nat) : IndexSet := live.outs.getD b ∅

def through (actions : List Action) (out : IndexSet) : IndexSet :=
  actions.foldr Action.before out

/-- Adds to the sets of block `b` what its successors and its actions ask for, and notes whether
that was anything new. -/
def update (g : Graph Action) (state : Liveness × Bool) (b : Nat) : Liveness × Bool :=
  let (live, changed) := state
  let out := (g.succ b).foldl (fun out s => out ∪ live.liveIn s) (live.liveOut b)
  let into := live.liveIn b ∪ through (g.items b) out
  (⟨live.ins.setIfInBounds b into, live.outs.setIfInBounds b out⟩,
    changed || out ≠ live.liveOut b || into ≠ live.liveIn b)

def iterate (g : Graph Action) (live : Liveness) : Liveness × Bool :=
  (List.range g.size).reverse.foldl (update g) (live, false)

def settle (g : Graph Action) : Nat → Liveness → Liveness
  | 0, live => live
  | passes + 1, live =>
    match live.iterate g with
    | (live, true) => settle g passes live
    | (live, false) => live

/-- What each pass left behind, up to the first one that added nothing, at most so many. -/
def passes (g : Graph Action) : Nat → Liveness → List (Liveness × Bool)
  | 0, _ => []
  | count + 1, live =>
    let result := live.iterate g
    result :: if result.2 then passes g count result.1 else []

def dump (live : Liveness) : String :=
  let set (s : IndexSet) : String :=
    if s.size = 0 then s!"(liveness.LiveSet) {s.text}"
    else s!"(liveness.LiveSet) (len={s.size}) {s.text}"
  let sets (field : String) (xs : Array IndexSet) : String :=
    s!"{field}: " ++ Text.listing 4 "liveness.LiveSet" (xs.toList.map set)
  "(*liveness.Liveness)(" ++ Text.braces 0 [sets "In" live.ins, sets "Out" live.outs] ++ ")\n"

end Liveness

namespace Graph

def locals (g : Graph Action) : IndexSet :=
  IndexSet.ofList (g.blocks.toList.flatMap fun b => b.items.map (·.index))

/-- Every pass but the last adds a local to one of the two sets of some block. -/
def passBound (g : Graph Action) : Nat := 2 * g.size * g.locals.size + 1

def liveness (g : Graph Action) : Liveness :=
  Liveness.settle g g.passBound (.empty g.size)

def livenessPasses (g : Graph Action) : List (Liveness × Bool) :=
  Liveness.passes g g.passBound (.empty g.size)

end Graph

end LocalFlow

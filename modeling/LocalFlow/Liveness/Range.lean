import LocalFlow.Liveness.Dataflow

/-!
Live ranges within a block. Walking a block backwards from the locals live on exit shows which
writes are read later on, and which reads are the last of a value.
-/

namespace LocalFlow

namespace Action

def mark (a : Action) (live : IndexSet) : Action :=
  match a.access with
  | .get => { a with endsRange := a.index ∉ live }
  | .set => { a with effective := a.index ∈ live }

/-- Sets the flags of a run of actions from the locals live after it, and gives the locals live
before it as well. -/
def markAll (actions : List Action) (out : IndexSet) : List Action × IndexSet :=
  actions.foldr (fun a (rest, live) => (a.mark live :: rest, a.before live)) ([], out)

end Action

def Graph.markRanges (g : Graph Action) (live : Liveness) : Graph Action :=
  { g with
    blocks := g.blocks.mapIdx fun b block =>
      { block with items := (Action.markAll block.items (live.liveOut b)).1 } }

end LocalFlow

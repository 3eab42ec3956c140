import LocalFlow.Liveness.Interference
import LocalFlow.Liveness.Range

/-!
Overlapping live ranges. Walking a block forwards, every local gets a number for the value that it
holds: locals with the same number hold the same value and may share a slot even while both are
live. A write that is read later on interferes with every live local of another number.
-/

namespace LocalFlow

/-- The state of a walk. Value numbers and interferences are carried from block to block. -/
structure Overlap where
  live : IndexSet := ∅
  /-- The last value number handed out. -/
  last : Nat := 0
  /-- For each local the number of its value; zero is the number of the value zero. -/
  values : Array Nat
  interference : Interference

namespace Overlap

def start (numLocals : Nat) : Except Failure Overlap := do
  let interference ← Interference.ofSize numLocals
  return { values := Array.replicate numLocals 0, interference }

def setValue (w : Overlap) (v number : Nat) : Except Failure Overlap :=
  return { w with values := ← assign w.values v number }

def setFresh (w : Overlap) (v : Nat) : Except Failure Overlap :=
  { w with last := w.last + 1 }.setValue v (w.last + 1)

/-- Starts a block with the given live locals. Where `zeroed` holds of a local, it is zero; nothing
is known of the others. -/
def enterBlock (w : Overlap) (live : IndexSet) (zeroed : Nat → Bool) : Except Failure Overlap :=
  live.toList.foldlM (fun w v => if zeroed v then w.setValue v 0 else w.setFresh v)
    { w with live }

/-- Local `v` takes the number of the local it is copied from, or a fresh one. -/
def renumber (w : Overlap) (v : Nat) (copy : Option Nat) : Except Failure Overlap :=
  match copy with
  | some source => do w.setValue v (← fetch w.values source)
  | none => w.setFresh v

def collide (w : Overlap) (v : Nat) : Except Failure Interference := do
  let own ← fetch w.values v
  w.live.toList.foldlM (fun m u =>
    if u = v then .ok m
    else do if (← fetch w.values u) = own then return m else m.add u v) w.interference

def step (w : Overlap) (a : Action) : Except Failure Overlap :=
  match a.access with
  | .get => .ok (if a.endsRange then { w with live := w.live.erase a.index } else w)
  | .set => do
    let w ← w.renumber a.index a.copy
    if a.effective then
      return { w with interference := ← w.collide a.index, live := w.live.insert a.index }
    else return w

/-- Walks over a block whose actions carry their flags. At an entry that nothing leads back to, the
variables of the function are zero. -/
def walkBlock (fn : Function) (g : Graph Action) (live : Liveness) (w : Overlap) (b : Nat) :
    Except Failure Overlap := do
  let atStart := (b : Int) = g.entry && (g.pred b).isEmpty
  let w ← w.enterBlock (live.liveIn b) fun v => atStart && fn.isVar v
  (g.items b).foldlM step w

end Overlap

def Function.interference (fn : Function) (g : Graph Action) (live : Liveness) :
    Except Failure Interference := do
  let w ← (List.range g.size).foldlM (Overlap.walkBlock fn g live) (← Overlap.start fn.numLocals)
  return w.interference

end LocalFlow

import LocalFlow.Function.Basic
import LocalFlow.Liveness.Undirected

/-!
Assigning slots to locals. Parameters keep their own slots. Variables are taken one after another,
and each goes to the first class of its type in which nothing interferes with it, or opens a new
class.
-/

namespace LocalFlow

inductive SlotOrder
  | index
  /-- The variable with most interferences first. -/
  | degree
  | unknown (code : UInt8)
deriving DecidableEq

namespace SlotOrder

def name : SlotOrder → String
  | .index => "index"
  | .degree => "degree"
  | .unknown code => s!"ColorOrder({code.toNat})"

def ofCode : UInt8 → SlotOrder
  | 0 => .index
  | 1 => .degree
  | code => .unknown code

def ofName? : String → Option SlotOrder
  | "index" => some .index
  | "degree" => some .degree
  | _ => none

end SlotOrder

/-- Variables grouped by the slot they share, in order of the slots. -/
abbrev Coloring := List (List Nat)

namespace Coloring

/-- The variables of a function, in the order in which they are assigned. By degree, a variable with
more interferences comes first, and of two with equally many the one with the smaller index. -/
def visitOrder {G : Type} (lib : GraphLibrary G) (fn : Function) (m : Interference)
    (order : SlotOrder) : Except Failure (List Nat) :=
  let vars := (List.range fn.vars.length).map (fn.numParams + ·)
  match order with
  | .degree => do
    let g ← m.toGraph lib
    let degree (v : Nat) : Nat := (lib.neighbors g v).length
    return vars.mergeSort fun v u => degree u ≤ degree v
  | _ => .ok vars

def fits (fn : Function) (m : Interference) (v : Nat) : List Nat → Except Failure Bool
  | [] => .error .outOfRange
  | members@(first :: _) =>
    if fn.localType first = fn.localType v then
      return !(← members.anyM (m.interferes v))
    else return false

/-- Puts variable `v` into the first class that it fits, or into a new one. -/
def insert (fn : Function) (m : Interference) (v : Nat) : Coloring → Except Failure Coloring
  | [] => return [[v]]
  | members :: classes => do
    if ← fits fn m v members then return (members ++ [v]) :: classes
    else return members :: (← insert fn m v classes)

def mapping (fn : Function) (classes : Coloring) : Array Nat :=
  ((List.range fn.numLocals).map fun v =>
    if fn.isParam v then v else fn.numParams + classes.findIdx (v ∈ ·)).toArray

def vars (fn : Function) (classes : Coloring) : List ValueType :=
  classes.map fun members => (members.head?.map fn.localType).getD .none

end Coloring

def Function.color {G : Type} (fn : Function) (lib : GraphLibrary G) (m : Interference)
    (order : SlotOrder) : Except Failure Coloring := do
  (← Coloring.visitOrder lib fn m order).foldlM (fun classes v => Coloring.insert fn m v classes) []

end LocalFlow

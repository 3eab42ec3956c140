import LocalFlow.Graph.Lowering
import LocalFlow.Graph.Printer
import LocalFlow.IndexSet

/-!
Actions: the accesses of locals, which are all that liveness looks at. A tee counts as a write, and
a write of a value that was just read from another local is a copy of it.
-/

namespace LocalFlow

inductive Access
  | get
  | set
deriving DecidableEq

namespace Access

/-- The name of a numbered sort of access; a sort without a name is written by its number. -/
def nameOf : Nat → String
  | 0 => "get"
  | 1 => "set"
  | sort => s!"ActionKind({sort})"

def name : Access → String
  | .get => nameOf 0
  | .set => nameOf 1

end Access

structure Action where
  access : Access
  index : Nat
  /-- The node that accesses the local. -/
  origin : Ref
  /-- The local whose value is written. -/
  copy : Option Nat := none
  /-- The written value is read later on. -/
  effective : Bool := false
  /-- No later read sees the value that is read here. -/
  endsRange : Bool := false
deriving DecidableEq

namespace Action

def describe (name : String) (index : Nat) (copy : Option Nat) (effective endsRange : Bool) :
    String :=
  s!"{name} {index}" ++ (match copy with | some source => s!" <- {source}" | none => "") ++
    (if effective then " effective" else "") ++ if endsRange then " last" else ""

def text (a : Action) : String :=
  describe a.access.name a.index a.copy a.effective a.endsRange

/-- The locals live before an action, from those live after it. -/
def before (a : Action) (live : IndexSet) : IndexSet :=
  match a.access with
  | .get => live.insert a.index
  | .set => live.erase a.index

end Action

def ItemStyle.action : ItemStyle Action :=
  ⟨"github.com/cloudwego/wasmflow/internal/liveness.Action", "liveness.Action", Action.text⟩

namespace Function

def action? (fn : Function) (r : Ref) : Option Action :=
  match fn.node? r with
  | some n =>
    match n.kind with
    | .localGet => some { access := .get, index := n.index, origin := r }
    | .localSet | .localTee =>
      some { access := .set, index := n.index, origin := r, copy := fn.readIndex? n.operand }
    | _ => none
  | none => none

def actionGraph (fn : Function) : Except Failure (Graph Action) :=
  fn.lower fn.body fn.action?

end Function

end LocalFlow

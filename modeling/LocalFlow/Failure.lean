import LocalFlow.Expr.Node
import LocalFlow.Text.Quoted

/-!
Why an operation fails. A function can be rejected for what it says; a handle or an index can fail
to name anything; and a module run can be called off.
-/

namespace LocalFlow

/-- What is wrong with the shape of a node. -/
inductive Flaw
  | bodyOutOfRange
  | secondParent
  | unknownKind (kind : Kind)
  | slotCount (kind : Kind) (count : Nat)
  | missingChild (kind : Kind) (slot : Nat)
  | childOutOfRange (slot : Nat) (child : Ref)
deriving DecidableEq

def Flaw.message : Flaw → String
  | .bodyOutOfRange => "body handle out of range"
  | .secondParent => "node has more than one parent"
  | .unknownKind kind => s!"unknown node kind {kind.name}"
  | .slotCount kind count => s!"{kind.name} has {count} child slots"
  | .missingChild kind slot => s!"{kind.name} is missing child {slot}"
  | .childOutOfRange slot child => s!"child {slot} handle {child.text} out of range"

/-- Why a function cannot be processed. -/
inductive Rejection
  | localIndex (function : String) (ref : Ref) (index count : Nat)
  | malformed (function : String) (ref : Ref) (flaw : Flaw)
  | unresolvedLabel (label : String)
deriving DecidableEq

def Rejection.message : Rejection → String
  | .localIndex function ref index count =>
    s!"function {Text.quote function}: node {ref.text} accesses local {index}, " ++
      s!"but only {count} locals are declared"
  | .malformed function ref flaw =>
    s!"function {Text.quote function}: malformed node {ref.text}: {flaw.message}"
  | .unresolvedLabel label =>
    if label = "" then "branch without a target label"
    else s!"unresolved branch label {Text.quote label}"

/-- The passes that report under their own name. -/
inductive Pass
  | liveness
  | ssa
  | coalescing
deriving DecidableEq

def Pass.name : Pass → String
  | .liveness => "liveness"
  | .ssa => "ssa"
  | .coalescing => "coalesce-locals"

/-- Why an operation has no result. -/
inductive Failure
  /-- A handle or an index names nothing. -/
  | outOfRange
  | rejected (why : Rejection)
  /-- A pass met a function that is rejected. -/
  | within (pass : Pass) (function : String) (why : Rejection)
  | cancelled
deriving DecidableEq

namespace Failure

/-- An access that names nothing carries no text. -/
def message? : Failure → Option String
  | .outOfRange => none
  | .rejected why => some why.message
  | .within pass function why => some s!"{pass.name}: {function}: {why.message}"
  | .cancelled => some "context canceled"

/-- Names the pass and the function in a rejection that names none yet. -/
def inPass (pass : Pass) (function : String) : Failure → Failure
  | .rejected why => .within pass function why
  | failure => failure

end Failure

/-- What was looked for, which has to be there. -/
def found {α : Type} : Option α → Except Failure α
  | some a => .ok a
  | none => .error .outOfRange

def fetch {α : Type} (xs : Array α) (i : Nat) : Except Failure α :=
  match xs[i]? with
  | some x => .ok x
  | none => .error .outOfRange

def assign {α : Type} (xs : Array α) (i : Nat) (x : α) : Except Failure (Array α) :=
  if i < xs.size then .ok (xs.setIfInBounds i x) else .error .outOfRange

end LocalFlow

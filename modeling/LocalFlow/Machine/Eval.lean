import LocalFlow.Function.Tree
import LocalFlow.Machine.Apply

/-!
Running a function. Operands are evaluated in order, and a node is applied when all of them have
values. Blocks and loops take the branches that carry their label; each time a loop starts over it
uses up one unit of fuel, so every run ends.
-/

namespace LocalFlow

namespace Completion

/-- A block with a label ends at a branch to it, with the value that the branch carries. -/
def atBlock (label : String) (c : Completion UInt64) : Completion UInt64 :=
  match c with
  | .signal (.branch target v) m => if label ≠ "" && target = label then .value v m else c
  | c => c

end Completion

namespace Machine

/-- Runs the body of a loop until it ends otherwise than by a branch to the loop. Starting over
takes fuel, so a count above the fuel at the start is never used up. -/
def repeatLoop (label : String) (body : Machine → Completion UInt64) :
    Nat → Machine → Completion UInt64
  | 0, m => .signal .outOfFuel m
  | count + 1, m =>
    match body m with
    | .signal (.branch target v) m =>
      if target = label then
        match m.fuel with
        | 0 => .signal .outOfFuel m
        | fuel + 1 => repeatLoop label body count { m with fuel }
      else .signal (.branch target v) m
    | c => c

def noteApplied (m : Machine) (r : Ref) : Machine := { m with applied := r :: m.applied }

end Machine

namespace Tree

mutual

def eval : Tree → Machine → Completion UInt64
  | .absent, m => .value 0 m
  | .dangling _, _ | .endless _, _ => .fault .outOfRange
  | .node r n kids, m =>
    match n.kind with
    | .block => (evalItems kids 0 m).atBlock n.label
    | .loop => Machine.repeatLoop n.label (fun m => evalSlot kids 0 m) (m.fuel + 1) m
    | .ifElse =>
      (evalSlot kids 0 m).bind fun cond m =>
        if lowHalf cond = 0 then evalSlot kids 2 m else evalSlot kids 1 m
    | _ => (evalAll kids m).bind fun args m => n.apply args (m.noteApplied r)

def evalAll : List (Unit → Tree) → Machine → Completion (List UInt64)
  | [], m => .value [] m
  | t :: ts, m =>
    (eval (t ()) m).bind fun v m => (evalAll ts m).bind fun vs m => .value (v :: vs) m

/-- The value of the last item of a block, or the given one if there are no more items. -/
def evalItems : List (Unit → Tree) → UInt64 → Machine → Completion UInt64
  | [], last, m => .value last m
  | t :: ts, _, m => (eval (t ()) m).bind fun v m => evalItems ts v m

def evalSlot : List (Unit → Tree) → Nat → Machine → Completion UInt64
  | [], _, m => .value 0 m
  | t :: _, 0, m => eval (t ()) m
  | _ :: ts, i + 1, m => evalSlot ts i m

end

end Tree

inductive Outcome
  | finished
  | returned
  | trapped
  | outOfFuel
deriving DecidableEq

def Outcome.name : Outcome → String
  | .finished => "finished"
  | .returned => "returned"
  | .trapped => "trapped"
  | .outOfFuel => "out-of-fuel"

structure Trace where
  events : List Event
  outcome : Outcome
deriving DecidableEq

/-- How many times loops may start over on the given fuel. A start takes one unit and is refused if
that leaves less than none. Units are counted in a signed word, in which one less than the least is
the greatest: only negative fuel above the least is as good as none. -/
def Machine.restarts (fuel : Int64) : Nat :=
  if fuel - 1 < 0 then 0 else (fuel - 1).toInt.toNat + 1

/-- The machine before a run: parameters hold their arguments, all else is zero. -/
def Machine.start (fn : Function) (args : List UInt64) (fuel : Int64) : Machine where
  locals :=
    let given : List UInt64 := fn.params.zipIdx.map fun (type, i) => type.truncate (args.getD i 0)
    (given ++ fn.vars.map fun _ => 0).toArray
  fuel := restarts fuel

def Function.execute (fn : Function) (args : List UInt64) (fuel : Int64) : Completion UInt64 :=
  (fn.tree fn.body).eval (.start fn args fuel)

def Function.run (fn : Function) (args : List UInt64) (fuel : Int64) : Except Fault Trace :=
  match fn.execute args fuel with
  | .value _ m => .ok ⟨m.events.reverse, .finished⟩
  | .signal (.ret _) m => .ok ⟨m.events.reverse, .returned⟩
  | .signal .trap m => .ok ⟨m.events.reverse, .trapped⟩
  | .signal .outOfFuel m => .ok ⟨m.events.reverse, .outOfFuel⟩
  | .signal (.branch ..) _ => .error .escapedBranch
  | .fault f => .error f

end LocalFlow

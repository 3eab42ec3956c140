import LocalFlow.Failure

/-!
Functions. A function owns an arena of nodes and names one of them as its body. Its locals are
numbered with the parameters first and the declared variables after them.
-/

namespace LocalFlow

structure Function where
  name : String
  params : List ValueType := []
  results : List ValueType := []
  vars : List ValueType := []
  body : Ref := .absent
  nodes : Array Node := #[]

namespace Function

def numParams (fn : Function) : Nat := fn.params.length

def localTypes (fn : Function) : List ValueType := fn.params ++ fn.vars

def numLocals (fn : Function) : Nat := fn.params.length + fn.vars.length

def isParam (fn : Function) (i : Nat) : Bool := i < fn.numParams

def isVar (fn : Function) (i : Nat) : Bool := fn.numParams ≤ i && i < fn.numLocals

/-- The declared type of local `i`; an undeclared local has none. -/
def localType (fn : Function) (i : Nat) : ValueType := fn.localTypes.getD i .none

def addVar (fn : Function) (type : ValueType) : Function × Nat :=
  ({ fn with vars := fn.vars ++ [type] }, fn.numLocals)

def add (fn : Function) (n : Node) : Function × Ref :=
  ({ fn with nodes := fn.nodes.push n }, fn.nodes.size)

def finish (fn : Function) (body : Ref) : Function := { fn with body }

def node? (fn : Function) : Ref → Option Node
  | .ofNat i => fn.nodes[i]?
  | .negSucc _ => none

def node (fn : Function) (r : Ref) : Except Failure Node :=
  match fn.node? r with
  | some n => .ok n
  | none => .error .outOfRange

def put (fn : Function) (r : Ref) (n : Node) : Except Failure Function :=
  match fn.node? r with
  | some _ => .ok { fn with nodes := fn.nodes.setIfInBounds r.toNat n }
  | none => .error .outOfRange

def children (fn : Function) (r : Ref) : Except Failure (List Ref) :=
  return (← fn.node r).kids.filter (·.isPresent)

/-- Overwrites `dst` with the contents of `src`, which is left behind. -/
def replace (fn : Function) (dst src : Ref) : Except Failure Function :=
  if dst = src then .ok fn else do fn.put dst (← fn.node src)

def makeNop (fn : Function) (r : Ref) : Except Failure Function :=
  fn.put r {}

def makeDrop (fn : Function) (r value : Ref) : Except Failure Function :=
  fn.put r { kind := .drop, kids := [value] }

def setIndex (fn : Function) (r : Ref) (index : Nat) : Except Failure Function := do
  fn.put r { ← fn.node r with index }

end Function

end LocalFlow

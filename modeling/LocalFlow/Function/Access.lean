import LocalFlow.Function.Tree

/-!
Where each local is written and read, without regard to the flow of control. A tee writes its local
and passes the written value on, so it counts as a definition and not as a use.
-/

namespace LocalFlow

/-- The local accesses of a body in evaluation order, for so many declared locals. -/
structure AccessTable where
  numLocals : Nat
  accesses : List (Ref × Node)

def Function.accessTable (fn : Function) : Except Failure AccessTable := do
  let nodes ← (fn.tree fn.body).postOrder
  return ⟨fn.numLocals, nodes.filter fun (_, n) => n.kind.isLocalAccess⟩

namespace AccessTable

def handles (t : AccessTable) (i : Nat) (p : Kind → Bool) : List Ref :=
  if i < t.numLocals then
    (t.accesses.filter fun (_, n) => n.index = i && p n.kind).map (·.1)
  else []

/-- The sets and tees of local `i`, none if it is undeclared. -/
def definitions (t : AccessTable) (i : Nat) : List Ref := t.handles i (·.isLocalWrite)

def uses (t : AccessTable) (i : Nat) : List Ref := t.handles i (· = .localGet)

def isUnused (t : AccessTable) (i : Nat) : Bool := (t.uses i).isEmpty

def singleDefinition? (t : AccessTable) (i : Nat) : Option Ref :=
  match t.definitions i with
  | [r] => some r
  | _ => none

def singleUse? (t : AccessTable) (i : Nat) : Option Ref :=
  match t.uses i with
  | [r] => some r
  | _ => none

def readLocals (t : AccessTable) : Array Bool :=
  ((List.range t.numLocals).map fun i => !t.isUnused i).toArray

end AccessTable

end LocalFlow

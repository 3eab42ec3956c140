import LocalFlow.Function.Access
import LocalFlow.Function.Effect

/-!
Redirecting local accesses in place. A store that is no longer needed becomes what remains of its
value: the value itself where a tee passed it on, a drop where computing it has side effects, and
nothing otherwise. Nodes are visited children first, so a value is redirected before its store.
-/

namespace LocalFlow

namespace Function

/-- Turns the set or tee at `r` into what remains of its value. -/
def removeStore (fn : Function) (r : Ref) : Except Failure Function := do
  let n ← fn.node r
  if n.kind = .localTee then fn.replace r n.operand
  else if ← fn.hasSideEffects n.operand then fn.makeDrop r n.operand
  else fn.makeNop r

/-- The store at `r` writes back what it has just read. -/
def isSelfCopy (fn : Function) (r : Ref) : Except Failure Bool := do
  let n ← fn.node r
  let value ← fn.node n.operand
  return value.kind = .localGet && value.index = n.index

end Function

/-- A function whose accesses are being redirected, with the number of stores and of copies
removed so far. -/
structure Redirection where
  function : Function
  stores : Nat := 0
  copies : Nat := 0

namespace Redirection

def removeStore (w : Redirection) (r : Ref) : Except Failure Redirection :=
  return { w with function := ← w.function.removeStore r, stores := w.stores + 1 }

def removeCopy (w : Redirection) (r : Ref) : Except Failure Redirection :=
  return { w with function := ← w.function.removeStore r, copies := w.copies + 1 }

/-- Redirects the access at `r` to the slot of its local. A store whose value nobody reads is
removed instead, before it can overwrite a shared slot, and so is a copy within one slot. -/
def remapNode (mapping : Array Nat) (ineffective : List Ref) (w : Redirection) (r : Ref) :
    Except Failure Redirection := do
  let n ← w.function.node r
  if !n.kind.isLocalAccess then return w
  else if n.kind.isLocalWrite && r ∈ ineffective then w.removeStore r
  else
    let function ← w.function.setIndex r (← fetch mapping n.index)
    let w := { w with function }
    if n.kind.isLocalWrite then
      if ← function.isSelfCopy r then w.removeCopy r else return w
    else return w

def remap (mapping : Array Nat) (ineffective : List Ref) (w : Redirection) :
    Except Failure Redirection := do
  (← w.function.postOrder w.function.body).foldlM (remapNode mapping ineffective) w

def removeDeadStore (read : Array Bool) (w : Redirection) (r : Ref) : Except Failure Redirection := do
  let n ← w.function.node r
  if n.kind.isLocalWrite then
    if ← fetch read n.index then return w else w.removeStore r
  else return w

def removeDeadStores (w : Redirection) : Except Failure Redirection := do
  let read := (← w.function.accessTable).readLocals
  (← w.function.postOrder w.function.body).foldlM (removeDeadStore read) w

end Redirection

end LocalFlow

import LocalFlow.Function.Tree

/-!
Effects: what evaluating an expression may do besides giving its value. The effect of a tree is the
union of the effects of its nodes.
-/

namespace LocalFlow

/-- A set of effects, one bit each. -/
structure Effect where
  bits : UInt32
deriving DecidableEq

namespace Effect

def none : Effect := ⟨0⟩
def memoryRead : Effect := ⟨1⟩
def memoryWrite : Effect := ⟨2⟩
def globalRead : Effect := ⟨4⟩
def globalWrite : Effect := ⟨8⟩
def localWrite : Effect := ⟨16⟩
def mayTrap : Effect := ⟨32⟩
def traps : Effect := ⟨64⟩
def calls : Effect := ⟨128⟩
def branches : Effect := ⟨256⟩
def grows : Effect := ⟨512⟩

def union (a b : Effect) : Effect := ⟨a.bits ||| b.bits⟩

instance : Union Effect := ⟨union⟩

def meets (a b : Effect) : Bool := a.bits &&& b.bits ≠ 0

def named : List (Effect × String) :=
  [(memoryRead, "memory-read"), (memoryWrite, "memory-write"), (globalRead, "global-read"),
   (globalWrite, "global-write"), (localWrite, "local-write"), (mayTrap, "may-trap"),
   (traps, "traps"), (calls, "calls"), (branches, "branches"), (grows, "grows")]

def text (e : Effect) : String :=
  match named.filter (fun (bit, _) => e.meets bit) with
  | [] => "none"
  | present => "|".intercalate (present.map (·.2))

/-- What keeps an unused expression alive. A mere chance to trap does not. -/
def lasting : Effect :=
  memoryWrite ∪ globalWrite ∪ localWrite ∪ calls ∪ traps ∪ branches ∪ grows

def hasSideEffects (e : Effect) : Bool := e.meets lasting

def canTrap (e : Effect) : Bool := e.meets (mayTrap ∪ traps)

def transfersControl (e : Effect) : Bool := e.meets (branches ∪ traps)

end Effect

/-- The effect of a node, its children aside. -/
def Node.effect (n : Node) : Effect :=
  match n.kind with
  | .localSet | .localTee => .localWrite
  | .globalGet => .globalRead
  | .globalSet => .globalWrite
  | .load => .memoryRead ∪ .mayTrap
  | .store => .memoryWrite ∪ .mayTrap
  | .memorySize => .memoryRead
  | .memoryGrow => .grows ∪ .memoryWrite
  | .call =>
    .calls ∪ .memoryRead ∪ .memoryWrite ∪ .globalRead ∪ .globalWrite ∪ .mayTrap
  | .br | .brTable | .ret => .branches
  | .unreachable => .traps
  | .binary => if n.op.isDivision then .mayTrap else .none
  | _ => .none

namespace Tree

mutual

def effects : Tree → Except Failure Effect
  | .absent => .ok .none
  | .dangling _ | .endless _ => .error .outOfRange
  | .node _ n kids => return (← effectsAll kids) ∪ n.effect

def effectsAll : List (Unit → Tree) → Except Failure Effect
  | [] => .ok .none
  | t :: ts => return (← effects (t ())) ∪ (← effectsAll ts)

end

end Tree

namespace Function

def effects (fn : Function) (r : Ref) : Except Failure Effect :=
  (fn.tree r).effects

/-- An absent expression has no effect. -/
def hasSideEffects (fn : Function) (r : Ref) : Except Failure Bool :=
  return (← fn.effects r).hasSideEffects

def effectAt (fn : Function) (r : Ref) : Except Failure Effect :=
  return (← fn.node r).effect

end Function

end LocalFlow

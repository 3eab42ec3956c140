import LocalFlow.Function.Basic

/-!
Instructions: one constructor for each way to make a node, with exactly the data that it needs.
Emitting an instruction appends one node and infers the type of its value.
-/

namespace LocalFlow

inductive Instruction
  | nop
  | unreachable
  | memorySize
  | const (value : Literal)
  | unary (op : Operator) (type : ValueType) (x : Ref)
  | binary (op : Operator) (type : ValueType) (x y : Ref)
  | localGet (index : Nat)
  | localSet (index : Nat) (value : Ref)
  | localTee (index : Nat) (value : Ref)
  | globalGet (index : Nat) (type : ValueType)
  | globalSet (index : Nat) (value : Ref)
  | block (label : String) (items : List Ref)
  | loop (label : String) (body : Ref)
  | ifElse (cond ifTrue ifFalse : Ref)
  | br (label : String) (value : Ref)
  | brIf (label : String) (cond value : Ref)
  | brTable (labels : List String) (default : String) (index value : Ref)
  | ret (value : Ref)
  | drop (value : Ref)
  | select (ifTrue ifFalse cond : Ref)
  | call (target : String) (type : ValueType) (args : List Ref)
  | load (type : ValueType) (address : Ref)
  | store (address value : Ref)
  | memoryGrow (delta : Ref)
  /-- Any node at all, well formed or not. -/
  | raw (node : Node)

namespace Function

/-- The type of the value of `r`; an absent child has none. -/
def typeOf (fn : Function) (r : Ref) : Except Failure ValueType :=
  if r.isPresent then return (← fn.node r).type else return .none

/-- The type of a construct that control can leave by falling out of it. -/
def fallType : ValueType → ValueType
  | .unreachable => .none
  | type => type

def nodeOf (fn : Function) : Instruction → Except Failure Node
  | .nop => return {}
  | .unreachable => return { kind := .unreachable, type := .unreachable }
  | .memorySize => return { kind := .memorySize, type := .i32 }
  | .const value => return { kind := .const, type := value.type, value }
  | .unary op type x => return { kind := .unary, type, op, kids := [x] }
  | .binary op type x y => return { kind := .binary, type, op, kids := [x, y] }
  | .localGet index => return { kind := .localGet, type := fn.localType index, index }
  | .localSet index value => return { kind := .localSet, index, kids := [value] }
  | .localTee index value =>
    return { kind := .localTee, type := fn.localType index, index, kids := [value] }
  | .globalGet index type => return { kind := .globalGet, type, index }
  | .globalSet index value => return { kind := .globalSet, index, kids := [value] }
  | .block label items => do
    let type ← fn.typeOf (items.getLast?.getD .absent)
    return { kind := .block, type := fallType type, label, kids := items }
  | .loop label body =>
    return { kind := .loop, type := fallType (← fn.typeOf body), label, kids := [body] }
  | .ifElse cond ifTrue ifFalse =>
    if ifFalse.isPresent then do
      let a ← fn.typeOf ifTrue
      let b ← fn.typeOf ifFalse
      return { kind := .ifElse, type := if a = b then fallType a else .none,
               kids := [cond, ifTrue, ifFalse] }
    else return { kind := .ifElse, kids := [cond, ifTrue] }
  | .br label value =>
    return { kind := .br, type := .unreachable, label, kids := [value, .absent] }
  | .brIf label cond value =>
    return { kind := .br, type := ← fn.typeOf value, label, kids := [value, cond] }
  | .brTable labels default index value =>
    return { kind := .brTable, type := .unreachable, label := default, labels,
             kids := [value, index] }
  | .ret value => return { kind := .ret, type := .unreachable, kids := [value] }
  | .drop value => return { kind := .drop, kids := [value] }
  | .select ifTrue ifFalse cond =>
    return { kind := .select, type := ← fn.typeOf ifTrue, kids := [ifTrue, ifFalse, cond] }
  | .call target type args => return { kind := .call, type, label := target, kids := args }
  | .load type address => return { kind := .load, type, kids := [address] }
  | .store address value => return { kind := .store, kids := [address, value] }
  | .memoryGrow delta => return { kind := .memoryGrow, type := .i32, kids := [delta] }
  | .raw node => return node

def emit (fn : Function) (i : Instruction) : Except Failure (Function × Ref) :=
  return fn.add (← fn.nodeOf i)

end Function

end LocalFlow

import LocalFlow.Function.Basic

/-!
The machine that expressions run on: words of 64 bits in locals, globals and memory, of which calls,
global and memory writes and memory growth can be observed from outside. Calls and memory are
stand-ins with a fixed behaviour: a call returns a mix of its arguments and the number of calls so
far, and memory never fails.
-/

namespace LocalFlow

/-- Something that can be observed from outside. -/
inductive Event
  | globalSet (index : Nat) (value : UInt64)
  | store (address value : UInt64)
  | call (target : String) (args : List UInt64)
  | memoryGrow (delta : UInt64)
deriving DecidableEq

def Event.text : Event → String
  | .globalSet index value => s!"global.set {index} {value.toNat}"
  | .store address value => s!"store {address.toNat} {value.toNat}"
  | .call target args =>
    s!"call {target} [" ++ " ".intercalate (args.map fun v => toString v.toNat) ++ "]"
  | .memoryGrow delta => s!"memory.grow {delta.toNat}"

/-- Why evaluation ends before it has a value. -/
inductive Signal
  | branch (label : String) (value : UInt64)
  | ret (value : UInt64)
  | trap
  | outOfFuel
deriving DecidableEq

/-- Why an expression cannot be evaluated at all. -/
inductive Fault
  /-- An operand is missing, or a local or a node does not exist. -/
  | outOfRange
  | unknownKind (kind : Kind)
  | unknownUnary (op : Operator)
  | unknownBinary (op : Operator)
  /-- No enclosing construct took a branch. -/
  | escapedBranch
deriving DecidableEq

def Fault.message? : Fault → Option String
  | .outOfRange => none
  | .unknownKind kind => some s!"irtest: cannot interpret {kind.name}"
  | .unknownUnary op => some s!"irtest: cannot interpret unary {op.name}"
  | .unknownBinary op => some s!"irtest: cannot interpret binary {op.name}"
  | .escapedBranch => some "irtest: branch escaped the function"

structure Machine where
  locals : Array UInt64
  memory : UInt64 → UInt64 := fun _ => 0
  /-- The last event first. -/
  events : List Event := []
  calls : UInt64 := 0
  /-- How many times loops may still start over. -/
  fuel : Nat
  /-- The nodes applied so far, blocks, loops and ifs aside, the last one first. -/
  applied : List Ref := []

namespace Machine

def observe (m : Machine) (event : Event) : Machine := { m with events := event :: m.events }

def write (m : Machine) (address value : UInt64) : Machine :=
  { m with memory := fun a => if a = address then value else m.memory a }

def setLocal (m : Machine) (i : Nat) (value : UInt64) : Machine :=
  { m with locals := m.locals.setIfInBounds i value }

/-- Globals live in memory above all addresses that fit into 40 bits. -/
def globalAddress (index : Nat) : UInt64 := 0x10000000000 ||| index.toUInt64

end Machine

inductive Completion (α : Type)
  | value (a : α) (m : Machine)
  | signal (s : Signal) (m : Machine)
  | fault (f : Fault)

def Completion.bind {α β : Type} (c : Completion α) (next : α → Machine → Completion β) :
    Completion β :=
  match c with
  | .value a m => next a m
  | .signal s m => .signal s m
  | .fault f => .fault f

end LocalFlow

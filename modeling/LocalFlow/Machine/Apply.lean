import LocalFlow.Machine.Basic

/-!
Applying a node to the values of its operands.
-/

namespace LocalFlow

def ValueType.truncate (type : ValueType) (v : UInt64) : UInt64 :=
  if type = .i32 then v &&& 0xffffffff else v

/-- The low half of a word, which decides conditions and indices. -/
def lowHalf (v : UInt64) : UInt64 := ValueType.truncate .i32 v

namespace Operator

def applyUnary (op : Operator) (type : ValueType) (x : UInt64) : Except Fault UInt64 :=
  match op with
  | .eqz => .ok (if x = 0 then 1 else 0)
  | .neg => .ok (type.truncate (0 - x))
  | .wrap | .extendU => .ok (lowHalf x)
  | op => .error (.unknownUnary op)

/-- The result of a binary operation, or nothing where it traps. -/
def applyBinary (op : Operator) (type : ValueType) (x y : UInt64) :
    Except Fault (Option UInt64) :=
  match op with
  | .add => .ok (some (type.truncate (x + y)))
  | .sub => .ok (some (type.truncate (x - y)))
  | .mul => .ok (some (type.truncate (x * y)))
  | .xor => .ok (some (x ^^^ y))
  | .and => .ok (some (x &&& y))
  | .or => .ok (some (x ||| y))
  | .divU => .ok (if y = 0 then none else some (x / y))
  | .eq => .ok (some (if x = y then 1 else 0))
  | op => .error (.unknownBinary op)

end Operator

namespace Node

def pickLabel (n : Node) (index : UInt64) : String :=
  n.labels.getD (lowHalf index).toNat n.label

/-- The value of a call: the arguments mixed into a multiple of the number of calls so far. -/
def callValue (n : Node) (calls : UInt64) (args : List UInt64) : UInt64 :=
  n.type.truncate (args.foldl (· ^^^ ·) (calls * 0x9e3779b97f4a7c15))

def apply (n : Node) (args : List UInt64) (m : Machine) : Completion UInt64 :=
  match n.kind, args with
  | .nop, _ | .drop, _ => .value 0 m
  | .const, _ => .value n.value.bits m
  | .memorySize, _ => .value 1 m
  | .unreachable, _ => .signal .trap m
  | .localGet, _ =>
    match m.locals[n.index]? with
    | some v => .value v m
    | none => .fault .outOfRange
  | .localSet, x :: _ =>
    if n.index < m.locals.size then .value 0 (m.setLocal n.index x) else .fault .outOfRange
  | .localTee, x :: _ =>
    if n.index < m.locals.size then .value x (m.setLocal n.index x) else .fault .outOfRange
  | .globalGet, _ => .value (m.memory (Machine.globalAddress n.index)) m
  | .globalSet, x :: _ =>
    .value 0 ((m.write (Machine.globalAddress n.index) x).observe (.globalSet n.index x))
  | .load, x :: _ => .value (n.type.truncate (m.memory x)) m
  | .store, x :: y :: _ => .value 0 ((m.write x y).observe (.store x y))
  | .call, args =>
    .value (n.callValue m.calls args)
      ({ m with calls := m.calls + 1 }.observe (.call n.label args))
  | .select, x :: y :: z :: _ => .value (if lowHalf z = 0 then y else x) m
  | .unary, x :: _ =>
    match n.op.applyUnary n.type x with
    | .ok v => .value v m
    | .error f => .fault f
  | .binary, x :: y :: _ =>
    match n.op.applyBinary n.type x y with
    | .ok (some v) => .value v m
    | .ok none => .signal .trap m
    | .error f => .fault f
  | .memoryGrow, x :: _ => .value 1 (m.observe (.memoryGrow x))
  | .br, [x] => .signal (.branch n.label x) m
  | .br, x :: y :: _ =>
    if n.isConditional && lowHalf y = 0 then .value x m else .signal (.branch n.label x) m
  | .brTable, x :: y :: _ => .signal (.branch (n.pickLabel y) x) m
  | .ret, x :: _ => .signal (.ret x) m
  | .unknown code, _ => .fault (.unknownKind (.unknown code))
  | _, _ => .fault .outOfRange

end Node

end LocalFlow

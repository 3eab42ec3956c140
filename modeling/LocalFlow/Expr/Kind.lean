/-!
The vocabulary of expressions: value types, operators and node kinds. Each comes with the name it
is printed by and a numeric code; a code without a name is kept, so that malformed nodes can be
represented, inspected and rejected.
-/

namespace LocalFlow

inductive ValueType
  | none
  | i32
  | i64
  | f32
  | f64
  | v128
  | funcref
  | externref
  | unreachable
  | unknown (code : UInt8)
deriving DecidableEq

namespace ValueType

/-- The named types, each at the position of its code. -/
def named : List ValueType :=
  [.none, .i32, .i64, .f32, .f64, .v128, .funcref, .externref, .unreachable]

def name : ValueType → String
  | .none => "none"
  | .i32 => "i32"
  | .i64 => "i64"
  | .f32 => "f32"
  | .f64 => "f64"
  | .v128 => "v128"
  | .funcref => "funcref"
  | .externref => "externref"
  | .unreachable => "unreachable"
  | .unknown code => s!"type({code.toNat})"

def ofCode (code : UInt8) : ValueType :=
  named[code.toNat]?.getD (.unknown code)

def ofName? (s : String) : Option ValueType :=
  named.find? (·.name = s)

def code : ValueType → UInt8
  | .none => 0
  | .i32 => 1
  | .i64 => 2
  | .f32 => 3
  | .f64 => 4
  | .v128 => 5
  | .funcref => 6
  | .externref => 7
  | .unreachable => 8
  | .unknown code => code

/-- A local can hold a value of this type. -/
def isConcrete : ValueType → Bool
  | .none | .unreachable | .unknown _ => false
  | _ => true

end ValueType

inductive Operator
  | add
  | sub
  | mul
  | divS
  | divU
  | remS
  | remU
  | and
  | or
  | xor
  | shl
  | shrS
  | shrU
  | eq
  | ne
  | ltS
  | ltU
  | gtS
  | gtU
  | eqz
  | clz
  | ctz
  | popcnt
  | neg
  | abs
  | wrap
  | extendS
  | extendU
  | unknown (code : UInt8)
deriving DecidableEq

namespace Operator

/-- The named operators, each at the position of its code. -/
def named : List Operator :=
  [.add, .sub, .mul, .divS, .divU, .remS, .remU, .and, .or, .xor, .shl, .shrS, .shrU, .eq, .ne,
   .ltS, .ltU, .gtS, .gtU, .eqz, .clz, .ctz, .popcnt, .neg, .abs, .wrap, .extendS, .extendU]

def name : Operator → String
  | .add => "add"
  | .sub => "sub"
  | .mul => "mul"
  | .divS => "div_s"
  | .divU => "div_u"
  | .remS => "rem_s"
  | .remU => "rem_u"
  | .and => "and"
  | .or => "or"
  | .xor => "xor"
  | .shl => "shl"
  | .shrS => "shr_s"
  | .shrU => "shr_u"
  | .eq => "eq"
  | .ne => "ne"
  | .ltS => "lt_s"
  | .ltU => "lt_u"
  | .gtS => "gt_s"
  | .gtU => "gt_u"
  | .eqz => "eqz"
  | .clz => "clz"
  | .ctz => "ctz"
  | .popcnt => "popcnt"
  | .neg => "neg"
  | .abs => "abs"
  | .wrap => "wrap"
  | .extendS => "extend_s"
  | .extendU => "extend_u"
  | .unknown code => s!"op({code.toNat})"

def ofCode (code : UInt8) : Operator :=
  named[code.toNat]?.getD (.unknown code)

def ofName? (s : String) : Option Operator :=
  named.find? (·.name = s)

/-- Division and remainder, which are undefined at a zero divisor. -/
def isDivision : Operator → Bool
  | .divS | .divU | .remS | .remU => true
  | _ => false

end Operator

inductive Kind
  | nop
  | const
  | unary
  | binary
  | localGet
  | localSet
  | localTee
  | globalGet
  | globalSet
  | block
  | loop
  | ifElse
  | br
  | brTable
  | ret
  | unreachable
  | drop
  | select
  | call
  | load
  | store
  | memorySize
  | memoryGrow
  | unknown (code : UInt8)
deriving DecidableEq

namespace Kind

/-- The named kinds, each at the position of its code. -/
def named : List Kind :=
  [.nop, .const, .unary, .binary, .localGet, .localSet, .localTee, .globalGet, .globalSet, .block,
   .loop, .ifElse, .br, .brTable, .ret, .unreachable, .drop, .select, .call, .load, .store,
   .memorySize, .memoryGrow]

def name : Kind → String
  | .nop => "nop"
  | .const => "const"
  | .unary => "unary"
  | .binary => "binary"
  | .localGet => "local.get"
  | .localSet => "local.set"
  | .localTee => "local.tee"
  | .globalGet => "global.get"
  | .globalSet => "global.set"
  | .block => "block"
  | .loop => "loop"
  | .ifElse => "if"
  | .br => "br"
  | .brTable => "br_table"
  | .ret => "return"
  | .unreachable => "unreachable"
  | .drop => "drop"
  | .select => "select"
  | .call => "call"
  | .load => "load"
  | .store => "store"
  | .memorySize => "memory.size"
  | .memoryGrow => "memory.grow"
  | .unknown code => s!"kind({code.toNat})"

def ofCode (code : UInt8) : Kind :=
  named[code.toNat]?.getD (.unknown code)

def ofName? (s : String) : Option Kind :=
  named.find? (·.name = s)

def isLocalAccess : Kind → Bool
  | .localGet | .localSet | .localTee => true
  | _ => false

def isLocalWrite : Kind → Bool
  | .localSet | .localTee => true
  | _ => false

/-- The kind shapes control flow and does nothing of its own. -/
def isStructured : Kind → Bool
  | .block | .loop | .ifElse => true
  | _ => false

end Kind

end LocalFlow

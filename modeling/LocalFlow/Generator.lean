import LocalFlow.Function.Instruction

/-!
Functions made from a list of draws: up to two parameters, up to seven variables, and structured
control flow nested a few levels deep. Every draw is noted under a name, and a list that has run out
goes on with zeros, so any list of numbers makes a function.
-/

namespace LocalFlow

structure Generator.Label where
  name : String
  isLoop : Bool

/-- A function under construction, with the draws to come and those made. -/
structure Generator where
  draws : List Nat
  function : Function
  /-- The last draw first. -/
  trace : List String := []
  numLabels : Nat := 0

abbrev Gen := StateT Generator (Except Failure)

namespace Gen

/-- The next draw, reduced to a number below `count`. -/
def next (count : Nat) : Gen Nat :=
  modifyGet fun g => (g.draws.headD 0 % count, { g with draws := g.draws.tail })

def note (what value : String) : Gen Unit :=
  modify fun g => { g with trace := s!"{what}={value}" :: g.trace }

def oneOf {α : Type} (what : String) (text : α → String) (first : α) (rest : List α) : Gen α := do
  let i ← next (rest.length + 1)
  let value := (first :: rest).getD i first
  note what (text value)
  return value

/-- A number from `lo` on, one of `count`. -/
def number (what : String) (lo : Int) (count : Nat) : Gen Int := do
  let value := lo + (← next count)
  note what (toString value)
  return value

def below (what : String) (count : Nat) : Gen Nat :=
  return (← number what 0 count).toNat

def flip (what : String) : Gen Bool := do
  let value := (← next 2) = 1
  note what (if value then "true" else "false")
  return value

def emit (i : Instruction) : Gen Ref := do
  let g ← get
  let (function, r) ← g.function.emit i
  set { g with function }
  return r

def newLabel : Gen String :=
  modifyGet fun g => (s!"L{g.numLabels + 1}", { g with numLabels := g.numLabels + 1 })

def localType (v : Nat) : Gen ValueType := return (← get).function.localType v

def anyLocal : Gen Nat := do below "local" (← get).function.numLocals

/-- A local of the given type, if there is one. -/
def localOf (type : ValueType) : Gen (Option Nat) := do
  let fn := (← get).function
  match (List.range fn.numLocals).filter (fn.localType · = type) with
  | [] => return none
  | v :: rest => return some ((v :: rest).getD (← below "local" (rest.length + 1)) v)

def constant (type : ValueType) : Gen Ref := do
  let value ← number "const" (-3) 7
  emit (.const (if type = .i64 then .i64 value else .i32 value))

def readOrConstant (type : ValueType) : Gen Ref := do
  match ← localOf type with
  | some v => emit (.localGet v)
  | none => constant type

def condition (otherwise : Gen Ref) : Gen Ref := do
  match ← localOf .i32 with
  | some v => if ← flip "cond-local" then emit (.localGet v) else otherwise
  | none => otherwise

/-- An expression of the given type, with room for so many levels. -/
def expr : Nat → ValueType → Gen Ref
  | 0, type => do
    match ← below "expr" 2 with
    | 0 => constant type
    | _ => readOrConstant type
  | room + 1, type => do
    match ← below "expr" 7 with
    | 0 => constant type
    | 1 => readOrConstant type
    | 2 =>
      let op ← oneOf "op" Operator.name .add [.sub, .mul, .xor]
      let x ← expr room type
      let y ← expr room type
      emit (.binary op type x y)
    | 3 =>
      match ← localOf type with
      | some v => emit (.localTee v (← expr room type))
      | none => constant type
    | 4 => emit (.call "value" type [← expr room .i32])
    | 5 =>
      let address ← emit (.const (.i32 (← below "ptr" 8)))
      emit (.load type address)
    | _ =>
      let x ← expr room type
      let y ← expr room type
      let c ← condition (expr room .i32)
      emit (.select x y c)

def observation (room : Nat) : Gen Ref := do
  let v ← anyLocal
  let value ← emit (.localGet v)
  match ← below "observe" 3 with
  | 0 => emit (.globalSet (← localType v).code.toNat value)
  | 1 =>
    let address ← emit (.const (.i32 v))
    emit (.store address value)
  | _ => emit (.call "sink" .none [value, ← expr room .i32])

/-- A branch to an enclosing label. Only conditional branches go back to a loop, as others would
never end. -/
def branch (room : Nat) (labels : List Generator.Label) (conditional : Bool) : Gen Ref := do
  match labels with
  | [] => observation room
  | first :: _ =>
    let label := labels.getD (← below "label" labels.length) first
    if conditional then
      emit (.brIf label.name (← condition (expr room .i32)) .absent)
    else if label.isLoop then observation room
    else emit (.br label.name .absent)

/-- A way out: a return, a possible trap, or a branch table over the enclosing blocks. -/
def exit (room : Nat) (labels : List Generator.Label) : Gen Ref := do
  match ← below "exit" 3 with
  | 0 => emit (.ret .absent)
  | 1 =>
    let c ← condition (expr room .i32)
    let trap ← emit .unreachable
    emit (.ifElse c trap .absent)
  | _ =>
    match (labels.reverse.filter fun label => !label.isLoop).map (·.name) with
    | [] => emit (.ret .absent)
    | innermost :: outer => emit (.brTable outer innermost (← expr room .i32) .absent)

def statements (statement : Gen Ref) : Gen (List Ref) := do
  let count ← number "stmts" 1 4
  (List.range count.toNat).mapM fun _ => statement

def block (label : String) (statement : Gen Ref) : Gen Ref := do
  emit (.block label (← statements statement))

def assignment (room : Nat) : Gen (Nat × Ref) := do
  let v ← anyLocal
  return (v, ← expr room (← localType v))

def simple (room : Nat) : Nat → Gen Ref
  | 0 | 1 => do
    let (v, value) ← assignment room
    emit (.localSet v value)
  | 2 => do
    let (v, value) ← assignment room
    emit (.drop (← emit (.localTee v value)))
  | _ => observation room

/-- A statement inside the given labels, outermost first, with room for so many levels. -/
def statement : Nat → List Generator.Label → Gen Ref
  | 0, _ => do simple 0 (← below "stmt" 4)
  | room + 1, labels => do
    match ← below "stmt" 12 with
    | 4 | 5 =>
      let ifTrue ← block "" (statement room labels)
      let ifFalse ← if ← flip "else" then block "" (statement room labels) else pure .absent
      let c ← condition (expr room .i32)
      emit (.ifElse c ifTrue ifFalse)
    | 6 =>
      let name ← newLabel
      block name (statement room (labels ++ [⟨name, false⟩]))
    | 7 =>
      let name ← newLabel
      let items ← statements (statement room (labels ++ [⟨name, true⟩]))
      let back ← emit (.brIf name (← condition (expr (room - 1) .i32)) .absent)
      let body ← emit (.block "" (items ++ [back]))
      emit (.loop name body)
    | 8 | 9 => branch room labels true
    | 10 => branch room labels false
    | 11 => exit room labels
    | choice => simple room choice

def localTypes (what : String) (count : Nat) : Gen (List ValueType) :=
  (List.range count).mapM fun _ => oneOf what ValueType.name .i32 [.i64]

def function : Gen Unit := do
  let numParams ← below "params" 3
  let numVars ← number "vars" 1 7
  let params ← localTypes "param" numParams
  let vars ← localTypes "var" numVars.toNat
  modify fun g => { g with function := { g.function with params, vars } }
  let body ← block "" (statement 4 [])
  modify fun g => { g with function := g.function.finish body }

end Gen

/-- The function made from the given draws, and the draws by name. -/
def Function.generate (draws : List Nat) : Except Failure (Function × List String) := do
  let (_, g) ← Gen.function.run { draws, function := { name := "rand" } }
  return (g.function, g.trace.reverse)

end LocalFlow

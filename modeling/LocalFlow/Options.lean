import LocalFlow.Coalescing.Coloring
import LocalFlow.Journal
import LocalFlow.Numeral

/-!
Options of the passes, the settings that change them, and how settings are read from an environment.
-/

namespace LocalFlow

structure Options where
  order : SlotOrder
  /-- How many functions of a module are processed at once. -/
  parallelism : Int

inductive SettingError
  | invalidOrder (order : SlotOrder)
  | invalidParallelism (parallelism : Int)
  /-- The variable `key` of the environment holds no such value. -/
  | invalidValue (key : String)
  | valueTooSmall (key : String)
deriving DecidableEq

def SettingError.message : SettingError → String
  | .invalidOrder order => s!"wasmflow: invalid color order: {order.name}"
  | .invalidParallelism parallelism => s!"wasmflow: invalid parallelism: {parallelism}"
  | .invalidValue key => s!"wasmflow: invalid value for {key}"
  | .valueTooSmall key => s!"wasmflow: value too small for {key}"

inductive Setting
  | order (order : SlotOrder)
  | parallelism (count : Int)

def Options.set (o : Options) : Setting → Except SettingError Options
  | .order (.unknown code) => .error (.invalidOrder (.unknown code))
  | .order order => .ok { o with order }
  | .parallelism count =>
    if count < 1 then .error (.invalidParallelism count) else .ok { o with parallelism := count }

/-- The options after all settings, of which the last one counts. -/
def Options.build (defaults : Options) (settings : List Setting) : Except SettingError Options :=
  settings.foldlM set defaults

def SlotOrder.unknownMessage (s : String) : String :=
  s!"unknown color order {Text.quote s}"

namespace Environment

/-- A value of the environment, or the default if it is empty. -/
def readOr {α : Type} (key value : String) (parse? : String → Option α) (default : α) :
    Except SettingError α :=
  if value = "" then .ok default
  else match parse? value with
    | some v => .ok v
    | none => .error (.invalidValue key)

/-- A number of at least `least`, read into a signed word. -/
def count (key value : String) (default least : Int) : Except SettingError Int := do
  let v ← readOr key value (fun s => (Numeral.value? s).map fun n => (BitVec.ofNat 64 n).toInt) default
  if value ≠ "" && v < least then .error (.valueTooSmall key) else return v

def slotOrder (key value : String) (default : SlotOrder) : Except SettingError SlotOrder :=
  readOr key value SlotOrder.ofName? default

def logLevel (key value : String) (default : LogLevel) : Except SettingError LogLevel :=
  readOr key value LogLevel.ofName? default

end Environment

end LocalFlow

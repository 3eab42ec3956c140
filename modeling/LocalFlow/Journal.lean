import LocalFlow.Failure
import LocalFlow.Text.Quoted

/-!
The journal that passes write: one line for each message, with the level, the message and then the
fields by key. A value is quoted unless it is made of plain characters only.
-/

namespace LocalFlow

/-- From the most to the least severe. -/
inductive LogLevel
  | panic
  | fatal
  | error
  | warning
  | info
  | debug
  | trace
deriving DecidableEq

namespace LogLevel

def name : LogLevel → String
  | .panic => "panic"
  | .fatal => "fatal"
  | .error => "error"
  | .warning => "warning"
  | .info => "info"
  | .debug => "debug"
  | .trace => "trace"

def all : List LogLevel := [.panic, .fatal, .error, .warning, .info, .debug, .trace]

/-- Capitals count as small letters, the dotted one as well. -/
def lower (c : Char) : Char := if c = 'İ' then 'i' else c.toLower

def ofName? (s : String) : Option LogLevel :=
  let s := String.ofList (s.toList.map lower)
  if s = "warn" then some .warning else all.find? (·.name = s)

def takesDebug : LogLevel → Bool
  | .debug | .trace => true
  | _ => false

end LogLevel

/-- A message for debugging, about one pass over one function. -/
structure LogEntry where
  pass : Pass
  function : String
  message : String
  counts : List (String × Nat)

namespace LogEntry

def isPlain (c : Char) : Bool :=
  c.isAlphanum || c ∈ ['-', '.', '_', '/', '@', '^', '+']

def writeValue (s : String) : String :=
  if s.toList.all isPlain then s else Text.quote s

def fields (e : LogEntry) : List (String × String) :=
  let counts := e.counts.map fun (key, count) => (key, toString count)
  (("func", e.function) :: ("pass", e.pass.name) :: counts).mergeSort fun a b => !(b.1 < a.1)

def line (e : LogEntry) : String :=
  let fields := e.fields.map fun (key, value) => s!" {key}={writeValue value}"
  s!"level={LogLevel.debug.name} msg={writeValue e.message}" ++ String.join fields

/-- The lines of a journal kept at the given level. Every line is ended, so the last one is empty. -/
def lines (level : LogLevel) (entries : List LogEntry) : List String :=
  (if level.takesDebug then entries.map line else []) ++ [""]

end LogEntry

end LocalFlow

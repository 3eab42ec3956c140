import LocalFlow.Options
import LocalFlow.Ssa.Form
import LocalFlow.Statistics

/-!
The passes as they are run from outside: with what they write to the journal and what they add to
the statistics. A pass that fails leaves no trace of itself.
-/

namespace LocalFlow

/-- The result of a pass and what it leaves behind. -/
structure Run (α : Type) where
  result : Except Failure α
  log : List LogEntry := []
  statistics : Statistics := {}

namespace LogEntry

def ofAnalysis (fn : Function) (a : Analysis) : LogEntry :=
  ⟨.liveness, fn.name, "liveness computed",
    [("blocks", a.graph.size), ("interferences", a.numEdges)]⟩

def ofSsa (fn : Function) (form : SsaForm) : LogEntry :=
  ⟨.ssa, fn.name, "ssa form built", [("blocks", form.graph.size), ("phis", form.numPhis)]⟩

def ofSummary (fn : Function) (s : Summary) : LogEntry :=
  ⟨.coalescing, fn.name, "locals coalesced",
    [("before", s.before), ("after", s.after), ("stores", s.stores), ("copies", s.copies)]⟩

end LogEntry

namespace Function

def runAnalysis (fn : Function) : Run Analysis :=
  match fn.analyze with
  | .ok a => { result := .ok a, log := [.ofAnalysis fn a] }
  | .error f => { result := .error f }

def runSsa (fn : Function) : Run SsaForm :=
  match fn.ssa with
  | .ok form => { result := .ok form, log := [.ofSsa fn form] }
  | .error f => { result := .error f }

def runCoalescing {G : Type} (fn : Function) (lib : GraphLibrary G) (o : Options) :
    Run (Function × Summary) :=
  match fn.coalesce lib o.order with
  | .ok c =>
    { result := .ok (c.function, c.summary)
      log := [.ofAnalysis fn c.analysis, .ofSummary fn c.summary]
      statistics := .ofSummary c.summary }
  | .error f => { result := .error f }

end Function

/-- Coalesces the function behind a handle in place. A function that cannot be coalesced stays as it
is. -/
def coalesceAt {G : Type} {n : Nat} (lib : GraphLibrary G) (o : Options) (fns : Vector Function n)
    (i : Fin n) : Vector Function n × Run Summary :=
  let run := (fns.get i).runCoalescing lib o
  let fns := match run.result with
    | .ok (done, _) => fns.set i done i.isLt
    | .error _ => fns
  (fns, { run with result := run.result.map (·.2) })

structure ModuleRun (n : Nat) where
  /-- The functions as the run leaves them. -/
  functions : Vector Function n
  run : Run (List Summary)

def ModuleRun.cons {n : Nat} (s : Summary) (first : Run Summary) (rest : ModuleRun n) : ModuleRun n where
  functions := rest.functions
  run :=
    { result := rest.run.result.map (s :: ·)
      log := first.log ++ rest.run.log
      statistics := first.statistics + rest.run.statistics }

end LocalFlow

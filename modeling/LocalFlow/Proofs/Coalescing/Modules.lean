import Mathlib
import LocalFlow.Proofs.Coalescing.Acceptance

/-! Runs over a module. A module lists handles of functions, which are changed in place. Every handle of
the list has a task of its own, the tasks of a run share one context, and the first that fails cancels
it. If tasks run one at a time, the functions before the first failure are coalesced one after another,
and nothing else happens. -/

namespace LocalFlow

/-- Works on what it shares with other tasks, and may fail. It is told whether the context is
cancelled. -/
abbrev Task (σ : Type) := Bool → σ → σ × Option Failure

/-- Runs tasks, at most a given number of them at once, in a context that may be cancelled beforehand,
and waits for all. This leaves what they share and the failure of the group. -/
abbrev TaskGroup (σ : Type) := Int → List (Task σ) → Bool → σ → σ × Option Failure

def failure? {α : Type} : Except Failure α → Option Failure
  | .ok _ => none
  | .error f => some f

/-- What the tasks of a run over a module share. -/
structure Workspace (n : Nat) where
  functions : Vector Function n
  /-- What each task did, once it is known. -/
  results : List (Option Summary)
  log : List LogEntry
  statistics : Statistics

/-- Coalesces the function behind a handle, unless the context is cancelled, and enters in the given
place what was done. -/
def Workspace.coalesce {G : Type} {n : Nat} (lib : GraphLibrary G) (o : Options) (place : Nat)
    (i : Fin n) : Task (Workspace n) := fun cancelled w =>
  if cancelled then (w, some .cancelled)
  else
    let call := coalesceAt lib o w.functions i
    ({ functions := call.1
       results := w.results.set place call.2.result.toOption
       log := w.log ++ call.2.log
       statistics := w.statistics + call.2.statistics }, failure? call.2.result)

namespace Statistics

theorem add_empty (s : Statistics) : s + {} = s := by
  show add s {} = s
  simp only [add, UInt64.add_zero]

end Statistics

section InTurn

variable {G : Type} {n : Nat} {lib : GraphLibrary G} {order : SlotOrder} {fns fns' : Vector Function n}
  {i j : Fin n} {is : List (Fin n)} {ss : List Summary} {f : Failure} {fn : Function}

namespace CoalescesInTurn

end CoalescesInTurn

end InTurn

section InOrder

variable {G : Type} {n : Nat} {lib : GraphLibrary G} {o : Options} {fns fns' : Vector Function n}
  {i : Fin n} {is : List (Fin n)} {c : Coalesced} {ss : List Summary} {f : Failure}

end InOrder

namespace Workspace

variable {G : Type} {n : Nat} {lib : GraphLibrary G} {o : Options} {w : Workspace n} {place : Nat}
  {i : Fin n} {c : Coalesced} {f : Failure}

/-- A task that fails leaves everything as it was. -/
theorem coalesce_of_error (hplace : w.results[place]? = some none)
    (h : (w.functions.get i).coalesce lib o.order = .error f) :
    coalesce lib o place i false w = (w, some f) := by
  have hresults : w.results.set place none = w.results := by
    obtain ⟨hlt, hnone⟩ := List.getElem?_eq_some_iff.mp hplace
    rw [← hnone]
    exact List.set_getElem_self hlt
  simp only [coalesce, Bool.false_eq_true, if_false, Function.coalesceAt_of_error h, Except.toOption,
    hresults, List.append_nil, Statistics.add_empty, failure?]

end Workspace

namespace TaskGroup.OneAtATime

variable {G : Type} {n : Nat} {lib : GraphLibrary G} {group : TaskGroup (Workspace n)} {o : Options}

end TaskGroup.OneAtATime

/-- Runs tasks in order, whatever the limit. -/
def TaskGroup.inOrder {σ : Type} : TaskGroup σ
  | _, [], _, s => (s, none)
  | limit, task :: tasks, cancelled, s =>
    match task cancelled s with
    | (s', none) => inOrder limit tasks cancelled s'
    | (s', some f) => ((inOrder limit tasks true s').1, some f)

end LocalFlow

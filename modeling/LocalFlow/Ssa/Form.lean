import LocalFlow.Graph.Lowering
import LocalFlow.Ssa.Renaming

/-!
The static single assignment form of a function: the definition that each read of a local sees, and
the merges of definitions at the joins of control flow.
-/

namespace LocalFlow

structure SsaForm where
  graph : Graph Ref
  dominators : DominatorTree
  /-- The merges of each block, by ascending local. -/
  phis : Array (List Phi)
  /-- The reads in reachable code and what they see, in visiting order. -/
  reads : List (Ref × Definition)

namespace SsaForm

/-- The definition seen by the read `r`. A read that is visited again sees the later one. -/
def definitionOf? (form : SsaForm) (r : Ref) : Option Definition :=
  form.reads.reverse.lookup r

def usesOf (form : SsaForm) (d : Definition) : List Ref :=
  (form.reads.filter (·.2 = d)).map (·.1)

def uses (form : SsaForm) : List Ref :=
  (IndexSet.ofList (form.reads.map (·.1.toNat))).toList.map Int.ofNat

def phisAt (form : SsaForm) (b : Nat) : List Phi := form.phis.getD b []

def phi? (form : SsaForm) (b v : Nat) : Option Phi :=
  (form.phisAt b).find? (·.index = v)

def numPhis (form : SsaForm) : Nat := form.phis.toList.flatten.length

def blockOf? (form : SsaForm) (r : Ref) : Option Nat :=
  (List.range form.graph.size).find? fun b => r ∈ form.graph.items b

/-- The block that a definition happens in. What a local starts with is defined at the entry. -/
def definitionBlock? (form : SsaForm) : Definition → Option Nat
  | .phi block _ => some block
  | .instr r _ => form.blockOf? r
  | .param _ | .zero _ => form.graph.start?

end SsaForm

namespace Function

def ssaOver (fn : Function) (g : Graph Ref) (t : DominatorTree) : Except Failure SsaForm := do
  fn.checkAccesses g t
  let start := Renaming.start fn (fn.placePhis g t)
  let done ← match t.order with
    | [] => pure start
    | e :: _ => Renaming.visit fn g t g.size e start
  return ⟨g, t, done.phis, done.reads.reverse⟩

/-- The form of a function. Only its labels and the locals accessed in reachable code are checked. -/
def ssa (fn : Function) : Except Failure SsaForm :=
  Except.mapError (.inPass .ssa fn.name) do
    let g ← fn.nodeGraph
    fn.ssaOver g (← g.dominatorTree)

end Function

end LocalFlow

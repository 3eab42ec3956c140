import LocalFlow.Function.Tree

/-!
The text of an expression and of a function: parenthesized, on one line, the node's own description
first and its present children after it.
-/

namespace LocalFlow

def Node.description (n : Node) : String :=
  match n.kind with
  | .const => s!"{n.value.type.name}.const {n.value.text}"
  | .unary | .binary => s!"{n.type.name}.{n.op.name}"
  | .load => s!"{n.type.name}.load"
  | .localGet | .localSet | .localTee | .globalGet | .globalSet => s!"{n.kind.name} {n.index}"
  | .block | .loop => if n.label = "" then n.kind.name else s!"{n.kind.name} ${n.label}"
  | .br => if n.isConditional then s!"br_if ${n.label}" else s!"br ${n.label}"
  | .brTable => (n.labels ++ [n.label]).foldl (fun text label => s!"{text} ${label}") "br_table"
  | .call => s!"call ${n.label}"
  | kind => kind.name

namespace Tree

mutual

def format : Tree → Except Failure String
  | .absent => .ok "nil"
  | .dangling _ | .endless _ => .error .outOfRange
  | .node _ n kids => return s!"({n.description}{← formatAll kids})"

def formatAll : List (Unit → Tree) → Except Failure String
  | [] => .ok ""
  | t :: ts =>
    if (t ()).isPresent then return s!" {← format (t ())}{← formatAll ts}" else formatAll ts

end

end Tree

namespace Function

def format (fn : Function) (r : Ref) : Except Failure String :=
  (fn.tree r).format

def declarations (role : String) (types : List ValueType) : String :=
  String.join (types.map fun type => s!" ({role} {type.name})")

def text (fn : Function) : Except Failure String := do
  let body ← Tree.formatAll [fun _ => fn.tree fn.body]
  return s!"(func ${fn.name}" ++ declarations "param" fn.params ++
    declarations "result" fn.results ++ declarations "local" fn.vars ++ body ++ ")"

end Function

end LocalFlow

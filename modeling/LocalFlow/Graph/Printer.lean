import LocalFlow.Graph.Order
import LocalFlow.Text.Listing
import LocalFlow.Text.Markup

/-!
Two texts of a graph: a drawing in the language of graph viewers, where unreachable blocks are
dashed, and a listing of every field for diagnostics.
-/

namespace LocalFlow

structure ItemStyle (α : Type) where
  /-- The type as an argument of the block type. -/
  argument : String
  type : String
  text : α → String

namespace ItemStyle

def ref : ItemStyle Ref := ⟨"github.com/cloudwego/wasmflow/ir.Ref", "ir.Ref", Ref.text⟩

def index : ItemStyle Nat := ⟨"uint32", "uint32", toString⟩

def int : ItemStyle Int := ⟨"int", "int", toString⟩

end ItemStyle

namespace Graph

variable {α : Type}

def dotBlock (b : Nat) (dashed : Bool) (rows : List String) : String :=
  let style := if dashed then " style=\"dashed\"" else ""
  let row (content : String) : String := s!"<tr><td align=\"left\">{content}</td></tr>"
  s!"    bb_{b} [label=<<table border=\"1\" cellborder=\"0\"{style}>" ++ row s!"<b>bb_{b}</b>" ++
    String.join (rows.map fun r => row (Text.escapeMarkup r)) ++ "</table>>];\n"

def dot (g : Graph α) (name : String) (label : α → Except Failure String) :
    Except Failure String := do
  let reachable ← g.reachable
  let blocks ← (g.blocks.toList.zip reachable).mapM fun (block, live) =>
    return dotBlock block.id (!live) (← block.items.mapM label)
  let edges := g.blocks.toList.flatMap fun block =>
    block.succ.map fun s => s!"    bb_{block.id} -> bb_{s};\n"
  return s!"digraph {Text.quote name} \x7b\n" ++
    "    node [shape=plaintext fontname=\"monospace\"];\n" ++
    String.join blocks ++ String.join edges ++ "\x7d\n"

def dumpBlock (style : ItemStyle α) (block : Block α) : String :=
  let ints (xs : List Nat) : String := Text.listing 8 "int" (xs.map fun x => s!"(int) {x}")
  let items := block.items.map fun x => s!"({style.type}) {style.text x}"
  s!"(*cfg.Block[{style.argument}])(" ++
    Text.braces 4 [s!"Id: (int) {block.id}", "Pred: " ++ ints block.pred, "Succ: " ++ ints block.succ,
      "Ins: " ++ Text.listing 8 style.type items] ++ ")"

def dump (g : Graph α) (style : ItemStyle α) : String :=
  Text.listing 0 s!"*cfg.Block[{style.argument}]"
    (g.blocks.toList.map (dumpBlock style)) ++ "\n"

end Graph

end LocalFlow

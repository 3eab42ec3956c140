/-!
Typed listings for diagnostics: a list is written with its type, its length and one item a line,
each four columns further in than the list itself.
-/

namespace LocalFlow.Text

def indent (columns : Nat) (s : String) : String :=
  String.ofList (List.replicate columns ' ') ++ s

/-- Items between braces, for a list that starts in the given column. -/
def braces (column : Nat) (items : List String) : String :=
  "\x7b\n" ++ ",\n".intercalate (items.map (indent (column + 4))) ++ "\n" ++ indent column "\x7d"

/-- A list with its type. A list without items has no braces. -/
def listing (column : Nat) (type : String) (items : List String) : String :=
  if items.isEmpty then s!"([]{type}) <nil>"
  else s!"([]{type}) (len={items.length}) " ++ braces column items

end LocalFlow.Text

/-!
Text inside markup: the characters with a meaning of their own are written as entities.
-/

namespace LocalFlow.Text

def entity (c : Char) : List Char :=
  match c with
  | '&' => "&amp;".toList
  | '\'' => "&#39;".toList
  | '<' => "&lt;".toList
  | '>' => "&gt;".toList
  | '"' => "&#34;".toList
  | c => [c]

def escapeMarkup (s : String) : String :=
  String.ofList (s.toList.flatMap entity)

end LocalFlow.Text

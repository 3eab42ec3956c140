/-!
Unsigned numerals as settings are written: decimal, or with a marker for base two, eight or sixteen;
a leading zero alone also marks base eight. Single underscores may stand between digits and after a
marker.
-/

namespace LocalFlow.Numeral

def digit? (c : Char) : Option Nat :=
  if '0' ≤ c && c ≤ '9' then some (c.toNat - '0'.toNat)
  else
    let c := c.toLower
    if 'a' ≤ c && c ≤ 'z' then some (c.toNat - 'a'.toNat + 10) else none

/-- The base of a numeral, its digits, and whether a marker stands before them. -/
def base (s : List Char) : Nat × List Char × Bool :=
  match s with
  | '0' :: marker :: digit :: rest =>
    match marker.toLower with
    | 'b' => (2, digit :: rest, true)
    | 'o' => (8, digit :: rest, true)
    | 'x' => (16, digit :: rest, true)
    | _ => (8, marker :: digit :: rest, true)
  | '0' :: rest => (8, rest, true)
  | s => (10, s, false)

/-- Reads digits on top of `value`. An underscore needs a digit or a marker right before it, as
`afterDigit` says, and a digit after it. -/
def digits? (base value : Nat) (afterDigit : Bool) : List Char → Option Nat
  | [] => if afterDigit then some value else none
  | '_' :: rest => if afterDigit then digits? base value false rest else none
  | c :: rest =>
    match digit? c with
    | some d => if d < base then digits? base (base * value + d) true rest else none
    | none => none

/-- The value of a numeral that fits into 64 bits. -/
def value? (s : String) : Option Nat :=
  let (base, digits, marked) := base s.toList
  match digits? base 0 marked digits with
  | some value => if value < UInt64.size then some value else none
  | none => none

end LocalFlow.Numeral

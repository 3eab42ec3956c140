import LocalFlow.Text.Printable

/-!
Quoted text: double quotes around the characters, a backslash before a quote or a backslash, short
escapes for the common control characters and hexadecimal ones for all else that cannot be printed.
-/

namespace LocalFlow.Text

def hexadecimal (width n : Nat) : List Char :=
  let digits := Nat.toDigits 16 n
  List.replicate (width - digits.length) '0' ++ digits

def escape (c : Char) : List Char :=
  if c = '"' || c = '\\' then ['\\', c]
  else if isPrintable c then [c]
  else match c.toNat with
    | 7 => ['\\', 'a']
    | 8 => ['\\', 'b']
    | 9 => ['\\', 't']
    | 10 => ['\\', 'n']
    | 11 => ['\\', 'v']
    | 12 => ['\\', 'f']
    | 13 => ['\\', 'r']
    | n =>
      if n < 0x20 || n = 0x7f then '\\' :: 'x' :: hexadecimal 2 n
      else if n < 0x10000 then '\\' :: 'u' :: hexadecimal 4 n
      else '\\' :: 'U' :: hexadecimal 8 n

def quote (s : String) : String :=
  String.ofList ('"' :: s.toList.flatMap escape ++ ['"'])

end LocalFlow.Text

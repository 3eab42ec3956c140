/-!
The shortest decimal that reads back as a given binary number. A positive binary number `m * 2 ^ q`
owns an interval of reals that round to it; on each decimal grid, coarsest first, the two
neighbours of the number are tried, and the first grid with a neighbour inside the interval wins.
-/

namespace LocalFlow.Decimal

/-- A positive binary number together with the shape of its rounding interval. -/
structure Binary where
  mantissa : Nat
  exponent : Int
  /-- The gap to the next smaller number is half the gap to the next larger one. -/
  narrowBelow : Bool

/-- The decimal `significand * 10 ^ exponent`. -/
structure Scaled where
  significand : Nat
  exponent : Int

def powerOfTen (k : Int) : Nat := Nat.pow 10 k.toNat

def digitCount (n : Nat) : Nat :=
  (Nat.toDigits 10 n).length

def leadingExponent (num den : Nat) : Int :=
  if den ≤ num then (digitCount (num / den) : Int) - 1
  else -(digitCount ((den + num - 1) / num - 1) : Int)

namespace Binary

/-- The number in quarters of its last place, as a quotient of naturals. -/
def quotient (x : Binary) (quarters : Nat) : Nat × Nat :=
  let q := x.exponent - 2
  (quarters <<< q.toNat, 1 <<< (-q).toNat)

/-- Whether `c * 10 ^ k` rounds to the number. The ends belong to it when its mantissa is even. -/
def owns (x : Binary) (c : Nat) (k : Int) : Bool :=
  let (lo, den) := x.quotient (4 * x.mantissa - if x.narrowBelow then 1 else 2)
  let (hi, _) := x.quotient (4 * x.mantissa + 2)
  let point := c * powerOfTen k * den
  let scale := powerOfTen (-k)
  if x.mantissa % 2 = 0 then lo * scale ≤ point && point ≤ hi * scale
  else lo * scale < point && point < hi * scale

/-- The neighbour on the grid of `10 ^ k` that rounds to the number; of two such neighbours the
nearer, and the even one where both are equally near. -/
def onGrid? (x : Binary) (k : Int) : Option Nat :=
  let (num, den) := x.quotient (4 * x.mantissa)
  let top := num * powerOfTen (-k)
  let unit := powerOfTen k * den
  let below := top / unit
  let past := 2 * (top % unit)
  match x.owns below k, x.owns (below + 1) k with
  | true, true =>
    if past < unit then some below
    else if unit < past then some (below + 1)
    else some (below + below % 2)
  | true, false => some below
  | false, true => some (below + 1)
  | false, false => none

def search (x : Binary) : Nat → Int → Scaled
  | 0, k => ⟨0, k⟩
  | tries + 1, k =>
    match x.onGrid? k with
    | some c => ⟨c, k⟩
    | none => x.search tries (k - 1)

/-- No binary format in use here needs more than 17 digits. -/
def shortest (x : Binary) : Scaled :=
  let (num, den) := x.quotient (4 * x.mantissa)
  x.search 17 (leadingExponent num den)

end Binary

/-- Significant digits without trailing zeros, and the exponent of the first one. -/
def Scaled.digits (d : Scaled) : List Char × Int :=
  let all := Nat.toDigits 10 d.significand
  ((all.reverse.dropWhile (· = '0')).reverse, d.exponent + all.length - 1)

end LocalFlow.Decimal

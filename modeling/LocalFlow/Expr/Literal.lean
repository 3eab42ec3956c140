import LocalFlow.Decimal.Shortest
import LocalFlow.Expr.Kind

/-!
Constants. A literal keeps the raw bits of its value; its text depends on its type: signed decimals
for integers, the shortest decimal that reads back for floating point, hexadecimal for all else.
-/

namespace LocalFlow

/-- A binary floating-point format, by the widths of its fields. -/
structure FloatFormat where
  fractionBits : Nat
  exponentBits : Nat

namespace FloatFormat

def single : FloatFormat := ⟨23, 8⟩

def double : FloatFormat := ⟨52, 11⟩

/-- The number with biased exponent `e` and nonzero fraction or exponent. Exponent zero marks the
subnormal numbers, which have no leading one. -/
def binary (F : FloatFormat) (e fraction : Nat) : Decimal.Binary :=
  let least : Int := 2 - (1 <<< (F.exponentBits - 1) : Nat) - F.fractionBits
  if e = 0 then ⟨fraction, least, false⟩
  else ⟨(1 <<< F.fractionBits) + fraction, least + e - 1, fraction = 0 && 1 < e⟩

end FloatFormat

structure FloatStyle where
  /-- Exponents of the first digit that are written without an exponent part. -/
  plainFrom : Int
  plainBelow : Int
  /-- Least number of digits in an exponent part. -/
  exponentWidth : Nat

namespace FloatStyle

def fraction (digits : List Char) : List Char :=
  if digits.isEmpty then [] else '.' :: digits

/-- Digits written without an exponent part, the first one standing at `10 ^ exponent`. -/
def plain (digits : List Char) (exponent : Int) : List Char :=
  if exponent < 0 then
    '0' :: fraction (List.replicate (-exponent - 1).toNat '0' ++ digits)
  else
    let whole := exponent.toNat + 1
    digits.take whole ++ List.replicate (whole - digits.length) '0' ++ fraction (digits.drop whole)

/-- Digits written with one digit before the point and a signed exponent part. -/
def scientific (style : FloatStyle) (digits : List Char) (exponent : Int) : List Char :=
  let power := Nat.toDigits 10 exponent.natAbs
  digits.take 1 ++ fraction (digits.drop 1) ++
    ['e', if exponent < 0 then '-' else '+'] ++
    List.replicate (style.exponentWidth - power.length) '0' ++ power

def write (style : FloatStyle) (d : Decimal.Scaled) : List Char :=
  let (digits, exponent) := d.digits
  if style.plainFrom ≤ exponent && exponent < style.plainBelow then plain digits exponent
  else style.scientific digits exponent

end FloatStyle

structure Literal where
  type : ValueType := .none
  bits : UInt64 := 0
deriving DecidableEq

namespace Literal

def i32 (v : Int) : Literal := ⟨.i32, (BitVec.ofInt 32 v).toNat.toUInt64⟩

def i64 (v : Int) : Literal := ⟨.i64, (BitVec.ofInt 64 v).toNat.toUInt64⟩

def f32 (bits : UInt64) : Literal := ⟨.f32, bits.toUInt32.toUInt64⟩

def f64 (bits : UInt64) : Literal := ⟨.f64, bits⟩

/-- Numbers from a ten-thousandth up to a million are written out; others have an exponent part of
at least two digits. -/
def floatStyle : FloatStyle := ⟨-4, 6, 2⟩

def floatText (F : FloatFormat) (bits : Nat) : String :=
  let fraction := bits % (1 <<< F.fractionBits)
  let e := (bits >>> F.fractionBits) % (1 <<< F.exponentBits)
  let negative := (bits >>> (F.fractionBits + F.exponentBits)) % 2 = 1
  if e = (1 <<< F.exponentBits) - 1 then
    if fraction ≠ 0 then "NaN" else if negative then "-Inf" else "+Inf"
  else
    let digits := if e = 0 && fraction = 0 then ['0']
      else floatStyle.write (F.binary e fraction).shortest
    String.ofList (if negative then '-' :: digits else digits)

def text (v : Literal) : String :=
  match v.type with
  | .i32 => toString (BitVec.ofNat 32 v.bits.toNat).toInt
  | .i64 => toString (BitVec.ofNat 64 v.bits.toNat).toInt
  | .f32 => floatText .single (v.bits.toUInt32.toNat)
  | .f64 => floatText .double v.bits.toNat
  | _ => "0x" ++ String.ofList (Nat.toDigits 16 v.bits.toNat)

end Literal

end LocalFlow

import MiniLua.Text.Bytes
import MiniLua.Binary64.Rounding

/-!
Numbers in writing. A style fixes the number of digits, where the exponent form begins and the words for the rest.
-/

namespace MiniLua.Binary64

open Text

structure Style where
  /-- Significant digits; without a number, the fewest that read back. -/
  precision : Option Nat
  /-- Decimal exponents below -4, and from here on, are written in exponent form. -/
  exponentFrom : Int
  /-- Whether an integral number ends in `.0`. -/
  pointZero : Bool
  infinity : String
  negInfinity : String
  nan : String

/-- Drops the zeros at the end of the digits. -/
def Decimal.trim (d : Decimal) : Decimal :=
  let kept := trimRight (· == 0x30) (decimal d.digits)
  ⟨digitsValue 10 kept, kept.length, d.exponent⟩

def writeExponent (e : Int) : Bytes :=
  0x65 :: (if e < 0 then 0x2d else 0x2b) :: padLeft 0x30 2 (decimal e.natAbs)

/-- Puts the point behind the first `n` digits, with zeros where digits are missing on either side. -/
def placePoint (n : Int) (digits : Bytes) : Bytes × Bytes :=
  if n ≤ 0 then ([0x30], List.replicate (-n).toNat 0x30 ++ digits)
  else (digits.take n.toNat ++ List.replicate (n.toNat - digits.length) 0x30, digits.drop n.toNat)

def Style.decimalForm (s : Style) (whole part : Bytes) : Bytes :=
  if part.isEmpty then (if s.pointZero then whole ++ utf8 ".0" else whole) else whole ++ 0x2e :: part

def Style.magnitude (s : Style) (d : Decimal) : Bytes :=
  let digits := decimal d.digits
  if d.exponent < -4 ∨ s.exponentFrom ≤ d.exponent then
    let (whole, part) := placePoint 1 digits
    (if part.isEmpty then whole else whole ++ 0x2e :: part) ++ writeExponent d.exponent
  else
    let (whole, part) := placePoint (d.exponent + 1) digits
    s.decimalForm whole part

def write (s : Style) (x : Binary64) : Bytes :=
  if x.isNaN then utf8 s.nan
  else if x.isInfinite then utf8 (if x.isNegative then s.negInfinity else s.infinity)
  else
    let sign : Bytes := if x.isNegative then [0x2d] else []
    if x.isZero then sign ++ s.decimalForm [0x30] []
    else
      let (n, d) := x.quotient
      let rounded := match s.precision with
        | some count => roundDigits count n d
        | none => x.shortest
      sign ++ s.magnitude rounded.trim

end MiniLua.Binary64

import MiniLua.Binary64.Rounding
import MiniLua.Text.Bytes

/-!
Decimal numerals of any length and the doubles they stand for. The first 19 digits are enough, unless what follows them
could change the result; then up to 800 digits count.
-/

namespace MiniLua

open Text

structure Numeral where
  /-- Digits from the first one that is not zero. -/
  digits : Bytes
  /-- How many of the digits stand in front of the point; below zero if zeros stand between them. -/
  point : Int
  power : Int
  deriving DecidableEq, Repr

namespace Numeral

/-- The numeral with digits in front of the point, digits behind it, and a power of ten. -/
def ofParts (whole part : Bytes) (power : Int) : Numeral :=
  let zeros := (whole ++ part).takeWhile (· == 0x30)
  ⟨(whole ++ part).drop zeros.length, (whole.length : Int) - zeros.length, power⟩

/-- Value of exponent digits; past ten thousand further digits no longer count. -/
def exponentValue (ds : Bytes) : Nat := ds.foldl (fun e d => if e < 10000 then e * 10 + hexValue d else e) 0

def signedExponent (negative : Bool) (ds : Bytes) : Int :=
  if negative then -(exponentValue ds : Int) else exponentValue ds

def shortLength : Nat := 19

def longLength : Nat := 800

/-- Whether the digits behind the first `n` add nothing. -/
def endsWithin (x : Numeral) (n : Nat) : Bool := (x.digits.drop n).all (· == 0x30)

/-- The double that the first 19 digits give, if they decide: they are all, or counting one more in the last place gives
the same. They do not decide that a number is too large. -/
def short? (x : Numeral) : Option Binary64 :=
  let head := x.digits.take shortLength
  let e := x.point + x.power - head.length
  let y := Binary64.ofDecimal (digitsValue 10 head) e
  if y.isInfinite then none
  else if x.endsWithin shortLength || Binary64.ofDecimal (digitsValue 10 head + 1) e = y then some y
  else none

/-- The double nearest to the first 800 digits. Digits behind them make the number a little larger, if they are not all
zero, and do not move the point to the right. -/
def long (x : Numeral) : Binary64 :=
  let head := x.digits.take longLength
  let more := if x.endsWithin longLength then 0 else 1
  .ofDecimal (digitsValue 10 head * 10 + more) (min x.point longLength + x.power - head.length - 1)

def toBinary64 (x : Numeral) : Binary64 := x.short?.getD x.long

end Numeral

end MiniLua

/-!
Double precision numbers, kept as their 64 bits: one sign bit, eleven exponent bits, 52 fraction bits.
-/

namespace MiniLua

structure Binary64 where
  bits : UInt64
  deriving DecidableEq, Repr, Inhabited

namespace Binary64

/-- Weight of the bit in front of the fraction. -/
def leadingBit : Nat := 0x10000000000000

/-- Weight of the sign bit. -/
def signBit : Nat := 0x8000000000000000

def exponentField (x : Binary64) : Nat := x.bits.toNat / leadingBit % 0x800

def fraction (x : Binary64) : Nat := x.bits.toNat % leadingBit

def isNegative (x : Binary64) : Bool := signBit ≤ x.bits.toNat

def isNaN (x : Binary64) : Bool := x.exponentField == 0x7ff && x.fraction != 0

def isInfinite (x : Binary64) : Bool := x.exponentField == 0x7ff && x.fraction == 0

def isZero (x : Binary64) : Bool := x.exponentField == 0 && x.fraction == 0

/-- Numeric equality: a NaN differs from everything, the two zeros are one number. -/
def sameNumber (x y : Binary64) : Bool :=
  !x.isNaN && !y.isNaN && (x.bits == y.bits || (x.isZero && y.isZero))

def neg (x : Binary64) : Binary64 := ⟨x.bits ^^^ 0x8000000000000000⟩

def zero : Binary64 := ⟨0⟩

def infinity : Binary64 := ⟨0x7ff0000000000000⟩

/-- A finite number is `mantissa * 2 ^ scale`, up to its sign. -/
def mantissa (x : Binary64) : Nat := if x.exponentField = 0 then x.fraction else leadingBit + x.fraction

def scale (x : Binary64) : Int := if x.exponentField = 0 then -1074 else (x.exponentField : Int) - 1075

/-- Order of the non-NaN numbers as an integer key; both zeros have key zero. -/
def orderKey (x : Binary64) : Int :=
  let magnitude : Int := (x.bits.toNat % signBit : Nat)
  if x.isNegative then -magnitude else magnitude

end Binary64

end MiniLua

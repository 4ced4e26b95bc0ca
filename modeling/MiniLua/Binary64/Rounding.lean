import MiniLua.Binary64.Basic

/-!
Rounding of exact quotients: to the nearest double, and to the nearest number with a given count of decimal digits.
A tie goes to the even neighbour.
-/

namespace MiniLua.Binary64

def roundDiv (num den : Nat) : Nat :=
  let q := num / den
  let r := num % den
  if 2 * r < den ∨ (2 * r = den ∧ q % 2 = 0) then q else q + 1

/-- `num * base ^ e / den` as a quotient of natural numbers. -/
def scaled (base : Nat) (e : Int) (num den : Nat) : Nat × Nat :=
  if 0 ≤ e then (num * base.pow e.toNat, den) else (num, den * base.pow (-e).toNat)

/-- The double nearest to `num / den`; too large a quotient gives infinity. -/
def ofQuotient (num den : Nat) : Binary64 :=
  if num = 0 then zero
  else
    let guess : Int := (num.log2 : Int) - den.log2 - 52
    let (n, d) := scaled 2 (-guess) num den
    let e := max (if n / d < leadingBit then guess - 1 else guess) (-1074)
    let (n, d) := scaled 2 (-e) num den
    let bits := (e + 1074).toNat * leadingBit + roundDiv n d
    if bits < 0x7ff * leadingBit then ⟨bits.toUInt64⟩ else infinity

/-- Largest `e` with `10 ^ e ≤ num / den`, for a positive quotient. -/
def decimalExponent (num den : Nat) : Int :=
  let guess : Int := ((num.log2 : Int) - den.log2) * 30103 / 100000
  let reaches (e : Int) : Bool := let (n, d) := scaled 10 (-e) num den; d ≤ n
  if reaches (guess + 1) then guess + 1 else if reaches guess then guess else guess - 1

/-- A number `digits * 10 ^ (exponent + 1 - count)`, where `digits` has `count` decimal digits. -/
structure Decimal where
  digits : Nat
  count : Nat
  exponent : Int
  deriving DecidableEq, Repr

/-- The quotient `num / den` on the grid of numbers with `count` significant digits: the position as a quotient in units
of the grid, and the decimal exponent. -/
def onGrid (count num den : Nat) : (Nat × Nat) × Int :=
  let e := decimalExponent num den
  (scaled 10 ((count : Int) - 1 - e) num den, e)

def gridPoint (count : Nat) (e : Int) (digits : Nat) : Decimal :=
  if digits < Nat.pow 10 count then ⟨digits, count, e⟩ else ⟨Nat.pow 10 (count - 1), count, e + 1⟩

/-- Nearest number with `count` significant digits to the positive quotient `num / den`. -/
def roundDigits (count num den : Nat) : Decimal :=
  let ((n, d), e) := onGrid count num den
  gridPoint count e (roundDiv n d)

/-- The two neighbours of `num / den` with `count` significant digits, the nearer one first. -/
def neighbours (count num den : Nat) : List Decimal :=
  let ((n, d), e) := onGrid count num den
  let nearest := roundDiv n d
  let other := if nearest = n / d then nearest + 1 else n / d
  [gridPoint count e nearest, gridPoint count e other]

/-- The double nearest to `digits * 10 ^ e`. -/
def ofDecimal (digits : Nat) (e : Int) : Binary64 :=
  let size : Int := (Nat.log2 digits : Int) * 30103 / 100000 + 1 + e
  if digits = 0 ∨ size < -400 then zero
  else if 400 < size then infinity
  else
    let (n, d) := scaled 10 e digits 1
    ofQuotient n d

/-- Magnitude of a finite number as a quotient. -/
def quotient (x : Binary64) : Nat × Nat := scaled 2 x.scale x.mantissa 1

/-- The nearest of the numbers with the fewest significant digits that read back as `x`; 17 digits always suffice. -/
def shortest (x : Binary64) : Decimal :=
  let (n, d) := x.quotient
  let readsBack (r : Decimal) : Bool :=
    (ofDecimal r.digits (r.exponent + 1 - r.count)).bits == x.bits % 0x8000000000000000
  ((List.range 17).flatMap fun k => neighbours (k + 1) n d).find? readsBack |>.getD (roundDigits 17 n d)

end MiniLua.Binary64

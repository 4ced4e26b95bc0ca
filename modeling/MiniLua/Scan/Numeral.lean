import MiniLua.Binary64.Numeral
import MiniLua.Scan.StringLiteral

/-!
Numerals: hexadecimal integers, which wrap around at 64 bits, and decimal numbers. A decimal number without point and
exponent is an integer if it fits.
-/

namespace MiniLua.Scan

open Text

/-- What stands at the head of an input: a lexeme and its length, or a fault. -/
inductive Reading where
  | lexeme (lexeme : Lexeme) (length : Nat)
  | stop (stop : Stop)
  deriving DecidableEq, Repr

/-- Bytes that may not follow a numeral directly. -/
def continuesNumeral (b : UInt8) : Bool := isNameByte b || b == 0x2e

/-- The whole run of letters, digits and points behind the first `n` bytes belongs to the bad numeral. -/
def malformed (bs : Bytes) (n : Nat) : Reading :=
  let length := n + ((bs.drop n).takeWhile continuesNumeral).length
  .stop ⟨.malformedNumber (bs.take length), 0, length⟩

def endNumeral (bs : Bytes) (n : Nat) (value : Bytes → Lexeme) : Reading :=
  if (bs[n]?.map continuesNumeral).getD false then malformed bs n else .lexeme (value (bs.take n)) n

def hexNumeral (bs : Bytes) : Reading :=
  let digits := (bs.drop 2).takeWhile isHexDigit
  if digits.isEmpty then malformed bs 2
  else endNumeral bs (digits.length + 2) fun literal => .integer literal (.ofNat (digitsValue 16 digits))

/-- Length of an exponent's mark and sign at the head. -/
def exponentMark : Bytes → Nat
  | e :: r =>
    if e = 0x65 ∨ e = 0x45 then
      match r with
      | s :: _ => if s = 0x2b ∨ s = 0x2d then 2 else 1
      | [] => 1
    else 0
  | [] => 0

/-- Length of a point at the head and the digits behind it. -/
def fractionLength : Bytes → Nat
  | 0x2e :: r => (r.takeWhile isDigit).length + 1
  | _ => 0

/-- Value of `w` digits, a point, further digits up to the length `n`, and a power of ten. -/
def decimalValue (bs : Bytes) (w n : Nat) (power : Int) : Binary64 :=
  (Numeral.ofParts (bs.take w) ((bs.take n).drop (w + 1)) power).toBinary64

/-- A numeral of `w` digits, with a point if it is longer than that. -/
def plainDecimal (w : Nat) (literal : Bytes) : Lexeme :=
  if literal.length = w ∧ digitsValue 10 literal < 0x8000000000000000 then
    .integer literal (.ofNat (digitsValue 10 literal))
  else .float literal (decimalValue literal w literal.length 0)

def decimalNumeral (bs : Bytes) : Reading :=
  let w := (bs.takeWhile isDigit).length
  let n := w + fractionLength (bs.drop w)
  let mark := exponentMark (bs.drop n)
  let power := (bs.drop (n + mark)).takeWhile isDigit
  if mark = 0 then endNumeral bs n (plainDecimal w)
  else if power.isEmpty then malformed bs (n + mark)
  else
    endNumeral bs (n + mark + power.length) fun literal =>
      .float literal (decimalValue bs w n (Numeral.signedExponent (bs[n + 1]? = some 0x2d) power))

def numeral (bs : Bytes) : Reading :=
  match bs with
  | 0x30 :: x :: _ => if x = 0x78 ∨ x = 0x58 then hexNumeral bs else decimalNumeral bs
  | _ => decimalNumeral bs

end MiniLua.Scan

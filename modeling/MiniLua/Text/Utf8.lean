import MiniLua.Text.Bytes

/-!
Reading UTF-8. A byte string splits into runes: well-formed encodings of one code point each, and stray bytes that
belong to none.
-/

namespace MiniLua.Text

def isContinuation (b : UInt8) : Bool := 0x80 ≤ b && b ≤ 0xbf

/-- Range of the second byte after a lead byte of a three or four byte form. It keeps out overlong forms, surrogates
and numbers past U+10FFFF. -/
def secondRange (lead : UInt8) : UInt8 × UInt8 :=
  if lead = 0xe0 then (0xa0, 0xbf)
  else if lead = 0xed then (0x80, 0x9f)
  else if lead = 0xf0 then (0x90, 0xbf)
  else if lead = 0xf4 then (0x80, 0x8f)
  else (0x80, 0xbf)

def isSecond (lead b : UInt8) : Bool := (secondRange lead).1 ≤ b && b ≤ (secondRange lead).2

def low6 (b : UInt8) : Nat := b.toNat % 0x40

/-- The code point encoded at the head, and the number of bytes it takes. -/
def decodeScalar : Bytes → Option (Nat × Nat)
  | [] => none
  | a :: r =>
    if a < 0x80 then some (a.toNat, 1)
    else if 0xc2 ≤ a && a ≤ 0xdf then
      match r with
      | b :: _ => if isContinuation b then some (a.toNat % 0x20 * 0x40 + low6 b, 2) else none
      | _ => none
    else if 0xe0 ≤ a && a ≤ 0xef then
      match r with
      | b :: c :: _ =>
        if isSecond a b && isContinuation c then
          some (a.toNat % 0x10 * 0x1000 + low6 b * 0x40 + low6 c, 3)
        else none
      | _ => none
    else if 0xf0 ≤ a && a ≤ 0xf4 then
      match r with
      | b :: c :: d :: _ =>
        if isSecond a b && isContinuation c && isContinuation d then
          some (a.toNat % 0x08 * 0x40000 + low6 b * 0x1000 + low6 c * 0x40 + low6 d, 4)
        else none
      | _ => none
    else none

inductive Rune where
  | scalar (code : Nat)
  | stray (byte : UInt8)
  deriving DecidableEq, Repr

def runes (bs : Bytes) : List Rune :=
  match bs with
  | [] => []
  | b :: r =>
    match decodeScalar (b :: r) with
    | some (code, width) => .scalar code :: runes (r.drop (width - 1))
    | none => .stray b :: runes r
termination_by bs.length
decreasing_by all_goals simp only [List.length_cons, List.length_drop]; omega

def Rune.isScalar : Rune → Bool
  | .scalar _ => true
  | .stray _ => false

/-- Code point of a rune; a stray byte reads as U+FFFD. -/
def Rune.code : Rune → Nat
  | .scalar code => code
  | .stray _ => 0xfffd

def isUtf8 (bs : Bytes) : Bool := (runes bs).all Rune.isScalar

/-- Pads with blanks to a width counted in runes. -/
def padRight (width : Nat) (bs : Bytes) : Bytes := bs ++ List.replicate (width - (runes bs).length) space

end MiniLua.Text

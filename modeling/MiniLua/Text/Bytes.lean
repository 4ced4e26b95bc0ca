/-!
Text as octets. Sources, string values and messages are lists of bytes, which need not be UTF-8.
-/

namespace MiniLua

abbrev Bytes := List UInt8

namespace Text

def continuation (n shift : Nat) : UInt8 := (0x80 + (n >>> shift) % 0x40).toUInt8

/-- UTF-8 of a code point. A surrogate or a number past U+10FFFF is written as U+FFFD. -/
def encodeScalar (n : Nat) : Bytes :=
  if n < 0x80 then [n.toUInt8]
  else if n < 0x800 then [(0xc0 + n / 0x40).toUInt8, continuation n 0]
  else if (0xd800 ≤ n ∧ n ≤ 0xdfff) ∨ 0x10ffff < n then [0xef, 0xbf, 0xbd]
  else if n < 0x10000 then [(0xe0 + n / 0x1000).toUInt8, continuation n 6, continuation n 0]
  else [(0xf0 + n / 0x40000).toUInt8, continuation n 12, continuation n 6, continuation n 0]

def utf8 (s : String) : Bytes := s.toList.flatMap fun c => encodeScalar c.toNat

def newline : UInt8 := 0x0a

def space : UInt8 := 0x20

def isSpace (b : UInt8) : Bool := b == 0x20 || (0x09 ≤ b && b ≤ 0x0d)

def isDigit (b : UInt8) : Bool := 0x30 ≤ b && b ≤ 0x39

def isLetter (b : UInt8) : Bool := (0x61 ≤ b && b ≤ 0x7a) || (0x41 ≤ b && b ≤ 0x5a) || b == 0x5f

def isNameByte (b : UInt8) : Bool := isLetter b || isDigit b

def isHexDigit (b : UInt8) : Bool :=
  isDigit b || (0x61 ≤ b && b ≤ 0x66) || (0x41 ≤ b && b ≤ 0x46)

/-- Value of a hexadecimal digit; bytes that are none count as zero. -/
def hexValue (b : UInt8) : Nat :=
  if isDigit b then b.toNat - 0x30
  else if 0x61 ≤ b && b ≤ 0x66 then b.toNat - 0x57
  else if 0x41 ≤ b && b ≤ 0x46 then b.toNat - 0x37
  else 0

def digitsValue (base : Nat) (ds : Bytes) : Nat := ds.foldl (fun n d => n * base + hexValue d) 0

def hexDigit (n : Nat) : UInt8 := (if n < 10 then 0x30 + n else 0x57 + n).toUInt8

/-- Digits of `n` in `base`, most significant first, with lower case letters. -/
def positional (base n : Nat) : Bytes :=
  if n < base ∨ base < 2 then [hexDigit n]
  else positional base (n / base) ++ [hexDigit (n % base)]
termination_by n
decreasing_by exact Nat.div_lt_self (by omega) (by omega)

def decimal (n : Nat) : Bytes := positional 10 n

def integer : Int → Bytes
  | .ofNat n => decimal n
  | .negSucc n => 0x2d :: decimal (n + 1)

def padLeft (fill : UInt8) (width : Nat) (bs : Bytes) : Bytes :=
  List.replicate (width - bs.length) fill ++ bs

def hexByte (b : UInt8) : Bytes := [hexDigit (b.toNat / 16), hexDigit (b.toNat % 16)]

def hexWidth (width n : Nat) : Bytes := padLeft 0x30 width (positional 16 n)

def upperByte (b : UInt8) : UInt8 := if 0x61 ≤ b && b ≤ 0x7a then b - 0x20 else b

def lowerByte (b : UInt8) : UInt8 := if 0x41 ≤ b && b ≤ 0x5a then b + 0x20 else b

def joinWith (sep : Bytes) (parts : List Bytes) : Bytes := List.intercalate sep parts

/-- Splits at every `sep`; the pieces of `a ++ sep :: b` are those of `a` and then those of `b`. -/
def splitAtByte (sep : UInt8) : Bytes → List Bytes
  | [] => [[]]
  | b :: r =>
    if b = sep then [] :: splitAtByte sep r
    else match splitAtByte sep r with
      | [] => [[b]]
      | p :: ps => (b :: p) :: ps

theorem splitAtByte_cons_self (sep : UInt8) (r : Bytes) : splitAtByte sep (sep :: r) = [] :: splitAtByte sep r := by
  rw [splitAtByte, if_pos rfl]

theorem splitAtByte_cons_ne {sep b : UInt8} (hb : b ≠ sep) {r p : Bytes} {ps : List Bytes}
    (h : splitAtByte sep r = p :: ps) : splitAtByte sep (b :: r) = (b :: p) :: ps := by
  rw [splitAtByte, if_neg hb, h]

theorem splitAtByte_of_notMem {sep : UInt8} {w : Bytes} (h : sep ∉ w) : splitAtByte sep w = [w] := by
  induction w with
  | nil => rfl
  | cons b w ih =>
      obtain ⟨hb, hw⟩ := not_or.mp (mt List.mem_cons.mpr h)
      exact splitAtByte_cons_ne (Ne.symm hb) (ih hw)

theorem splitAtByte_eq_cons (sep : UInt8) (bs : Bytes) : ∃ ps, splitAtByte sep bs = bs.takeWhile (· != sep) :: ps := by
  induction bs with
  | nil => exact ⟨[], rfl⟩
  | cons b r ih =>
      by_cases hb : b = sep
      · subst hb
        exact ⟨_, by rw [splitAtByte_cons_self, List.takeWhile_cons_of_neg (by simp)]⟩
      · obtain ⟨ps, hps⟩ := ih
        exact ⟨ps, by rw [splitAtByte_cons_ne hb hps, List.takeWhile_cons_of_pos (by simpa using hb)]⟩

theorem splitAtByte_append (sep : UInt8) (a b : Bytes) :
    splitAtByte sep (a ++ sep :: b) = splitAtByte sep a ++ splitAtByte sep b := by
  induction a with
  | nil => exact splitAtByte_cons_self sep b
  | cons x a ih =>
      by_cases hx : x = sep
      · subst hx
        rw [List.cons_append, splitAtByte_cons_self, splitAtByte_cons_self, ih, List.cons_append]
      · obtain ⟨ps, hps⟩ := splitAtByte_eq_cons sep a
        rw [hps, List.cons_append] at ih
        rw [List.cons_append, splitAtByte_cons_ne hx ih, splitAtByte_cons_ne hx hps, List.cons_append]

def trimRight (p : UInt8 → Bool) (bs : Bytes) : Bytes := (bs.reverse.dropWhile p).reverse

def startsWith (lead bs : Bytes) : Bool := lead.isPrefixOf bs

end Text

end MiniLua

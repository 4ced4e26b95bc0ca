import MiniLua.Binary64.Numeral
import MiniLua.Text.Utf8
import MiniLua.Toml.Value

/-!
Strings, numbers, truth values, dates and times as a TOML document writes them. A reader answers with what it has read
and the rest.
-/

namespace MiniLua.Toml

open Text

abbrev Reader (α : Type) := Bytes → Option (α × Bytes)

def isBlank (b : UInt8) : Bool := b == 0x20 || b == 0x09

def isLineEnd (b : UInt8) : Bool := b == 0x0a || b == 0x0d

def quoteMark : UInt8 := 0x22

def apostrophe : UInt8 := 0x27

def before (bs : Bytes) (p : Bytes × Bytes) : Bytes × Bytes := (bs ++ p.1, p.2)

/-- A character by `n` hexadecimal digits. -/
def hexEscape (n : Nat) : Reader Bytes := fun bs =>
  let ds := bs.take n
  let code := digitsValue 16 ds
  if ds.length = n ∧ ds.all isHexDigit ∧ code ≤ 0x10ffff ∧ ¬ (0xd800 ≤ code ∧ code ≤ 0xdfff) then
    some (encodeScalar code, bs.drop n)
  else none

/-- What stands behind a backslash. -/
def escape : Reader Bytes
  | 0x62 :: r => some ([0x08], r)
  | 0x74 :: r => some ([0x09], r)
  | 0x6e :: r => some ([0x0a], r)
  | 0x66 :: r => some ([0x0c], r)
  | 0x72 :: r => some ([0x0d], r)
  | 0x65 :: r => some ([0x1b], r)
  | 0x22 :: r => some ([0x22], r)
  | 0x5c :: r => some ([0x5c], r)
  | 0x78 :: r => hexEscape 2 r
  | 0x75 :: r => hexEscape 4 r
  | 0x55 :: r => hexEscape 8 r
  | _ => none

/-- A string on one line, behind its opening quote. -/
def basicBody : Nat → Reader Bytes
  | 0, _ | _, [] => none
  | n + 1, b :: r =>
    if b == quoteMark then some ([], r)
    else if b == 0x5c then do
      let (c, r) ← escape r
      (basicBody n r).map (before c)
    else if isLineEnd b then none
    else (basicBody n r).map (before [b])

def basicString : Reader Bytes := fun bs => basicBody bs.length bs

/-- A string on one line that has no escapes, behind its opening quote. -/
def literalString : Reader Bytes := fun bs =>
  let content := bs.takeWhile (· != apostrophe)
  if content.any isLineEnd then none
  else match bs.drop content.length with
    | _ :: r => some (content, r)
    | [] => none

def dropLineEnd : Bytes → Bytes
  | 0x0a :: r => r
  | 0x0d :: 0x0a :: r => r
  | bs => bs

/-- Up to two quotes may stand right before the closing three, and one more behind a backslash. -/
def multilineBody : Nat → Bool → Reader Bytes
  | 0, _, _ | _, _, [] => none
  | n + 1, afterBackslash, b :: r =>
    if b == quoteMark then
      let quotes := ((b :: r).takeWhile (· == quoteMark)).length
      let rest := (b :: r).drop quotes
      if quotes < 3 then (multilineBody n false rest).map (before (.replicate quotes quoteMark))
      else if quotes ≤ (if afterBackslash then 6 else 5) then some (.replicate (quotes - 3) quoteMark, rest)
      else none
    else if b == 0x5c then
      let space := r.takeWhile fun c => isBlank c || isLineEnd c
      if space.contains newline then multilineBody n false (r.drop space.length)
      else do
        let (c, rest) ← escape r
        (multilineBody n (r.head? == some 0x5c) rest).map (before c)
    else (multilineBody n false r).map (before [b])

def multilineString : Reader Bytes := fun bs => multilineBody bs.length false (dropLineEnd bs)

def multilineLiteralBody : Nat → Reader Bytes
  | 0, _ | _, [] => none
  | n + 1, b :: r =>
    if b == apostrophe then
      let quotes := ((b :: r).takeWhile (· == apostrophe)).length
      let rest := (b :: r).drop quotes
      if quotes < 3 then (multilineLiteralBody n rest).map (before (.replicate quotes apostrophe))
      else if quotes ≤ 5 then some (.replicate (quotes - 3) apostrophe, rest)
      else none
    else (multilineLiteralBody n r).map (before [b])

def multilineLiteral : Reader Bytes := fun bs => multilineLiteralBody bs.length (dropLineEnd bs)

/-- Digits without the underscores that stand between them. -/
def ungroup (isDigitOf : UInt8 → Bool) (bs : Bytes) : Option Bytes :=
  let groups := splitAtByte 0x5f bs
  if groups.all fun g => !g.isEmpty && g.all isDigitOf then some groups.flatten else none

def signed : Bytes → Bool × Bytes
  | 0x2b :: r => (false, r)
  | 0x2d :: r => (true, r)
  | bs => (false, bs)

/-- Decimal digits that have no zero in front. -/
def decimalDigits (bs : Bytes) : Option Bytes :=
  if 1 < bs.length ∧ bs.head? = some 0x30 then none else ungroup isDigit bs

def basedNumber (base : Nat) (isDigitOf : UInt8 → Bool) (bs : Bytes) : Option Int :=
  (ungroup isDigitOf bs).map fun ds => digitsValue base ds

def number? : Bytes → Option Int
  | 0x30 :: 0x78 :: r => basedNumber 16 isHexDigit r
  | 0x30 :: 0x6f :: r => basedNumber 8 (fun b => 0x30 ≤ b && b ≤ 0x37) r
  | 0x30 :: 0x62 :: r => basedNumber 2 (fun b => b == 0x30 || b == 0x31) r
  | bs =>
    let (negative, r) := signed bs
    (decimalDigits r).map fun ds => if negative then -(digitsValue 10 ds : Int) else digitsValue 10 ds

/-- Integers of 64 bits. -/
def integer? (w : Bytes) : Option Value :=
  (number? w).bind fun n =>
    if Int64.minValue.toInt ≤ n ∧ n ≤ Int64.maxValue.toInt then some (.integer (Int64.ofInt n)) else none

/-- Digits behind a point, if there is one. -/
def fraction? : Bytes → Option Bytes
  | 0x2e :: r => ungroup isDigit r
  | [] => some []
  | _ => none

def exponent? : Bytes → Option Int
  | _ :: r =>
    let (negative, ds) := signed r
    (ungroup isDigit ds).map (Numeral.signedExponent negative)
  | [] => some 0

def isExponentMark (b : UInt8) : Bool := b == 0x65 || b == 0x45

/-- Finite numbers with a point or an exponent. -/
def float? (w : Bytes) : Option Value := do
  let (negative, r) := signed w
  guard (r.any fun b => b == 0x2e || isExponentMark b)
  let body := r.takeWhile fun b => !isExponentMark b
  let whole ← decimalDigits (body.takeWhile (· != 0x2e))
  let part ← fraction? (body.dropWhile (· != 0x2e))
  let power ← exponent? (r.drop body.length)
  let x := (Numeral.ofParts whole part power).toBinary64
  if x.isInfinite then none else some (.float (if negative then x.neg else x))

def notANumber : Binary64 := ⟨0x7ff8000000000001⟩

def special? (w : Bytes) : Option Value :=
  let (negative, r) := signed w
  let x? := if r = utf8 "inf" then some Binary64.infinity else if r = utf8 "nan" then some notANumber else none
  x?.map fun x => .float (if negative then x.neg else x)

def boolean? (w : Bytes) : Option Value :=
  if w = utf8 "true" then some (.boolean true) else if w = utf8 "false" then some (.boolean false) else none

/-- Reads `n` digits. -/
def digits (n : Nat) : Reader Nat := fun bs =>
  let ds := bs.take n
  if ds.length = n ∧ ds.all isDigit then some (digitsValue 10 ds, bs.drop n) else none

def expect (b : UInt8) : Bytes → Option Bytes
  | c :: r => if b == c then some r else none
  | [] => none

def isLeapYear (year : Nat) : Bool := year % 4 = 0 && (year % 100 ≠ 0 || year % 400 = 0)

def daysIn (year month : Nat) : Nat :=
  if month = 2 then (if isLeapYear year then 29 else 28)
  else if month = 4 ∨ month = 6 ∨ month = 9 ∨ month = 11 then 30
  else 31

/-- Reads a day as `1979-05-27`. -/
def day (bs : Bytes) : Option Bytes := do
  let (year, r) ← digits 4 bs
  let (month, r) ← digits 2 (← expect 0x2d r)
  let (day, r) ← digits 2 (← expect 0x2d r)
  if 1 ≤ month ∧ month ≤ 12 ∧ 1 ≤ day ∧ day ≤ daysIn year month then some r else none

/-- Reads the seconds of a time, which may be left out, and their fraction. -/
def seconds : Bytes → Option Bytes
  | 0x3a :: r => do
    let (s, r) ← digits 2 r
    if 60 ≤ s then none
    else match r with
      | 0x2e :: d :: r' => some (if isDigit d then r'.dropWhile isDigit else r)
      | _ => some r
  | bs => some bs

/-- Reads a time of the day as `07:32:00.5`. -/
def clock (bs : Bytes) : Option Bytes := do
  let (hour, r) ← digits 2 bs
  let (minute, r) ← digits 2 (← expect 0x3a r)
  if 24 ≤ hour ∨ 60 ≤ minute then none else seconds r

/-- Reads how far a time is from universal time. -/
def zone : Bytes → Option Bytes
  | 0x5a :: r => some r
  | b :: r => do
    if b ≠ 0x2b ∧ b ≠ 0x2d then none
    else
      let (hour, r) ← digits 2 r
      let (minute, r) ← digits 2 (← expect 0x3a r)
      if 24 < hour ∨ 60 < minute then none else some r
  | [] => none

def isTime (w : Bytes) : Bool :=
  let w := w.map upperByte
  match day w with
  | some [] => true
  | some (0x54 :: r) =>
    match clock r with
    | some [] => true
    | some r => zone r == some []
    | none => false
  | some _ => false
  | none => clock w == some []

def time? (w : Bytes) : Option Value := if isTime w then some .time else none

/-- The value of a word, which is what letters, digits and the signs of numbers and times make up. -/
def word? (w : Bytes) : Option Value :=
  boolean? w <|> special? w <|> integer? w <|> float? w <|> time? w

def isWordByte (b : UInt8) : Bool :=
  isNameByte b || b == 0x2b || b == 0x2d || b == 0x2e || b == 0x3a

/-- A day and a time of the day may have a blank between them. -/
def word (bs : Bytes) : Bytes × Bytes :=
  let w := bs.takeWhile isWordByte
  let r := bs.drop w.length
  match r with
  | 0x20 :: d :: _ =>
    if day w == some [] && isDigit d then
      let w' := r.tail.takeWhile isWordByte
      (w ++ 0x54 :: w', r.drop (w'.length + 1))
    else (w, r)
  | _ => (w, r)

def wordValue : Reader Value := fun bs =>
  let (w, r) := word bs
  (word? w).map (·, r)

def stringValue : Reader Bytes
  | 0x22 :: 0x22 :: 0x22 :: r => multilineString r
  | 0x27 :: 0x27 :: 0x27 :: r => multilineLiteral r
  | 0x22 :: r => basicString r
  | 0x27 :: r => literalString r
  | _ => none

end MiniLua.Toml

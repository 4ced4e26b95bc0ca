import MiniLua.Scan.LongBracket

/-!
Quoted string literals and their escapes.
-/

namespace MiniLua.Scan

open Text

/-- A fault, the place it is reported at and the length read so far. -/
structure Stop where
  cause : ScanFault
  place : Nat
  length : Nat
  deriving DecidableEq, Repr

def namedEscape (b : UInt8) : Option UInt8 :=
  [(0x61, 0x07), (0x62, 0x08), (0x66, 0x0c), (0x6e, 0x0a), (0x72, 0x0d), (0x74, 0x09), (0x76, 0x0b), (0x5c, 0x5c),
    (0x22, 0x22), (0x27, 0x27)].lookup b

/-- Reads hexadecimal digits while the value stays a code point: the value and the number of digits, or the number of
digits before the one that is too much. -/
def codePoint (value count : Nat) : Bytes → Except Nat (Nat × Nat)
  | [] => .ok (value, count)
  | b :: r =>
    if isHexDigit b then
      let v := value * 16 + hexValue b
      if 0x10ffff < v then .error count else codePoint v (count + 1) r
    else .ok (value, count)

/-- The braces of a `\u` escape, from the byte behind the `u`. -/
def braced : Bytes → Except (ScanFault × Nat) (Bytes × Nat)
  | 0x7b :: r =>
    match codePoint 0 0 r with
    | .error n => .error (.codePointTooLarge, n + 1)
    | .ok (_, 0) => .error (.hexDigitExpected, 1)
    | .ok (v, n) =>
      if r[n]? = some 0x7d then .ok (encodeScalar v, n + 2) else .error (.missingCloseBrace, n + 1)
  | _ => .error (.missingOpenBrace, 0)

/-- Two hexadecimal digits, from the byte behind the `x`. -/
def hexPair : Bytes → Except (ScanFault × Nat) (Bytes × Nat)
  | a :: b :: _ =>
    if !isHexDigit a then .error (.hexDigitExpected, 0)
    else if !isHexDigit b then .error (.hexDigitExpected, 1)
    else .ok ([(hexValue a * 16 + hexValue b).toUInt8], 2)
  | a :: _ => .error (.hexDigitExpected, if isHexDigit a then 1 else 0)
  | [] => .error (.hexDigitExpected, 0)

def shift (n : Nat) : Except (ScanFault × Nat) (Bytes × Nat) → Except (ScanFault × Nat) (Bytes × Nat)
  | .ok (out, m) => .ok (out, m + n)
  | .error (cause, m) => .error (cause, m + n)

/-- The escape behind a backslash: the bytes it stands for and its length, or a fault and the length read. -/
def escape : Bytes → Except (ScanFault × Nat) (Bytes × Nat)
  | [] => .error (.unfinishedString, 0)
  | b :: r =>
    match namedEscape b with
    | some c => .ok ([c], 1)
    | none =>
      if lineEnd (b :: r) ≠ 0 then .ok ([newline], lineEnd (b :: r))
      else if b = 0x78 then shift 1 (hexPair r)
      else if b = 0x7a then .ok ([], (r.takeWhile isSpace).length + 1)
      else if b = 0x75 then shift 1 (braced r)
      else if isDigit b then
        let ds := ((b :: r).take 3).takeWhile isDigit
        let v := digitsValue 10 ds
        if 255 < v then .error (.decimalEscapeTooLarge, ds.length) else .ok ([v.toUInt8], ds.length)
      else .error (.badEscape b, 0)

/-- Content up to the closing quote, and the length with it. The input starts `n` bytes behind the start of the
literal. -/
def quotedBody (mark : UInt8) (n : Nat) (bs : Bytes) : Except Stop (Bytes × Nat) :=
  match bs with
  | [] => .error ⟨.unfinishedString, 0, n⟩
  | b :: r =>
    if b = mark then .ok ([], n + 1)
    else if b = 0x0a ∨ b = 0x0d then .error ⟨.unfinishedString, 0, n⟩
    else if b = 0x5c then
      match escape r with
      | .error (cause, k) => .error ⟨cause, n, n + 1 + k⟩
      | .ok (out, k) => (quotedBody mark (n + 1 + k) (r.drop k)).map fun (c, m) => (out ++ c, m)
    else (quotedBody mark (n + 1) r).map fun (c, m) => (b :: c, m)
termination_by bs.length
decreasing_by all_goals simp only [List.length_cons, List.length_drop]; omega

theorem lt_of_quotedBody {mark : UInt8} {n m : Nat} {bs c : Bytes} (h : quotedBody mark n bs = .ok (c, m)) :
    n < m := by
  fun_induction quotedBody mark n bs generalizing c m with
  | case1 | case3 | case4 => simp at h
  | case2 => simp_all; omega
  | case5 n r out k _ _ _ ih =>
    cases hq : quotedBody mark (n + 1 + k) (r.drop k) with
    | error e => simp [hq, Except.map] at h
    | ok p =>
      have := ih hq
      simp_all [Except.map]
      omega
  | case6 n b r _ _ _ ih =>
    cases hq : quotedBody mark (n + 1) r with
    | error e => simp [hq, Except.map] at h
    | ok p =>
      have := ih hq
      simp_all [Except.map]
      omega

end MiniLua.Scan

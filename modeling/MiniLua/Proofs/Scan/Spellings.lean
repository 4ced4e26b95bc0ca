import MiniLua.Proofs.Scan.Heads
import MiniLua.Proofs.Text.Decimals

/-!
How a string can be written between quotes: byte by byte, each as it is or as an escape. Every way to write it is read back
as the string, and every string can be written.
-/

namespace MiniLua

open Text

namespace Scan

structure HexDigit where
  value : Fin 16
  upper : Bool
  deriving DecidableEq, Repr

def HexDigit.byte (d : HexDigit) : UInt8 :=
  if d.upper then upperByte (hexDigit d.value) else hexDigit d.value

/-- Value of digits that stand behind others of value `n`. -/
def HexDigit.number (n : Nat) : List HexDigit → Nat
  | [] => n
  | d :: ds => number (n * 16 + d.value) ds

inductive NamedEscape where
  | bell | backspace | formFeed | lineFeed | carriageReturn | tab | verticalTab | backslash | doubleQuote | singleQuote
  deriving DecidableEq, Repr

def NamedEscape.letter : NamedEscape → UInt8
  | bell => 0x61 | backspace => 0x62 | formFeed => 0x66 | lineFeed => 0x6e | carriageReturn => 0x72 | tab => 0x74
  | verticalTab => 0x76 | backslash => 0x5c | doubleQuote => 0x22 | singleQuote => 0x27

def NamedEscape.byte : NamedEscape → UInt8
  | bell => 0x07 | backspace => 0x08 | formFeed => 0x0c | lineFeed => 0x0a | carriageReturn => 0x0d | tab => 0x09
  | verticalTab => 0x0b | backslash => 0x5c | doubleQuote => 0x22 | singleQuote => 0x27

inductive LineBreak where
  | lf | cr | crlf | lfcr
  deriving DecidableEq, Repr

def LineBreak.bytes : LineBreak → Bytes
  | lf => [0x0a] | cr => [0x0d] | crlf => [0x0d, 0x0a] | lfcr => [0x0a, 0x0d]

/-- A part of a string between two quotes `mark`. -/
inductive Piece (mark : UInt8) where
  | raw (b : UInt8) (hb : b ≠ mark ∧ b ≠ 0x5c ∧ b ≠ 0x0a ∧ b ≠ 0x0d)
  | named (e : NamedEscape)
  | hex (high low : HexDigit)
  | decimal (b : UInt8)
  | codePoint (digits : List HexDigit) (c : Char) (hne : digits ≠ []) (hc : HexDigit.number 0 digits = c.toNat)
  | lineBreak (e : LineBreak)
  /-- Blanks that are left out of the string. -/
  | omitted (blanks : Bytes) (hb : ∀ b ∈ blanks, isSpace b = true)

variable {mark : UInt8}

namespace Piece

/-- The piece as it is written. -/
def bytes : Piece mark → Bytes
  | raw b _ => [b]
  | named e => [0x5c, e.letter]
  | hex high low => [0x5c, 0x78, high.byte, low.byte]
  | decimal b => [0x5c, hexDigit (b.toNat / 100), hexDigit (b.toNat / 10 % 10), hexDigit (b.toNat % 10)]
  | codePoint digits _ _ _ => 0x5c :: 0x75 :: 0x7b :: digits.map HexDigit.byte ++ [0x7d]
  | lineBreak e => 0x5c :: e.bytes
  | omitted blanks _ => 0x5c :: 0x7a :: blanks

/-- The part of the string that the piece stands for. -/
def meaning : Piece mark → Bytes
  | raw b _ => [b]
  | named e => [e.byte]
  | hex high low => [.ofNat (high.value * 16 + low.value)]
  | decimal b => [b]
  | codePoint _ c _ _ => String.utf8EncodeChar c
  | lineBreak _ => [newline]
  | omitted _ _ => []

/-- The second piece does not continue the blanks of the first. -/
def Before : Piece mark → Piece mark → Prop
  | omitted _ _, q => ∀ b ∈ q.bytes.head?, isSpace b = false
  | _, _ => True

def Separated : List (Piece mark) → Prop
  | p :: q :: ps => p.Before q ∧ Separated (q :: ps)
  | _ => True

end Piece

namespace HexDigit

theorem isHexDigit_byte (d : HexDigit) : isHexDigit d.byte = true := by
  have hall : ∀ (v : Fin 16) (u : Bool), isHexDigit (byte ⟨v, u⟩) = true := by decide
  exact hall d.value d.upper

theorem hexValue_byte (d : HexDigit) : hexValue d.byte = d.value := by
  have hall : ∀ (v : Fin 16) (u : Bool), hexValue (byte ⟨v, u⟩) = v := by decide
  exact hall d.value d.upper

theorem le_number (n : Nat) (ds : List HexDigit) : n ≤ number n ds := by
  induction ds generalizing n with
  | nil => simp [number]
  | cons d ds ih =>
      have h := ih (n * 16 + d.value)
      rw [number]
      omega

/-- Digits of a code point are read to the end, since the values on the way are no larger. -/
theorem codePoint_digits {ds : List HexDigit} {n : Nat} (hmax : number n ds ≤ 0x10ffff) (count : Nat) {b : UInt8}
    (hb : isHexDigit b = false) (r : Bytes) :
    codePoint n count (ds.map byte ++ b :: r) = .ok (number n ds, count + ds.length) := by
  induction ds generalizing n count with
  | nil => simp [codePoint, number, hb]
  | cons d ds ih =>
      rw [number] at hmax
      have hle := le_number (n * 16 + d.value) ds
      have hsmall : ¬ 0x10ffff < n * 16 + d.value := by omega
      simp [codePoint, number, isHexDigit_byte, hexValue_byte, hsmall, ih hmax, Nat.add_assoc, Nat.add_comm 1]

end HexDigit

/-! Escapes behind their backslash. -/

theorem escape_named (e : NamedEscape) (r : Bytes) : escape (e.letter :: r) = .ok ([e.byte], 1) := by
  cases e <;> rfl

theorem escape_hex (high low : HexDigit) (r : Bytes) :
    escape (0x78 :: high.byte :: low.byte :: r) = .ok ([.ofNat (high.value * 16 + low.value)], 3) := by
  have hescape : escape (0x78 :: high.byte :: low.byte :: r) = shift 1 (hexPair (high.byte :: low.byte :: r)) := rfl
  rw [hescape]
  simp [hexPair, HexDigit.isHexDigit_byte, HexDigit.hexValue_byte, shift]

theorem escape_codePoint {digits : List HexDigit} {c : Char} (hne : digits ≠ []) (hc : HexDigit.number 0 digits = c.toNat)
    (r : Bytes) :
    escape (0x75 :: 0x7b :: (digits.map HexDigit.byte ++ 0x7d :: r)) =
      .ok (String.utf8EncodeChar c, digits.length + 3) := by
  have hescape : escape (0x75 :: 0x7b :: (digits.map HexDigit.byte ++ 0x7d :: r)) =
      shift 1 (braced (0x7b :: (digits.map HexDigit.byte ++ 0x7d :: r))) := rfl
  have hmax : HexDigit.number 0 digits ≤ 0x10ffff := by
    have hvalid : c.toNat < 0xd800 ∨ 0xdfff < c.toNat ∧ c.toNat < 0x110000 := c.valid
    omega
  have hpoint := HexDigit.codePoint_digits hmax 0 (b := 0x7d) (by decide) r
  obtain ⟨n, hn⟩ : ∃ n, digits.length = n + 1 := Nat.exists_eq_succ_of_ne_zero (mt List.length_eq_zero_iff.mp hne)
  rw [hn, Nat.zero_add, hc] at hpoint
  have hclose : (digits.map HexDigit.byte ++ 0x7d :: r)[n + 1]? = some 0x7d := by
    rw [List.getElem?_append_right (by simp [hn])]
    simp [hn]
  rw [hescape]
  simp only [braced, hpoint, hclose, if_true, shift, encodeScalar_toNat, hn]

theorem isDigit_apart {b : UInt8} (h : isDigit b = true) :
    namedEscape b = none ∧ b ≠ 0x0a ∧ b ≠ 0x0d ∧ b ≠ 0x78 ∧ b ≠ 0x7a ∧ b ≠ 0x75 := by
  have hne {c : UInt8} (hc : isDigit c = false) : b ≠ c := by
    rintro rfl
    exact absurd h (by simp [hc])
  refine ⟨?_, hne rfl, hne rfl, hne rfl, hne rfl, hne rfl⟩
  rw [namedEscape, List.lookup_eq_none_iff]
  simp [hne, isDigit]

theorem escape_digits {a b c : UInt8} (ha : isDigit a = true) (hb : isDigit b = true) (hc : isDigit c = true)
    (hmax : digitsValue 10 [a, b, c] ≤ 255) (r : Bytes) :
    escape (a :: b :: c :: r) = .ok ([.ofNat (digitsValue 10 [a, b, c])], 3) := by
  obtain ⟨hnamed, hlf, hcr, hx, hz, hu⟩ := isDigit_apart ha
  have hline : lineEnd (a :: b :: c :: r) = 0 := by simp [lineEnd_cons_cons, hlf, hcr]
  simp [escape, hnamed, hline, hx, hz, hu, ha, hb, hc, Nat.not_lt.mpr hmax]

theorem escape_decimal (b : UInt8) (r : Bytes) :
    escape (hexDigit (b.toNat / 100) :: hexDigit (b.toNat / 10 % 10) :: hexDigit (b.toNat % 10) :: r) =
      .ok ([b], 3) := by
  have hlt := b.toNat_lt
  have hvalue : digitsValue 10 [hexDigit (b.toNat / 100), hexDigit (b.toNat / 10 % 10), hexDigit (b.toNat % 10)] =
      b.toNat := by
    simp only [digitsValue, List.foldl_cons, List.foldl_nil]
    rw [hexValue_hexDigit (by omega), hexValue_hexDigit (by omega), hexValue_hexDigit (by omega)]
    omega
  rw [escape_digits (isDigit_hexDigit (by omega)) (isDigit_hexDigit (by omega)) (isDigit_hexDigit (by omega)), hvalue]
  · simp
  · omega

theorem escape_lineEnd {b : UInt8} (hb : b = 0x0a ∨ b = 0x0d) (r : Bytes) :
    escape (b :: r) = .ok ([newline], lineEnd (b :: r)) := by
  have hline := (lineEnd_ne_zero_iff b r).mpr hb
  have hnamed : namedEscape b = none := by rcases hb with rfl | rfl <;> rfl
  simp [escape, hnamed, hline]

theorem lineEnd_lineBreak (e : LineBreak) {r : Bytes} (hr : ∀ b ∈ r.head?, b ≠ 0x0a ∧ b ≠ 0x0d) :
    lineEnd (e.bytes ++ r) = e.bytes.length := by
  cases r with
  | nil => cases e <;> rfl
  | cons b r =>
      obtain ⟨hlf, hcr⟩ := hr b rfl
      cases e <;> simp [LineBreak.bytes, lineEnd_cons_cons, hlf, hcr]

theorem escape_lineBreak (e : LineBreak) {r : Bytes} (hr : ∀ b ∈ r.head?, b ≠ 0x0a ∧ b ≠ 0x0d) :
    escape (e.bytes ++ r) = .ok ([newline], e.bytes.length) := by
  rw [← lineEnd_lineBreak e hr]
  cases e <;> apply escape_lineEnd <;> simp

theorem escape_omitted {blanks : Bytes} (hb : ∀ b ∈ blanks, isSpace b = true) {r : Bytes}
    (hr : ∀ b ∈ r.head?, isSpace b = false) : escape (0x7a :: (blanks ++ r)) = .ok ([], blanks.length + 1) := by
  have hescape : escape (0x7a :: (blanks ++ r)) = .ok ([], ((blanks ++ r).takeWhile isSpace).length + 1) := rfl
  rw [hescape, takeWhile_run hb hr]

/-! Pieces one after the other. -/

namespace Piece

/-- No line ends where a piece starts. -/
theorem head_bytes (p : Piece mark) : ∃ b r, p.bytes = b :: r ∧ b ≠ 0x0a ∧ b ≠ 0x0d := by
  cases p with
  | raw b hb => exact ⟨b, [], rfl, hb.2.2⟩
  | _ => exact ⟨0x5c, _, rfl, by decide, by decide⟩

/-- What may stand behind a piece: a byte that does not continue it. -/
def EndsBefore (p : Piece mark) (r : Bytes) : Prop :=
  ∀ b ∈ r.head?, (b ≠ 0x0a ∧ b ≠ 0x0d) ∧ ∀ blanks hb, p = omitted blanks hb → isSpace b = false

theorem escape_piece {p : Piece mark} {t r : Bytes} (hp : p.bytes = 0x5c :: t) (hr : p.EndsBefore r) :
    escape (t ++ r) = .ok (p.meaning, t.length) := by
  cases p with
  | raw b hb => exact absurd (List.cons.inj hp).1 hb.2.1
  | named e =>
      cases hp
      exact escape_named e r
  | hex high low =>
      cases hp
      exact escape_hex high low r
  | decimal b =>
      cases hp
      exact escape_decimal b r
  | codePoint digits c hne hc =>
      cases hp
      simpa [meaning] using escape_codePoint hne hc r
  | lineBreak e =>
      cases hp
      exact escape_lineBreak e fun b hb => (hr b hb).1
  | omitted blanks hb =>
      cases hp
      exact escape_omitted hb fun b hhead => (hr b hhead).2 blanks hb rfl

theorem quotedBody_piece (hm : mark = 0x22 ∨ mark = 0x27) {p : Piece mark} {r : Bytes} (hr : p.EndsBefore r) (n : Nat) :
    quotedBody mark n (p.bytes ++ r) =
      (quotedBody mark (n + p.bytes.length) r).map fun c => (p.meaning ++ c.1, c.2) := by
  by_cases hraw : ∃ b hb, p = raw b hb
  · obtain ⟨b, hb, rfl⟩ := hraw
    simp [bytes, meaning, quotedBody, hb]
  · obtain ⟨t, ht⟩ : ∃ t, p.bytes = 0x5c :: t := by
      cases p with
      | raw b hb => exact absurd ⟨b, hb, rfl⟩ hraw
      | _ => exact ⟨_, rfl⟩
    have hmark : 0x5c ≠ mark := by rcases hm with rfl | rfl <;> decide
    have hescape := escape_piece ht hr
    rw [ht, List.cons_append, quotedBody]
    simp [hmark, hescape, Nat.add_assoc, Nat.add_comm 1]

theorem endsBefore_mark (hm : mark = 0x22 ∨ mark = 0x27) (p : Piece mark) (rest : Bytes) : p.EndsBefore (mark :: rest) := by
  intro b hb
  cases hb
  rcases hm with rfl | rfl <;> simp [isSpace]

theorem endsBefore_piece {p q : Piece mark} (h : p.Before q) (r : Bytes) : p.EndsBefore (q.bytes ++ r) := by
  obtain ⟨b, t, hq, hline⟩ := q.head_bytes
  intro c hc
  rw [hq] at hc
  cases hc
  refine ⟨hline, ?_⟩
  rintro blanks hb rfl
  exact h b (by simp [hq])

theorem quotedBody_pieces (hm : mark = 0x22 ∨ mark = 0x27) {ps : List (Piece mark)} (h : Separated ps) (n : Nat)
    (rest : Bytes) :
    quotedBody mark n (ps.flatMap bytes ++ mark :: rest) =
      .ok (ps.flatMap meaning, n + (ps.flatMap bytes).length + 1) := by
  induction ps generalizing n with
  | nil => simp [quotedBody]
  | cons p ps ih =>
      have hsep : Separated ps ∧ p.EndsBefore (ps.flatMap bytes ++ mark :: rest) := by
        cases ps with
        | nil => exact ⟨trivial, endsBefore_mark hm p rest⟩
        | cons q ps =>
            refine ⟨h.2, ?_⟩
            rw [List.flatMap_cons, List.append_assoc]
            exact endsBefore_piece h.1 _
      rw [List.flatMap_cons, List.append_assoc, quotedBody_piece hm hsep.2, ih hsep.1]
      simp [Except.map, Nat.add_assoc]

theorem separated_decimal (bs : Bytes) : Separated (bs.map fun b => (decimal b : Piece mark)) := by
  induction bs with
  | nil => trivial
  | cons b bs ih =>
      cases bs with
      | nil => trivial
      | cons c bs => exact ⟨trivial, ih⟩

end Piece

end Scan

namespace Scanner

open Scan

/-- A string between quotes is what its pieces stand for, and every string has such pieces. -/
theorem scan_quoted {mark : UInt8} (hm : mark = 0x22 ∨ mark = 0x27) :
    (∀ (ps : List (Piece mark)) (rest : Bytes), Piece.Separated ps →
      Takes (mark :: (ps.flatMap Piece.bytes ++ [mark])) rest (.string (ps.flatMap Piece.meaning))) ∧
      ∀ content : Bytes, ∃ ps : List (Piece mark), Piece.Separated ps ∧ ps.flatMap Piece.meaning = content := by
  constructor
  · intro ps rest hps
    have hbody := Piece.quotedBody_pieces hm hps 1 rest
    apply takes_of_read
    · simp
    · rcases hm with rfl | rfl <;> exact bare_cons (by decide) (by simp)
    · simp only [List.cons_append, List.append_assoc, List.nil_append]
      rw [read_quote hm, quotedString, hbody]
      simp [Nat.add_comm]
  · intro content
    refine ⟨content.map .decimal, Piece.separated_decimal content, ?_⟩
    simp [List.flatMap_map, Piece.meaning]

/-- Pieces that could be taken to continue the one before: a digit, an escape behind blanks, a brace. -/
theorem scan_quoted_neighbours :
    let ps : List (Piece 0x22) :=
      [.decimal 7, .raw 0x38 (by decide), .omitted [0x20, 0x0a] (List.all_eq_true.mp (by decide)), .named .tab,
        .lineBreak .crlf, .codePoint [⟨0, false⟩, ⟨14, true⟩, ⟨9, false⟩] 'é' (by decide) (by decide),
        .raw 0x7d (by decide), .hex ⟨15, true⟩ ⟨10, false⟩, .omitted [] (List.all_eq_true.mp (by decide))]
    Piece.Separated ps ∧
      Takes (utf8 "\"\\0078\\z \n\\t\\\r\n\\u\x7b0E9\x7d\x7d\\xFa\\z\"") (utf8 " .. x")
        (.string [7, 0x38, 9, 0x0a, 0xc3, 0xa9, 0x7d, 0xfa]) := by
  intro ps
  have hps : Piece.Separated ps := by
    refine ⟨trivial, trivial, ?_, trivial, trivial, trivial, trivial, trivial, trivial⟩
    intro b hb
    cases hb
    rfl
  exact ⟨hps, (scan_quoted (.inl rfl)).1 ps (utf8 " .. x") hps⟩

end Scanner

end MiniLua

import MiniLua.Scan.Numeral

/-!
The lexeme at the head of an input, and the gap of blanks and comments before it.
-/

namespace MiniLua.Scan

open Text

def word (bs : Bytes) : Reading :=
  let text := bs.takeWhile isNameByte
  .lexeme (((Keyword.ofBytes? text).map Lexeme.keyword).getD (.name text)) text.length

def bracket (bs : Bytes) : Reading :=
  match opening (bs.drop 1) with
  | .long level =>
    match longContent level (bs.drop (level + 2)) with
    | some (content, n) => .lexeme (.string content) (level + 2 + n)
    | none => .stop ⟨.unfinishedLongString, 0, bs.length⟩
  | .broken => .stop ⟨.badLongDelimiter, 0, 0⟩
  | .plain => .lexeme (.symbol .leftBracket) 1

def quotedString (mark : UInt8) (bs : Bytes) : Reading :=
  match quotedBody mark 1 bs with
  | .ok (content, n) => .lexeme (.string content) n
  | .error stop => .stop stop

def startsNumeral : Bytes → Bool
  | 0x2e :: b :: _ => isDigit b
  | b :: _ => isDigit b
  | [] => false

def read (bs : Bytes) : Reading :=
  match bs with
  | [] => .lexeme .eof 0
  | b :: r =>
    if b = 0x5b then bracket bs
    else if b = 0x22 ∨ b = 0x27 then quotedString b r
    else if startsNumeral bs then numeral bs
    else if isLetter b then word bs
    else match Symbol.leading? bs with
      | some s => .lexeme (.symbol s) s.bytes.length
      | none => .stop ⟨.unexpectedByte b, 0, 1⟩

theorem length_of_endNumeral {bs : Bytes} {n m : Nat} {value : Bytes → Lexeme} {l : Lexeme}
    (h : endNumeral bs n value = .lexeme l m) : m = n := by
  unfold endNumeral malformed at h
  split at h <;> simp_all

/-- Digits and point of a numeral are not both missing. -/
theorem mantissa_length_pos {bs : Bytes} (hs : startsNumeral bs = true) :
    0 < (bs.takeWhile isDigit).length + fractionLength (bs.drop (bs.takeWhile isDigit).length) := by
  unfold startsNumeral at hs
  split at hs
  · simp [isDigit, fractionLength]
  · rw [List.takeWhile_cons_of_pos hs, List.length_cons]
    omega
  · simp at hs

theorem decimalNumeral_length_pos {bs : Bytes} {l : Lexeme} {n : Nat} (hs : startsNumeral bs = true)
    (h : decimalNumeral bs = .lexeme l n) : 0 < n := by
  have hm := mantissa_length_pos hs
  simp only [decimalNumeral, malformed] at h
  split at h
  · have := length_of_endNumeral h
    omega
  · split at h
    · simp at h
    · have := length_of_endNumeral h
      omega

theorem numeral_length_pos {bs : Bytes} {l : Lexeme} {n : Nat} (hs : startsNumeral bs = true)
    (h : numeral bs = .lexeme l n) : 0 < n := by
  unfold numeral at h
  split at h
  · split at h
    · simp only [hexNumeral, malformed] at h
      split at h
      · simp at h
      · have := length_of_endNumeral h
        omega
    · exact decimalNumeral_length_pos hs h
  · exact decimalNumeral_length_pos hs h

theorem Symbol.bytes_length_pos (s : Symbol) : 0 < s.bytes.length := by cases s <;> decide

/-- A lexeme that does not end the input takes at least one byte. -/
theorem read_length_pos {bs : Bytes} {l : Lexeme} {n : Nat} (h : read bs = .lexeme l n) (hl : l.isLast = false) :
    0 < n ∧ 0 < bs.length := by
  unfold read at h
  split at h
  · simp only [Reading.lexeme.injEq] at h
    simp [← h.1, Lexeme.isLast] at hl
  · rename_i b r
    refine ⟨?_, by simp⟩
    split at h
    · unfold bracket at h
      split at h <;> try split at h
      all_goals simp at h
      all_goals omega
    · split at h
      · unfold quotedString at h
        split at h
        · rename_i hq
          have := lt_of_quotedBody hq
          simp at h
          omega
        · simp at h
      · split at h
        · exact numeral_length_pos ‹_› h
        · split at h
          · rename_i hb
            simp only [word, Reading.lexeme.injEq] at h
            simp [← h.2, isNameByte, hb]
          · split at h
            · simp only [Reading.lexeme.injEq] at h
              exact h.2 ▸ Symbol.bytes_length_pos _
            · simp at h

/-- Length of the comment behind `--`, or nothing if it is long and not closed. -/
def comment (bs : Bytes) : Option Nat :=
  let lineLength := (bs.takeWhile (· != newline)).length
  match bs with
  | 0x5b :: r =>
    match opening r with
    | .long level => (longContent level (r.drop (level + 1))).map fun (_, n) => level + 2 + n
    | _ => some lineLength
  | _ => some lineLength

/-- Blanks and comments at the head: their length, or where a comment starts that is not closed. -/
inductive Gap where
  | closed (length : Nat)
  | unclosed (place : Nat)
  deriving DecidableEq, Repr

def Gap.shift (n : Nat) : Gap → Gap
  | .closed length => .closed (length + n)
  | .unclosed place => .unclosed (place + n)

def gap (bs : Bytes) : Gap :=
  match bs with
  | [] => .closed 0
  | b :: r =>
    if isSpace b then (gap r).shift 1
    else if b = 0x2d ∧ r.head? = some 0x2d then
      match comment (r.drop 1) with
      | some n => (gap (r.drop (n + 1))).shift (n + 2)
      | none => .unclosed 0
    else .closed 0
termination_by bs.length
decreasing_by all_goals simp only [List.length_cons, List.length_drop]; omega

end MiniLua.Scan

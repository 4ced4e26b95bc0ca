import MiniLua.Scan.Lexeme

/-!
The scanner: a cursor on the source, one token of look-ahead, and the reason why the source cannot be read past its
end, if there is one.
-/

namespace MiniLua

structure Cursor where
  rest : Bytes
  pos : Position
  deriving DecidableEq, Repr

def Cursor.skip (n : Nat) (c : Cursor) : Cursor := ⟨c.rest.drop n, c.pos.after (c.rest.take n)⟩

structure Scanner where
  cursor : Cursor
  ahead : Option Token := none
  failure : Option Bytes := none
  deriving DecidableEq, Repr

namespace Scanner

open Scan

/-- A scanner at the start of a source. With a `failure`, reading on past the last byte fails for that reason. -/
def ofSource (source : Bytes) (failure : Option Bytes) : Scanner :=
  { cursor := ⟨source, Position.start⟩, failure }

/-- Scans the token at the cursor, whatever has been looked at ahead. At the end, a read failure is a fault. -/
def scan (s : Scanner) : Token × Scanner :=
  match gap s.cursor.rest with
  | .unclosed place =>
    (⟨.fault .unfinishedLongComment, (s.cursor.skip place).pos⟩,
      { s with cursor := s.cursor.skip s.cursor.rest.length })
  | .closed n =>
    let c := s.cursor.skip n
    match c.rest, s.failure with
    | [], some reason => (⟨.fault (.unreadable reason), c.pos⟩, { s with cursor := c })
    | _, _ =>
      match Scan.read c.rest with
      | .lexeme l length => (⟨l, c.pos⟩, { s with cursor := c.skip length })
      | .stop stop => (⟨.fault stop.cause, (c.skip stop.place).pos⟩, { s with cursor := c.skip stop.length })

theorem scan_ahead (s : Scanner) : s.scan.2.ahead = s.ahead := by
  unfold scan
  split
  · rfl
  · dsimp only
    split
    · rfl
    · split <;> rfl

theorem scan_rest_lt {s : Scanner} (h : s.scan.1.lexeme.isLast = false) :
    s.scan.2.cursor.rest.length < s.cursor.rest.length := by
  unfold scan at h ⊢
  split at h
  · simp [Lexeme.isLast] at h
  · dsimp only at h ⊢
    split at h
    · simp [Lexeme.isLast] at h
    · split at h
      · rename_i l length hr
        have hpos := read_length_pos hr h
        simp only [Cursor.skip, List.length_drop] at hpos ⊢
        omega
      · simp [Lexeme.isLast] at h

def peek (s : Scanner) : Token × Scanner :=
  match s.ahead with
  | some t => (t, s)
  | none =>
    let (t, s') := s.scan
    (t, { s' with ahead := some t })

def next (s : Scanner) : Token × Scanner :=
  match s.ahead with
  | some t => (t, { s with ahead := none })
  | none => s.scan

/-- Bytes still to read, and one for a token that waits. -/
def remaining (s : Scanner) : Nat := s.cursor.rest.length + s.ahead.toList.length

theorem next_remaining_lt {s : Scanner} (h : s.next.1.lexeme.isLast = false) : s.next.2.remaining < s.remaining := by
  unfold next at h ⊢
  split at h
  · rename_i t ha
    simp [remaining, ha]
  · rename_i ha
    have := scan_rest_lt h
    simp only [remaining, scan_ahead, ha] at this ⊢
    simpa using this

/-- All tokens up to the end of the input or the first fault. -/
def tokens (s : Scanner) : List Token × Scanner :=
  if _ : s.next.1.lexeme.isLast then ([s.next.1], s.next.2)
  else
    let (ts, last) := tokens s.next.2
    (s.next.1 :: ts, last)
termination_by s.remaining
decreasing_by exact next_remaining_lt (by simp_all)

end Scanner

end MiniLua

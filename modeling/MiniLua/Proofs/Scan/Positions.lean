import MiniLua.Proofs.Scan.Extent

/-!
Places that the scanner reports. A scanner that has read the first bytes of a source stands at their end, and its
position counts their lines and the bytes of the last one.
-/

namespace MiniLua

open Text

/-- The offset just behind the last newline of a text. -/
def lineStart (bs : Bytes) : Nat := bs.length - (bs.reverse.takeWhile (· != newline)).length

namespace Position

/-- The place of a byte of the source, or of its end. -/
structure Marks (p : Position) (source : Bytes) : Prop where
  offset_le : p.offset ≤ source.length
  line_eq : p.line = 1 + (source.take p.offset).count newline
  column_eq : p.column = p.offset - lineStart (source.take p.offset) + 1

theorem after_append (p : Position) (a b : Bytes) : p.after (a ++ b) = (p.after a).after b := List.foldl_append

/-- The place at an offset of a source. -/
def ofOffset (source : Bytes) (k : Nat) : Position := start.after (source.take k)

theorem start_after_reverse (bs : Bytes) :
    start.after bs.reverse =
      ⟨bs.length, 1 + bs.count newline, (bs.takeWhile (· != newline)).length + 1⟩ := by
  induction bs with
  | nil => rfl
  | cons b bs ih =>
      rw [List.reverse_cons, after_append, ih]
      by_cases hb : b = newline
      · simp [after, next, hb]
        omega
      · simp [after, next, hb]

theorem start_after (bs : Bytes) :
    start.after bs = ⟨bs.length, 1 + bs.count newline, bs.length - lineStart bs + 1⟩ := by
  have h := start_after_reverse bs.reverse
  have hle : (bs.reverse.takeWhile (· != newline)).length ≤ bs.length := by
    simpa using (List.takeWhile_sublist (l := bs.reverse) (· != newline)).length_le
  have hcolumn : bs.length - lineStart bs = (bs.reverse.takeWhile (· != newline)).length := by
    rw [lineStart]
    omega
  rw [List.reverse_reverse] at h
  rw [h, hcolumn, List.length_reverse, List.count_reverse]

theorem offset_ofOffset {source : Bytes} {k : Nat} (h : k ≤ source.length) : (ofOffset source k).offset = k := by
  rw [ofOffset, start_after]
  exact List.length_take_of_le h

theorem ofOffset_marks {source : Bytes} {k : Nat} (h : k ≤ source.length) : (ofOffset source k).Marks source := by
  have hlength : (source.take k).length = k := List.length_take_of_le h
  constructor <;> rw [ofOffset, start_after] <;> simp only [hlength]
  exact h

end Position

namespace Scanner

/-- A scanner that has read the first `k` bytes of a source. -/
def standing (source : Bytes) (k : Nat) : Scanner := { cursor := ⟨source.drop k, .ofOffset source k⟩ }

theorem ofSource_eq_standing (source : Bytes) : ofSource source none = standing source 0 := rfl

theorem skip_standing (source : Bytes) (k n : Nat) :
    (standing source k).cursor.skip n = (standing source (k + n)).cursor := by
  simp only [standing, Cursor.skip, List.drop_drop, Position.ofOffset, ← Position.after_append, List.take_add]

open Scan

variable {source : Bytes} {k n : Nat}

theorem scan_unclosed (h : gap (source.drop k) = .unclosed n) :
    ((standing source k).scan).1 = ⟨.fault .unfinishedLongComment, .ofOffset source (k + n)⟩ := by
  have hgap : gap (standing source k).cursor.rest = .unclosed n := h
  unfold scan
  rw [hgap]
  simp only [skip_standing]
  rfl

/-- What is found where a lexeme is read at an offset of the source. -/
def found (source : Bytes) (k : Nat) : Reading → Token × Scanner
  | .lexeme l length => (⟨l, .ofOffset source k⟩, standing source (k + length))
  | .stop stop => (⟨.fault stop.cause, .ofOffset source (k + stop.place)⟩, standing source (k + stop.length))

theorem scan_closed (h : gap (source.drop k) = .closed n) :
    (standing source k).scan = found source (k + n) (read (source.drop (k + n))) := by
  have hgap : gap (standing source k).cursor.rest = .closed n := h
  unfold scan
  rw [hgap]
  simp only [skip_standing]
  split
  · next hfailure => cases hfailure
  · have hrest : (standing source (k + n)).cursor.rest = source.drop (k + n) := rfl
    rw [hrest]
    cases read (source.drop (k + n)) <;> rfl

end Scanner

end MiniLua

import MiniLua.Proofs.Scan.Lookahead
import MiniLua.Proofs.Scan.Positions

/-!
What a scanner does with the text at its head, wherever it stands, whatever it has looked at ahead and however its source
ends: a token is what its bytes make, and layout in front of it is passed over.
-/

namespace MiniLua

theorem Cursor.skip_append (p q : Bytes) (pos : Position) :
    Cursor.skip p.length ⟨p ++ q, pos⟩ = ⟨q, pos.after p⟩ := by
  simp [Cursor.skip]

theorem Cursor.skip_skip (c : Cursor) (m n : Nat) : (c.skip m).skip n = c.skip (m + n) := by
  simp only [Cursor.skip, List.drop_drop, List.take_add, Position.after_append]

/-- A run of bytes ends where the next byte is of another kind. -/
theorem Scan.takeWhile_run {p : UInt8 → Bool} {run r : Bytes} (hrun : ∀ b ∈ run, p b = true)
    (hr : ∀ b ∈ r.head?, p b = false) : (run ++ r).takeWhile p = run := by
  have hend : r.takeWhile p = [] := by
    cases r with
    | nil => rfl
    | cons b r => simp [hr b rfl]
  rw [List.takeWhile_append_of_pos hrun, hend, List.append_nil]

namespace Scanner

open Scan

/-- The text is taken as a lexeme, and the scanner stops in front of what follows. -/
def Takes (text rest : Bytes) (l : Lexeme) : Prop :=
  ∀ pos ahead failure,
    scan ⟨⟨text ++ rest, pos⟩, ahead, failure⟩ = (⟨l, pos⟩, ⟨⟨rest, pos.after text⟩, ahead, failure⟩)

/-- The text is passed over. -/
def Skips (text rest : Bytes) : Prop :=
  ∀ pos ahead failure,
    scan ⟨⟨text ++ rest, pos⟩, ahead, failure⟩ = scan ⟨⟨rest, pos.after text⟩, ahead, failure⟩

/-- The text is reported as a fault at its start. -/
def Fails (text : Bytes) (cause : ScanFault) : Prop :=
  ∀ pos ahead failure, (scan ⟨⟨text, pos⟩, ahead, failure⟩).1 = ⟨.fault cause, pos⟩

/-- What is found where a lexeme is read at the cursor. -/
def finds (s : Scanner) : Reading → Token × Scanner
  | .lexeme l length => (⟨l, s.cursor.pos⟩, { s with cursor := s.cursor.skip length })
  | .stop stop =>
    (⟨.fault stop.cause, (s.cursor.skip stop.place).pos⟩, { s with cursor := s.cursor.skip stop.length })

theorem scan_bare {bs : Bytes} (hne : bs ≠ []) (hbare : Bare bs) (pos : Position) (ahead : Option Token)
    (failure : Option Bytes) :
    scan ⟨⟨bs, pos⟩, ahead, failure⟩ = finds ⟨⟨bs, pos⟩, ahead, failure⟩ (read bs) := by
  obtain ⟨b, r, rfl⟩ := List.exists_cons_of_ne_nil hne
  have hskip : Cursor.skip 0 ⟨b :: r, pos⟩ = ⟨b :: r, pos⟩ := rfl
  unfold scan
  simp only [gap_bare hbare, hskip]
  cases read (b :: r) <;> rfl

theorem takes_of_read {text rest : Bytes} {l : Lexeme} (hne : text ≠ []) (hbare : Bare (text ++ rest))
    (hread : read (text ++ rest) = .lexeme l text.length) : Takes text rest l := by
  intro pos ahead failure
  rw [scan_bare (List.append_ne_nil_of_left_ne_nil hne rest) hbare, hread, finds, Cursor.skip_append]

theorem fails_of_read {bs : Bytes} {cause : ScanFault} {length : Nat} (hne : bs ≠ []) (hbare : Bare bs)
    (hread : read bs = .stop ⟨cause, 0, length⟩) : Fails bs cause := by
  intro pos ahead failure
  rw [scan_bare hne hbare, hread]
  rfl

theorem skips_layout {g : Bytes} (hg : Layout g) (rest : Bytes) : Skips g rest := by
  intro pos ahead failure
  have hskip (n : Nat) : Cursor.skip (n + g.length) ⟨g ++ rest, pos⟩ = Cursor.skip n ⟨rest, pos.after g⟩ := by
    rw [Nat.add_comm, ← Cursor.skip_skip, Cursor.skip_append]
  unfold scan
  rw [gap_layout hg]
  cases gap rest with
  | closed n => simp only [Gap.shift, hskip]
  | unclosed place =>
      simp only [Gap.shift, hskip, List.length_append, Nat.add_comm g.length]

theorem fails_unclosed {text : Bytes} (h : gap text = .unclosed 0) : Fails text .unfinishedLongComment := by
  intro pos ahead failure
  unfold scan
  rw [h]
  rfl

end Scanner

end MiniLua

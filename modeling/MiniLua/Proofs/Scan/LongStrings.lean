import MiniLua.Proofs.Scan.Heads

/-!
Long brackets in a source: a string from the opener to the first closer, or a comment where dashes stand in front. The
content of the string has one LF for each line end of the body, less the first if the body starts with it.
-/

namespace MiniLua

open Text

namespace Scan

/-- A text with LF for each of its line ends, which are LF, CR, or one of each. -/
def newlines : Bytes → Bytes
  | [] => []
  | [a] => [if a = 0x0d then newline else a]
  | a :: b :: r =>
    if a = 0x0a ∧ b = 0x0d ∨ a = 0x0d ∧ b = 0x0a then newline :: newlines r
    else (if a = 0x0d then newline else a) :: newlines (b :: r)

/-- A text without the line end it may start with. -/
def dropNewline : Bytes → Bytes
  | [] => []
  | [a] => if a = 0x0a ∨ a = 0x0d then [] else [a]
  | a :: b :: r =>
    if a = 0x0a ∧ b = 0x0d ∨ a = 0x0d ∧ b = 0x0a then r
    else if a = 0x0a ∨ a = 0x0d then b :: r
    else a :: b :: r

theorem unifyLines_eq_newlines (bs : Bytes) : unifyLines bs = newlines bs := by
  induction bs using newlines.induct with
  | case1 => simp [unifyLines, newlines]
  | case2 a =>
      by_cases ha : a = 0x0a ∨ a = 0x0d
      · rcases ha with rfl | rfl <;> simp [unifyLines, newlines, lineEnd_singleton, newline]
      · simp_all [unifyLines, newlines, lineEnd_singleton]
  | case3 a b r hpair ih => simp [unifyLines, newlines, lineEnd_cons_cons, hpair, ih]
  | case4 a b r hpair ih =>
      by_cases ha : a = 0x0a ∨ a = 0x0d
      · rcases ha with rfl | rfl <;> simp_all [unifyLines, newlines, lineEnd_cons_cons, newline]
      · simp_all [unifyLines, newlines, lineEnd_cons_cons]

theorem drop_lineEnd_eq_dropNewline (bs : Bytes) : bs.drop (lineEnd bs) = dropNewline bs := by
  cases bs with
  | nil => rfl
  | cons a r =>
      cases r with
      | nil => by_cases ha : a = 0x0a ∨ a = 0x0d <;> simp [lineEnd_singleton, dropNewline, ha]
      | cons b r =>
          by_cases hpair : a = 0x0a ∧ b = 0x0d ∨ a = 0x0d ∧ b = 0x0a
          · simp [lineEnd_cons_cons, dropNewline, hpair]
          · by_cases ha : a = 0x0a ∨ a = 0x0d <;> simp [lineEnd_cons_cons, dropNewline, hpair, ha]

end Scan

namespace Scanner

open Scan

variable {level : Nat}

theorem bare_opener (level : Nat) (r : Bytes) : Bare (opener level ++ r) := by
  apply bare_cons
  · decide
  · simp

theorem read_opener (hl : level < window) (r : Bytes) :
    read (opener level ++ r) = longString level (opener level ++ r).length (longContent level r) :=
  bracket_opener hl r

theorem takes_long (hl : level < window) {body : Bytes} (hbody : Encloses level body) (rest : Bytes) :
    Takes (opener level ++ body ++ closer level) rest (.string (newlines (dropNewline body))) := by
  have hassoc : opener level ++ body ++ closer level ++ rest = opener level ++ (body ++ (closer level ++ rest)) := by
    simp only [List.append_assoc]
  apply takes_of_read
  · simp [opener]
  · rw [hassoc]
    apply bare_opener
  · rw [hassoc, read_opener hl, longContent_enclosed hbody, drop_lineEnd_eq_dropNewline, unifyLines_eq_newlines]
    simp [longString, length_opener, length_closer, Nat.add_assoc]

theorem skips_long (hl : level < window) {body : Bytes} (hbody : Encloses level body) (rest : Bytes) :
    Skips (dashes ++ (opener level ++ body ++ closer level)) rest := by
  apply skips_layout
  simpa using Layout.long hl hbody .nil

theorem fails_long (hl : level < window) {r : Bytes} (hr : ¬ closer level <:+: r) :
    Fails (opener level ++ r) .unfinishedLongString := by
  apply fails_of_read
  · simp [opener]
  · apply bare_opener
  · rw [read_opener hl, longContent_eq_none_iff.mpr hr]
    rfl

theorem fails_long_comment (hl : level < window) {r : Bytes} (hr : ¬ closer level <:+: r) :
    Fails (dashes ++ (opener level ++ r)) .unfinishedLongComment := by
  apply fails_unclosed
  apply gap_unclosed
  rw [comment_opener hl, longContent_eq_none_iff.mpr hr, Option.map_none]

/-- Long brackets enclose exactly what stands before their first closer, as a string and as a comment; without a closer
they are a fault. -/
theorem scan_long_bracket (hl : level < window) :
    (∀ body rest, Encloses level body →
      Takes (opener level ++ body ++ closer level) rest (.string (newlines (dropNewline body))) ∧
        Skips (dashes ++ (opener level ++ body ++ closer level)) rest) ∧
      (∀ r, ¬ closer level <:+: r →
        Fails (opener level ++ r) .unfinishedLongString ∧
          Fails (dashes ++ (opener level ++ r)) .unfinishedLongComment) ∧
      ScanFault.message .unfinishedLongString = utf8 "unfinished long string" ∧
      ScanFault.message .unfinishedLongComment = utf8 "unfinished long comment" := by
  refine ⟨?_, ?_, rfl, rfl⟩
  · intro body rest hbody
    exact ⟨takes_long hl hbody rest, skips_long hl hbody rest⟩
  · intro r hr
    exact ⟨fails_long hl hr, fails_long_comment hl hr⟩

/-- The body has closers of other levels, a bracket right before its own closer, and all kinds of line ends. -/
theorem scan_long_bracket_nested :
    let body := utf8 "\r\n]]\n\r]==]\r\r]"
    1 < window ∧ Encloses 1 body ∧
      (∀ rest, Takes (utf8 "[=[" ++ body ++ utf8 "]=]") rest (.string (utf8 "]]\n]==]\n\n]"))) ∧
      (∀ rest, Skips (dashes ++ (opener 1 ++ body ++ closer 1)) rest) ∧
      ¬ closer 1 <:+: utf8 "]]" ∧ Fails (opener 1 ++ utf8 "]]") .unfinishedLongString ∧
      Fails (dashes ++ (opener 1 ++ utf8 "]]")) .unfinishedLongComment := by
  intro body
  have hl : 1 < window := by decide
  have hbody : Encloses 1 body := by
    unfold Encloses
    decide
  have hopen : ¬ closer 1 <:+: utf8 "]]" := by decide
  have hscan := scan_long_bracket hl
  refine ⟨hl, hbody, ?_, fun rest => (hscan.1 body rest hbody).2, hopen, hscan.2.1 _ hopen⟩
  intro rest
  exact (hscan.1 body rest hbody).1

end Scanner

end MiniLua

import MiniLua.Proofs.Text.Utf8
import MiniLua.Scan.Scanner

/-!
How much source tokens take. A name or a string has no more bytes than the source has at its place, so that all tokens
together have no more than the source; and names are texts.
-/

namespace MiniLua

open Text

/-- A number of bytes that a lexeme takes at least in a source. -/
def Lexeme.extent : Lexeme → Nat
  | .eof | .fault _ => 0
  | .name text => max 1 text.length
  | .string content => content.length + 1
  | .integer .. | .float .. | .keyword _ | .symbol _ => 1

def Lexeme.extents : List Lexeme → Nat
  | [] => 0
  | l :: ls => l.extent + extents ls

/-- A name has to be a text; nothing is asked of other lexemes. -/
def Lexeme.IsText : Lexeme → Prop
  | .name text => isUtf8 text = true
  | _ => True

namespace Scan

theorem length_encodeScalar_le (n : Nat) : (encodeScalar n).length ≤ 4 := by
  unfold encodeScalar
  repeat' split
  all_goals simp

theorem hexPair_length {bs out : Bytes} {k : Nat} (h : hexPair bs = .ok (out, k)) : out.length = 1 := by
  unfold hexPair at h
  repeat' split at h
  all_goals cases h
  rfl

theorem braced_length {bs out : Bytes} {k : Nat} (h : braced bs = .ok (out, k)) : out.length ≤ k + 2 := by
  unfold braced at h
  repeat' split at h
  all_goals cases h
  exact Nat.le_trans (length_encodeScalar_le _) (Nat.le_add_left ..)

theorem shift_ok {n k : Nat} {x : Except (ScanFault × Nat) (Bytes × Nat)} {out : Bytes}
    (h : shift n x = .ok (out, k)) : ∃ m, x = .ok (out, m) ∧ k = m + n := by
  unfold shift at h
  split at h
  · cases h
    exact ⟨_, rfl, rfl⟩
  · cases h

/-- An escape with its backslash is as long as what it stands for. -/
theorem escape_length {bs out : Bytes} {k : Nat} (h : escape bs = .ok (out, k)) : out.length ≤ k + 1 := by
  unfold escape at h
  split at h
  · cases h
  · split at h
    · cases h
      exact Nat.le_succ _
    · split at h
      · cases h
        exact Nat.le_add_left ..
      · split at h
        · obtain ⟨m, hm, rfl⟩ := shift_ok h
          rw [hexPair_length hm]
          exact Nat.le_add_left ..
        · split at h
          · cases h
            exact Nat.zero_le _
          · split at h
            · obtain ⟨m, hm, rfl⟩ := shift_ok h
              exact braced_length hm
            · split at h
              · dsimp only at h
                split at h
                · cases h
                · cases h
                  exact Nat.le_add_left ..
              · cases h

/-- What is behind the closing quote, the content and the quote are no longer than the input. -/
theorem quotedBody_length {mark : UInt8} {n m : Nat} {bs c : Bytes} (h : quotedBody mark n bs = .ok (c, m)) :
    c.length + 1 + (bs.length - (m - n)) ≤ bs.length := by
  fun_induction quotedBody mark n bs generalizing c m with
  | case1 | case3 | case4 => cases h
  | case2 =>
      cases h
      simp only [List.length_nil, List.length_cons]
      omega
  | case5 n r out k hescape _ _ ih =>
      cases hbody : quotedBody mark (n + 1 + k) (r.drop k) with
      | error e =>
          rw [hbody] at h
          cases h
      | ok p =>
          rw [hbody] at h
          cases h
          have hlt := lt_of_quotedBody hbody
          have hout := escape_length hescape
          have hrest := ih hbody
          simp only [List.length_drop, List.length_append, List.length_cons] at hrest ⊢
          omega
  | case6 n b r _ _ _ ih =>
      cases hbody : quotedBody mark (n + 1) r with
      | error e =>
          rw [hbody] at h
          cases h
      | ok p =>
          rw [hbody] at h
          cases h
          have hlt := lt_of_quotedBody hbody
          have hrest := ih hbody
          simp only [List.length_cons]
          omega

theorem longBody_length {level m : Nat} {bs c : Bytes} (h : longBody level bs = some (c, m)) :
    c.length + 1 + (bs.length - m) ≤ bs.length := by
  fun_induction longBody level bs generalizing c m with
  | case1 => cases h
  | case2 =>
      cases h
      simp only [List.length_nil, List.length_cons]
      omega
  | case3 b r _ n hn =>
      rename_i ih
      obtain ⟨p, hbody, hp⟩ := Option.map_eq_some_iff.mp h
      cases hp
      have hrest := ih hbody
      simp only [List.length_cons]
      omega
  | case4 b r _ n hn =>
      rename_i ih
      obtain ⟨p, hbody, hp⟩ := Option.map_eq_some_iff.mp h
      cases hp
      have hrest := ih hbody
      simp only [List.length_drop, List.length_cons] at hrest ⊢
      omega

/-- The lexeme has no more bytes than are read. -/
def Spends (bs : Bytes) : Reading → Prop
  | .lexeme l n => l.extent + (bs.length - n) ≤ bs.length ∧ l.IsText
  | .stop _ => True

theorem bracket_spends {bs : Bytes} (hbs : bs ≠ []) : Spends bs (bracket bs) := by
  have hpos := List.length_pos_iff.mpr hbs
  unfold bracket
  split
  · next level _ =>
    split
    · next content n hcontent =>
      obtain ⟨p, hbody, hp⟩ := Option.map_eq_some_iff.mp hcontent
      cases hp
      have hlength := longBody_length hbody
      refine ⟨?_, trivial⟩
      simp only [List.length_drop, Lexeme.extent] at hlength ⊢
      omega
    · trivial
  · trivial
  · refine ⟨?_, trivial⟩
    simp only [Lexeme.extent]
    omega

theorem quotedString_spends (mark b : UInt8) (r : Bytes) : Spends (b :: r) (quotedString mark r) := by
  unfold quotedString
  split
  · next content n hbody =>
    have hlt := lt_of_quotedBody hbody
    have hlength := quotedBody_length hbody
    refine ⟨?_, trivial⟩
    simp only [List.length_cons, Lexeme.extent]
    omega
  · trivial

def isNumber : Lexeme → Bool
  | .integer .. | .float .. => true
  | _ => false

theorem endNumeral_isNumber {bs : Bytes} {n m : Nat} {value : Bytes → Lexeme} {l : Lexeme}
    (hvalue : ∀ literal, isNumber (value literal) = true) (h : endNumeral bs n value = .lexeme l m) :
    isNumber l = true := by
  unfold endNumeral malformed at h
  split at h
  · cases h
  · cases h
    exact hvalue _

theorem decimalNumeral_isNumber {bs : Bytes} {n : Nat} {l : Lexeme} (h : decimalNumeral bs = .lexeme l n) :
    isNumber l = true := by
  simp only [decimalNumeral, malformed] at h
  split at h
  · refine endNumeral_isNumber (fun literal => ?_) h
    unfold plainDecimal
    split <;> rfl
  · split at h
    · cases h
    · exact endNumeral_isNumber (fun _ => rfl) h

theorem numeral_isNumber {bs : Bytes} {n : Nat} {l : Lexeme} (h : numeral bs = .lexeme l n) : isNumber l = true := by
  unfold numeral at h
  split at h
  · split at h
    · simp only [hexNumeral, malformed] at h
      split at h
      · cases h
      · exact endNumeral_isNumber (fun _ => rfl) h
    · exact decimalNumeral_isNumber h
  · exact decimalNumeral_isNumber h

theorem numeral_spends {bs : Bytes} (hs : startsNumeral bs = true) : Spends bs (numeral bs) := by
  have hbs : 0 < bs.length := by
    cases bs with
    | nil => cases hs
    | cons b r => exact Nat.succ_pos _
  cases h : numeral bs with
  | stop s => trivial
  | lexeme l n =>
      have hpos := numeral_length_pos hs h
      have hnumber := numeral_isNumber h
      cases l with
      | integer | float =>
          refine ⟨?_, trivial⟩
          simp only [Lexeme.extent]
          omega
      | eof | fault | name | string | keyword | symbol => cases hnumber

theorem lt_of_isNameByte {b : UInt8} (h : isNameByte b = true) : b < 0x80 := by
  simp only [isNameByte, isLetter, isDigit, Bool.or_eq_true, Bool.and_eq_true, decide_eq_true_eq, beq_iff_eq] at h
  grind

theorem word_spends {b : UInt8} {r : Bytes} (hb : isLetter b = true) : Spends (b :: r) (word (b :: r)) := by
  have htake : (b :: r).takeWhile isNameByte = b :: r.takeWhile isNameByte :=
    List.takeWhile_cons_of_pos (by simp [isNameByte, hb])
  have hle : (r.takeWhile isNameByte).length ≤ r.length := (List.takeWhile_sublist isNameByte).length_le
  unfold word
  dsimp only
  cases Keyword.ofBytes? ((b :: r).takeWhile isNameByte) with
  | some k =>
      refine ⟨?_, trivial⟩
      simp only [Option.map_some, Option.getD_some, Lexeme.extent, htake, List.length_cons]
      omega
  | none =>
      refine ⟨?_, isUtf8_ascii fun b' hb' => lt_of_isNameByte (List.all_eq_true.mp List.all_takeWhile b' hb')⟩
      simp only [Option.map_none, Option.getD_none, Lexeme.extent, htake, List.length_cons]
      omega

theorem read_spends (bs : Bytes) : Spends bs (read bs) := by
  cases bs with
  | nil => exact ⟨Nat.le_refl _, trivial⟩
  | cons b r =>
      unfold read
      dsimp only
      split
      · exact bracket_spends (List.cons_ne_nil b r)
      · split
        · exact quotedString_spends b b r
        · split
          · next hs => exact numeral_spends hs
          · split
            · next hb => exact word_spends hb
            · split
              · next s _ =>
                have hpos := Symbol.bytes_length_pos s
                refine ⟨?_, trivial⟩
                simp only [List.length_cons, Lexeme.extent]
                omega
              · trivial

end Scan

namespace Scanner

theorem length_skip (c : Cursor) (n : Nat) : (c.skip n).rest.length = c.rest.length - n := List.length_drop

theorem scan_extent (s : Scanner) :
    s.scan.1.lexeme.extent + s.scan.2.cursor.rest.length ≤ s.cursor.rest.length ∧ s.scan.1.lexeme.IsText := by
  unfold scan
  split
  · refine ⟨?_, trivial⟩
    simp only [length_skip, Lexeme.extent]
    omega
  · next n _ =>
    dsimp only
    split
    · refine ⟨?_, trivial⟩
      simp only [length_skip, Lexeme.extent]
      omega
    · have hread := Scan.read_spends (s.cursor.skip n).rest
      split
      · next l length heq =>
        rw [heq] at hread
        refine ⟨?_, hread.2⟩
        have hextent := hread.1
        simp only [length_skip] at hextent ⊢
        omega
      · refine ⟨?_, trivial⟩
        simp only [length_skip, Lexeme.extent]
        omega

theorem next_eq_scan {s : Scanner} (h : s.ahead = none) : s.next = s.scan := by
  unfold next
  rw [h]

theorem next_extent {s : Scanner} (h : s.ahead = none) :
    s.next.1.lexeme.extent + s.next.2.cursor.rest.length ≤ s.cursor.rest.length ∧ s.next.1.lexeme.IsText := by
  rw [next_eq_scan h]
  exact scan_extent s

/-- All tokens of a source together have no more bytes than the source. -/
theorem tokens_extent {s : Scanner} (h : s.ahead = none) :
    Lexeme.extents (s.tokens.1.map Token.lexeme) ≤ s.cursor.rest.length ∧ ∀ t ∈ s.tokens.1, t.lexeme.IsText := by
  fun_induction tokens s with
  | case1 s _ =>
      obtain ⟨hextent, htext⟩ := next_extent h
      refine ⟨?_, List.forall_mem_singleton.mpr htext⟩
      simp only [List.map_cons, List.map_nil, Lexeme.extents]
      omega
  | case2 s _ ts last hrest ih =>
      have hahead : s.next.2.ahead = none := by rw [next_eq_scan h, scan_ahead, h]
      obtain ⟨hextent, htext⟩ := next_extent h
      obtain ⟨hextents, htexts⟩ := ih hahead
      rw [hrest] at hextents htexts
      refine ⟨?_, List.forall_mem_cons.mpr ⟨htext, htexts⟩⟩
      simp only [List.map_cons, Lexeme.extents] at hextents ⊢
      omega

end Scanner

end MiniLua

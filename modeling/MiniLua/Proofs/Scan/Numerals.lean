import MiniLua.Scan.Lexeme

/-!
How far numerals are read: a numeral is decided by its own bytes, if the byte behind them does not continue it.
-/

namespace MiniLua.Scan

open Text

/-- The head does not continue a numeral or a name. -/
def Stops (bs : Bytes) : Prop := ∀ b ∈ bs.head?, continuesNumeral b = false

theorem takeWhile_append_stops {p : UInt8 → Bool} {a q : Bytes} (hp : ∀ b, p b = true → continuesNumeral b = true)
    (hq : Stops q) : (a ++ q).takeWhile p = a.takeWhile p := by
  induction a with
  | nil =>
      cases q with
      | nil => rfl
      | cons b r =>
          have hb : p b ≠ true := fun hb => by simpa [hp b hb] using hq b rfl
          exact List.takeWhile_cons_of_neg hb
  | cons b a ih =>
      by_cases hb : p b = true
      · rw [List.cons_append, List.takeWhile_cons_of_pos hb, List.takeWhile_cons_of_pos hb, ih]
      · rw [List.cons_append, List.takeWhile_cons_of_neg hb, List.takeWhile_cons_of_neg hb]

theorem continues_of_isNameByte {b : UInt8} (h : isNameByte b = true) : continuesNumeral b = true := by
  simp [continuesNumeral, h]

theorem continues_of_isDigit {b : UInt8} (h : isDigit b = true) : continuesNumeral b = true :=
  continues_of_isNameByte (by simp [isNameByte, h])

theorem continues_of_isHexDigit {b : UInt8} (h : isHexDigit b = true) : continuesNumeral b = true := by
  refine continues_of_isNameByte ?_
  simp only [isHexDigit, isNameByte, isLetter, isDigit, Bool.or_eq_true, Bool.and_eq_true, beq_iff_eq,
    decide_eq_true_eq] at h ⊢
  grind

theorem endNumeral_eq {bs : Bytes} {n m : Nat} {value : Bytes → Lexeme} {l : Lexeme}
    (h : endNumeral bs n value = .lexeme l m) : m = n ∧ l = value (bs.take n) ∧ Stops (bs.drop n) := by
  unfold endNumeral malformed at h
  split at h
  · cases h
  · next hstop =>
    cases h
    refine ⟨rfl, rfl, fun b hb => ?_⟩
    rw [List.head?_drop] at hb
    simpa [Option.mem_def.mp hb] using hstop

theorem endNumeral_append {p q : Bytes} (value : Bytes → Lexeme) (hq : Stops q) :
    endNumeral (p ++ q) p.length value = .lexeme (value p) p.length := by
  have hget : (p ++ q)[p.length]? = q.head? := by
    rw [List.getElem?_append_right (Nat.le_refl _), Nat.sub_self, List.head?_eq_getElem?]
  have hstop : (((p ++ q)[p.length]?).map continuesNumeral).getD false ≠ true := by
    rw [hget]
    cases hb : q.head? with
    | none => simp
    | some b => simp [hq b hb]
  rw [endNumeral, if_neg hstop, List.take_left]

theorem fractionLength_append {p q : Bytes} (hq : Stops q) : fractionLength (p ++ q) = fractionLength p := by
  cases p with
  | nil =>
      cases q with
      | nil => rfl
      | cons b r =>
          have hb : b ≠ 0x2e := by
            rintro rfl
            exact absurd (hq _ rfl) (by decide)
          simp [fractionLength, hb]
  | cons b p =>
      by_cases hb : b = 0x2e
      · subst hb
        simp only [List.cons_append, fractionLength, takeWhile_append_stops (fun _ => continues_of_isDigit) hq]
      · simp [fractionLength, hb]

theorem exponentMark_stops {q : Bytes} (hq : Stops q) : exponentMark q = 0 := by
  cases q with
  | nil => rfl
  | cons b r =>
      have hb : ¬ (b = 0x65 ∨ b = 0x45) := by
        rintro (rfl | rfl) <;> exact absurd (hq _ rfl) (by decide)
      unfold exponentMark
      exact if_neg hb

theorem exponentMark_append {p : Bytes} (q : Bytes) (hp : 2 ≤ p.length) : exponentMark (p ++ q) = exponentMark p := by
  cases p with
  | nil => cases hp
  | cons b p =>
      cases p with
      | nil => exact absurd hp (Nat.not_succ_le_self 1)
      | cons c p => rfl

theorem fractionLength_le (bs : Bytes) : fractionLength bs ≤ bs.length := by
  unfold fractionLength
  split
  · exact Nat.succ_le_succ (List.takeWhile_sublist isDigit).length_le
  · exact Nat.zero_le _

theorem exponentMark_le (bs : Bytes) : exponentMark bs ≤ bs.length := by
  unfold exponentMark
  repeat' split
  all_goals simp

/-- Length of the digits at the head and of the fraction behind them. -/
def mantissaLength (bs : Bytes) : Nat :=
  (bs.takeWhile isDigit).length + fractionLength (bs.drop (bs.takeWhile isDigit).length)

theorem mantissaLength_le (bs : Bytes) : mantissaLength bs ≤ bs.length := by
  have hdigits : (bs.takeWhile isDigit).length ≤ bs.length := (List.takeWhile_sublist isDigit).length_le
  have hfraction := fractionLength_le (bs.drop (bs.takeWhile isDigit).length)
  rw [List.length_drop] at hfraction
  rw [mantissaLength]
  omega

theorem mantissaLength_append {p q : Bytes} (hq : Stops q) : mantissaLength (p ++ q) = mantissaLength p := by
  have hdigits : (p.takeWhile isDigit).length ≤ p.length := (List.takeWhile_sublist isDigit).length_le
  rw [mantissaLength, takeWhile_append_stops (fun _ => continues_of_isDigit) hq,
    List.drop_append_of_le_length hdigits, fractionLength_append hq, mantissaLength]

theorem decimalValue_append {p : Bytes} (q : Bytes) {w n : Nat} (hw : w ≤ n) (hn : n ≤ p.length) (power : Int) :
    decimalValue (p ++ q) w n power = decimalValue p w n power := by
  rw [decimalValue, decimalValue, List.take_append_of_le_length hn, List.take_append_of_le_length (Nat.le_trans hw hn)]

theorem digits_drop_append {p q : Bytes} (hq : Stops q) {k : Nat} (hk : k ≤ p.length) :
    ((p ++ q).drop k).takeWhile isDigit = (p.drop k).takeWhile isDigit := by
  rw [List.drop_append_of_le_length hk, takeWhile_append_stops (fun _ => continues_of_isDigit) hq]

theorem decimalNumeral_eq (bs : Bytes) :
    decimalNumeral bs =
      if exponentMark (bs.drop (mantissaLength bs)) = 0 then
        endNumeral bs (mantissaLength bs) (plainDecimal (bs.takeWhile isDigit).length)
      else
        let k := mantissaLength bs + exponentMark (bs.drop (mantissaLength bs))
        let power := (bs.drop k).takeWhile isDigit
        if power.isEmpty then malformed bs k
        else endNumeral bs (k + power.length) fun literal =>
          .float literal (decimalValue bs (bs.takeWhile isDigit).length (mantissaLength bs)
            (Numeral.signedExponent (bs[mantissaLength bs + 1]? = some 0x2d) power)) := rfl

/-- A decimal numeral is what its bytes make it, if nothing behind continues it. -/
theorem decimalNumeral_append {p q q' : Bytes} {l : Lexeme} (h : decimalNumeral (p ++ q) = .lexeme l p.length)
    (hq : Stops q) (hq' : Stops q') : decimalNumeral (p ++ q') = .lexeme l p.length := by
  have hdigits (q : Bytes) (hq : Stops q) : (p ++ q).takeWhile isDigit = p.takeWhile isDigit :=
    digits_drop_append hq (Nat.zero_le _)
  have hle := mantissaLength_le p
  rw [decimalNumeral_eq, hdigits q hq, mantissaLength_append hq, List.drop_append_of_le_length hle] at h
  rw [decimalNumeral_eq, hdigits q' hq', mantissaLength_append hq', List.drop_append_of_le_length hle]
  dsimp only at h ⊢
  split at h
  · next hmark =>
    obtain ⟨hlength, rfl, _⟩ := endNumeral_eq h
    rw [← hlength, List.drop_length, List.nil_append, exponentMark_stops hq', if_pos rfl, endNumeral_append _ hq',
      List.take_left]
  · next hmark =>
    split at h
    · simp [malformed] at h
    · next hpower =>
      -- the exponent has a mark and a digit, so that the numeral alone shows how long its mark is
      obtain ⟨hlength, rfl, _⟩ := endNumeral_eq h
      have hpos := List.length_pos_iff.mpr (mt List.isEmpty_iff.mpr hpower)
      have hsign : mantissaLength p + 1 < p.length := by omega
      have hlong : 2 ≤ (p.drop (mantissaLength p)).length := by
        rw [List.length_drop]
        omega
      have hw : (p.takeWhile isDigit).length ≤ mantissaLength p := Nat.le_add_right ..
      rw [exponentMark_append q hlong] at hmark hpower hlength ⊢
      have hk : mantissaLength p + exponentMark (p.drop (mantissaLength p)) ≤ p.length := by omega
      rw [digits_drop_append hq hk] at hpower hlength ⊢
      rw [exponentMark_append q' hlong, if_neg hmark, digits_drop_append hq' hk, if_neg hpower, ← hlength,
        endNumeral_append _ hq', List.take_left, decimalValue_append q hw hle, decimalValue_append q' hw hle,
        List.getElem?_append_left hsign, List.getElem?_append_left hsign]

theorem hexNumeral_append {p q q' : Bytes} {l : Lexeme} (h : hexNumeral (p ++ q) = .lexeme l p.length)
    (hq : Stops q) (hq' : Stops q') : hexNumeral (p ++ q') = .lexeme l p.length := by
  have hdigits (q : Bytes) (hq : Stops q) (hp : 2 ≤ p.length) :
      ((p ++ q).drop 2).takeWhile isHexDigit = (p.drop 2).takeWhile isHexDigit := by
    rw [List.drop_append_of_le_length hp, takeWhile_append_stops (fun _ => continues_of_isHexDigit) hq]
  unfold hexNumeral at h ⊢
  dsimp only at h ⊢
  split at h
  · simp [malformed] at h
  · next hdigit =>
    obtain ⟨hlength, rfl, _⟩ := endNumeral_eq h
    have hp : 2 ≤ p.length := by omega
    rw [hdigits q hq hp] at hdigit hlength ⊢
    rw [hdigits q' hq' hp, if_neg hdigit, ← hlength, endNumeral_append _ hq', List.take_left]

def startsHex (bs : Bytes) : Prop := bs.head? = some 0x30 ∧ (bs[1]? = some 0x78 ∨ bs[1]? = some 0x58)

theorem numeral_hex {bs : Bytes} (h : startsHex bs) : numeral bs = hexNumeral bs := by
  obtain ⟨r, rfl⟩ := List.head?_eq_some_iff.mp h.1
  cases r with
  | nil => simp [startsHex] at h
  | cons x r =>
      have hx : x = 0x78 ∨ x = 0x58 := by simpa using h.2
      exact if_pos hx

theorem numeral_decimal {bs : Bytes} (h : ¬ startsHex bs) : numeral bs = decimalNumeral bs := by
  unfold numeral
  split
  · next x r =>
    refine if_neg fun hx => h ⟨rfl, ?_⟩
    simpa using hx
  · rfl

/-- The `x` of a hexadecimal numeral is one of its bytes. -/
theorem startsHex_append {p q : Bytes} (hp : 0 < p.length) (hq : Stops q) : startsHex (p ++ q) ↔ startsHex p := by
  cases p with
  | nil => cases hp
  | cons b p =>
      cases p with
      | cons c p => simp [startsHex]
      | nil =>
          have hx : ∀ x : UInt8, continuesNumeral x = true → q.head? ≠ some x := fun x hx hhead => by
            simpa [hx] using hq x hhead
          simp [startsHex, ← List.head?_eq_getElem?, hx 0x78 (by decide), hx 0x58 (by decide)]

theorem numeral_append {p q q' : Bytes} {l : Lexeme} (h : numeral (p ++ q) = .lexeme l p.length)
    (hp : 0 < p.length) (hq : Stops q) (hq' : Stops q') : numeral (p ++ q') = .lexeme l p.length := by
  by_cases hhex : startsHex p
  · rw [numeral_hex ((startsHex_append hp hq).mpr hhex)] at h
    rw [numeral_hex ((startsHex_append hp hq').mpr hhex)]
    exact hexNumeral_append h hq hq'
  · rw [numeral_decimal (mt (startsHex_append hp hq).mp hhex)] at h
    rw [numeral_decimal (mt (startsHex_append hp hq').mp hhex)]
    exact decimalNumeral_append h hq hq'

theorem hexNumeral_bounds {bs : Bytes} {l : Lexeme} {n : Nat} (h : hexNumeral bs = .lexeme l n) :
    n ≤ bs.length ∧ Stops (bs.drop n) := by
  unfold hexNumeral at h
  dsimp only at h
  split at h
  · simp [malformed] at h
  · next hdigit =>
    obtain ⟨rfl, _, hstops⟩ := endNumeral_eq h
    have hpos := List.length_pos_iff.mpr (mt List.isEmpty_iff.mpr hdigit)
    have hle : ((bs.drop 2).takeWhile isHexDigit).length ≤ (bs.drop 2).length :=
      (List.takeWhile_sublist isHexDigit).length_le
    rw [List.length_drop] at hle
    exact ⟨by omega, hstops⟩

theorem decimalNumeral_bounds {bs : Bytes} {l : Lexeme} {n : Nat} (h : decimalNumeral bs = .lexeme l n) :
    n ≤ bs.length ∧ Stops (bs.drop n) := by
  have hmantissa := mantissaLength_le bs
  have hmark := exponentMark_le (bs.drop (mantissaLength bs))
  rw [List.length_drop] at hmark
  rw [decimalNumeral_eq] at h
  dsimp only at h
  split at h
  · obtain ⟨rfl, _, hstops⟩ := endNumeral_eq h
    exact ⟨hmantissa, hstops⟩
  · split at h
    · simp [malformed] at h
    · obtain ⟨rfl, _, hstops⟩ := endNumeral_eq h
      have hpower := (List.takeWhile_sublist (l := bs.drop (mantissaLength bs + exponentMark (bs.drop (mantissaLength bs))))
        isDigit).length_le
      rw [List.length_drop] at hpower
      exact ⟨by omega, hstops⟩

theorem mantissaLength_le_of_decimal {bs : Bytes} {l : Lexeme} {n : Nat} (h : decimalNumeral bs = .lexeme l n) :
    mantissaLength bs ≤ n := by
  rw [decimalNumeral_eq] at h
  dsimp only at h
  split at h
  · exact Nat.le_of_eq (endNumeral_eq h).1.symm
  · split at h
    · simp [malformed] at h
    · have hlength := (endNumeral_eq h).1
      omega

/-- A numeral that starts with a point has a digit behind it. -/
theorem two_le_of_point {d : UInt8} {r : Bytes} {l : Lexeme} {n : Nat} (hd : isDigit d = true)
    (h : numeral (0x2e :: d :: r) = .lexeme l n) : 2 ≤ n := by
  rw [numeral_decimal (by simp [startsHex])] at h
  have hle := mantissaLength_le_of_decimal h
  have hpoint : (0x2e :: d :: r).takeWhile isDigit = [] := List.takeWhile_cons_of_neg (by decide)
  have hmantissa : mantissaLength (0x2e :: d :: r) = (r.takeWhile isDigit).length + 1 + 1 := by
    rw [mantissaLength, hpoint]
    simp [fractionLength, List.takeWhile_cons_of_pos hd]
  omega

theorem numeral_bounds {bs : Bytes} {l : Lexeme} {n : Nat} (h : numeral bs = .lexeme l n) :
    n ≤ bs.length ∧ Stops (bs.drop n) := by
  by_cases hhex : startsHex bs
  · exact hexNumeral_bounds (numeral_hex hhex ▸ h)
  · exact decimalNumeral_bounds (numeral_decimal hhex ▸ h)

end MiniLua.Scan

import MiniLua.Proofs.Scan.Heads

/-!
The numerals that a scanner accepts, and what they stand for. A numeral is taken exactly if it is written by the grammar and
nothing behind continues it; what starts like a numeral and is none is a fault.
-/

namespace MiniLua

open Text

namespace Scan

def Digits (ds : Bytes) : Prop := ds ≠ [] ∧ ∀ d ∈ ds, isDigit d = true

inductive Mantissa : Bytes → Prop
  | whole {ds : Bytes} (hd : Digits ds) : Mantissa ds
  | point {ds part : Bytes} (hd : Digits ds) (hp : ∀ d ∈ part, isDigit d = true) : Mantissa (ds ++ 0x2e :: part)
  | fraction {part : Bytes} (hp : Digits part) : Mantissa (0x2e :: part)

inductive Exponent : Bytes → Prop
  | mk {e : UInt8} {sign ds : Bytes} (he : e = 0x65 ∨ e = 0x45) (hs : sign = [] ∨ sign = [0x2b] ∨ sign = [0x2d])
      (hd : Digits ds) : Exponent (e :: (sign ++ ds))

inductive DecimalForm : Bytes → Prop
  | plain {m : Bytes} (hm : Mantissa m) : DecimalForm m
  | scaled {m e : Bytes} (hm : Mantissa m) (he : Exponent e) : DecimalForm (m ++ e)

inductive HexForm : Bytes → Bytes → Prop
  | mk {x : UInt8} {ds : Bytes} (hx : x = 0x78 ∨ x = 0x58) (hne : ds ≠ []) (hd : ∀ d ∈ ds, isHexDigit d = true) :
      HexForm (0x30 :: x :: ds) ds

def IsNumeral (w : Bytes) : Prop := (∃ ds, HexForm w ds) ∨ DecimalForm w

/-- The lexeme of a numeral. Hexadecimal digits count modulo 2^64, as a signed number; decimal digits alone are an integer
if it fits; and all else is a float. -/
inductive Denotes : Bytes → Lexeme → Prop
  | hex {w ds : Bytes} {v : Int64} (hw : HexForm w ds) (hv : v.toInt = (digitsValue 16 ds : Int).bmod Int64.size) :
      Denotes w (.integer w v)
  | integer {ds : Bytes} {v : Int64} (hd : Digits ds) (hsmall : digitsValue 10 ds < 0x8000000000000000)
      (hv : v.toInt = digitsValue 10 ds) : Denotes ds (.integer ds v)
  | large {ds : Bytes} (y : Binary64) (hd : Digits ds) (hlarge : 0x8000000000000000 ≤ digitsValue 10 ds) :
      Denotes ds (.float ds y)
  | float {w : Bytes} (y : Binary64) (hw : DecimalForm w) (hpoint : ¬ Digits w) : Denotes w (.float w y)

/-- A numeral at the head, with nothing behind that continues it. -/
structure Splits (input w rest : Bytes) : Prop where
  append : input = w ++ rest
  isNumeral : IsNumeral w
  stops : Stops rest

/-! Numerals of the grammar are read. -/

theorem Stops.not_of {p : UInt8 → Bool} (hp : ∀ b, p b = true → continuesNumeral b = true) {r : Bytes} (hr : Stops r) :
    ∀ b ∈ r.head?, p b = false := by
  intro b hb
  refine Bool.eq_false_iff.mpr fun hpb => ?_
  simpa [hp b hpb] using hr b hb

theorem numeral_hexForm {w ds rest : Bytes} (h : HexForm w ds) (hr : Stops rest) :
    numeral (w ++ rest) = .lexeme (.integer w (.ofNat (digitsValue 16 ds))) w.length := by
  obtain ⟨hx, hne, hd⟩ := h
  next x =>
  have hstarts : startsHex (0x30 :: x :: ds ++ rest) := ⟨rfl, by simpa using hx⟩
  have hdigits : ((0x30 :: x :: ds ++ rest).drop 2).takeWhile isHexDigit = ds :=
    takeWhile_run hd (hr.not_of fun _ => continues_of_isHexDigit)
  rw [numeral_hex hstarts, hexNumeral, hdigits]
  simp only [List.isEmpty_iff, hne, if_false]
  exact endNumeral_append _ hr

theorem mantissa_append {m r : Bytes} (hm : Mantissa m) (hr : ∀ b ∈ r.head?, isDigit b = false ∧ b ≠ 0x2e) :
    mantissaLength (m ++ r) = m.length ∧ (m.length = ((m ++ r).takeWhile isDigit).length ↔ Digits m) := by
  have hend : ∀ b ∈ r.head?, isDigit b = false := fun b hb => (hr b hb).1
  cases hm with
  | whole hd =>
      have hdigits : (m ++ r).takeWhile isDigit = m := takeWhile_run hd.2 hend
      have hfraction : fractionLength r = 0 := by
        cases r with
        | nil => rfl
        | cons b r => simp [fractionLength, (hr b rfl).2]
      simp [mantissaLength, hdigits, hfraction, hd]
  | @point ds part hd hp =>
      have hpoint : ∀ b ∈ (0x2e :: (part ++ r)).head?, isDigit b = false := by
        intro b hb
        cases hb
        rfl
      have hdigits : (ds ++ 0x2e :: (part ++ r)).takeWhile isDigit = ds := takeWhile_run hd.2 hpoint
      have hpart : (part ++ r).takeWhile isDigit = part := takeWhile_run hp hend
      have hnot : ¬ Digits (ds ++ 0x2e :: part) := fun h => absurd (h.2 0x2e (by simp)) (by decide)
      simp [mantissaLength, hdigits, hpart, fractionLength, hnot]
  | @fraction part hp =>
      have hpart : (part ++ r).takeWhile isDigit = part := takeWhile_run hp.2 hend
      have hnot : ¬ Digits (0x2e :: part) := fun h => absurd (h.2 0x2e (by simp)) (by decide)
      have hzero : isDigit 0x2e = false := rfl
      simp [mantissaLength, hpart, fractionLength, hnot, hzero]

theorem exponentMark_sign {e : UInt8} (he : e = 0x65 ∨ e = 0x45) {sign ds : Bytes}
    (hs : sign = [] ∨ sign = [0x2b] ∨ sign = [0x2d]) (hd : Digits ds) (rest : Bytes) :
    exponentMark (e :: (sign ++ (ds ++ rest))) = sign.length + 1 := by
  obtain ⟨hne, hdigits⟩ := hd
  obtain ⟨d, ds, rfl⟩ := List.exists_cons_of_ne_nil hne
  have hsign : ¬ (d = 0x2b ∨ d = 0x2d) := by
    have hdigit := hdigits d (by simp)
    rintro (rfl | rfl) <;> exact absurd hdigit (by decide)
  rcases hs with rfl | rfl | rfl <;> simp [exponentMark, he, hsign]

theorem exponent_append {e rest : Bytes} (he : Exponent e) (hr : Stops rest) :
    ∃ mark power, exponentMark (e ++ rest) = mark ∧ mark ≠ 0 ∧ ((e ++ rest).drop mark).takeWhile isDigit = power ∧
      power ≠ [] ∧ mark + power.length = e.length := by
  obtain ⟨he, hs, hd⟩ := he
  next c sign ds =>
  have hmark := exponentMark_sign he hs hd rest
  have hdigits : (ds ++ rest).takeWhile isDigit = ds := takeWhile_run hd.2 (hr.not_of fun _ => continues_of_isDigit)
  refine ⟨sign.length + 1, ds, ?_, by simp, ?_, hd.1, ?_⟩
  · simpa using hmark
  · simpa using hdigits
  · simp
    omega

theorem notHex_of_mem {w : Bytes} (h : ∀ b ∈ w, b ≠ 0x78 ∧ b ≠ 0x58) : ¬ startsHex w := by
  rintro ⟨-, hx | hx⟩
  · exact (h _ (List.mem_of_getElem? hx)).1 rfl
  · exact (h _ (List.mem_of_getElem? hx)).2 rfl

theorem notHex_digit {d : UInt8} (h : isDigit d = true) : d ≠ 0x78 ∧ d ≠ 0x58 := by
  constructor <;> rintro rfl <;> exact absurd h (by decide)

theorem notHex_mantissa {m : Bytes} (hm : Mantissa m) : ∀ b ∈ m, b ≠ 0x78 ∧ b ≠ 0x58 := by
  cases hm with
  | whole hd => exact fun b hb => notHex_digit (hd.2 b hb)
  | point hd hp =>
      rw [List.forall_mem_append, List.forall_mem_cons]
      exact ⟨fun b hb => notHex_digit (hd.2 b hb), by decide, fun b hb => notHex_digit (hp b hb)⟩
  | fraction hp =>
      rw [List.forall_mem_cons]
      exact ⟨by decide, fun b hb => notHex_digit (hp.2 b hb)⟩

theorem notHex_exponent {e : Bytes} (he : Exponent e) : ∀ b ∈ e, b ≠ 0x78 ∧ b ≠ 0x58 := by
  obtain ⟨he, hs, hd⟩ := he
  rw [List.forall_mem_cons, List.forall_mem_append]
  refine ⟨?_, ?_, fun b hb => notHex_digit (hd.2 b hb)⟩
  · rcases he with rfl | rfl <;> decide
  · rcases hs with rfl | rfl | rfl <;> simp

theorem Mantissa.ne_nil {m : Bytes} (hm : Mantissa m) : m ≠ [] := by
  cases hm with
  | whole hd => exact hd.1
  | point | fraction => simp

theorem toInt_ofNat_of_lt {n : Nat} (h : n < 0x8000000000000000) : (Int64.ofNat n).toInt = n := by
  rw [Int64.toInt_ofNat']
  apply Int.bmod_eq_of_le
  · omega
  · simp only [Int64.size]
    omega

theorem denotes_plainDecimal {m r : Bytes} (hm : Mantissa m)
    (hw : m.length = ((m ++ r).takeWhile isDigit).length ↔ Digits m) :
    Denotes m (plainDecimal ((m ++ r).takeWhile isDigit).length m) := by
  unfold plainDecimal
  split
  · next h =>
    exact .integer (hw.mp h.1) h.2 (toInt_ofNat_of_lt h.2)
  · next h =>
    by_cases hd : Digits m
    · refine .large _ hd (Nat.le_of_not_lt fun hlt => h ⟨hw.mpr hd, hlt⟩)
    · exact .float _ (.plain hm) hd

theorem decimalNumeral_plain {m rest : Bytes} (hm : Mantissa m) (hr : Stops rest) :
    ∃ l, Denotes m l ∧ decimalNumeral (m ++ rest) = .lexeme l m.length := by
  have hend : ∀ b ∈ rest.head?, isDigit b = false ∧ b ≠ 0x2e := by
    intro b hb
    refine ⟨hr.not_of (fun _ => continues_of_isDigit) b hb, ?_⟩
    rintro rfl
    exact absurd (hr _ hb) (by decide)
  obtain ⟨hlength, hw⟩ := mantissa_append hm hend
  refine ⟨_, denotes_plainDecimal hm hw, ?_⟩
  rw [decimalNumeral_eq, hlength, List.drop_left, exponentMark_stops hr, if_pos rfl]
  exact endNumeral_append _ hr

theorem decimalNumeral_scaled {m e rest : Bytes} (hm : Mantissa m) (he : Exponent e) (hr : Stops rest) :
    ∃ l, Denotes (m ++ e) l ∧ decimalNumeral (m ++ e ++ rest) = .lexeme l (m ++ e).length := by
  have hend : ∀ b ∈ (e ++ rest).head?, isDigit b = false ∧ b ≠ 0x2e := by
    obtain ⟨he, -, -⟩ := he
    intro b hb
    cases hb
    rcases he with rfl | rfl <;> decide
  have hnot : ¬ Digits (m ++ e) := by
    obtain ⟨he, -, -⟩ := he
    next c sign ds =>
    intro h
    have hdigit := h.2 c (by simp)
    rcases he with rfl | rfl <;> exact absurd hdigit (by decide)
  obtain ⟨hlength, -⟩ := mantissa_append hm hend
  obtain ⟨mark, power, hmark, hne, hpower, hpne, hlen⟩ := exponent_append he hr
  have htotal : m.length + mark + power.length = (m ++ e).length := by
    rw [List.length_append, ← hlen, Nat.add_assoc]
  obtain ⟨y, hy⟩ : ∃ y, decimalNumeral (m ++ (e ++ rest)) = .lexeme (.float (m ++ e) y) (m ++ e).length := by
    rw [decimalNumeral_eq, hlength, List.drop_left, hmark, if_neg hne]
    simp only [← List.drop_drop, List.drop_left, hpower, List.isEmpty_iff, hpne, if_false, htotal]
    rw [← List.append_assoc]
    exact ⟨_, endNumeral_append _ hr⟩
  rw [List.append_assoc]
  exact ⟨_, .float y (.scaled hm he) hnot, hy⟩

theorem numeral_of_isNumeral {w rest : Bytes} (hw : IsNumeral w) (hr : Stops rest) :
    ∃ l, Denotes w l ∧ numeral (w ++ rest) = .lexeme l w.length := by
  rcases hw with ⟨ds, hw⟩ | hw
  · exact ⟨_, .hex hw Int64.toInt_ofNat', numeral_hexForm hw hr⟩
  · have hdecimal : w ≠ [] ∧ ∀ b ∈ w, b ≠ 0x78 ∧ b ≠ 0x58 := by
      cases hw with
      | plain hm => exact ⟨hm.ne_nil, notHex_mantissa hm⟩
      | scaled hm he =>
          exact ⟨by simp [hm.ne_nil], List.forall_mem_append.mpr ⟨notHex_mantissa hm, notHex_exponent he⟩⟩
    have hnot : ¬ startsHex (w ++ rest) := by
      rw [startsHex_append (List.length_pos_iff.mpr hdecimal.1) hr]
      exact notHex_of_mem hdecimal.2
    rw [numeral_decimal hnot]
    cases hw with
    | plain hm => exact decimalNumeral_plain hm hr
    | scaled hm he => exact decimalNumeral_scaled hm he hr

/-! What is read is a numeral of the grammar. -/

theorem take_takeWhile (p : UInt8 → Bool) (bs : Bytes) : bs.take (bs.takeWhile p).length = bs.takeWhile p :=
  (List.prefix_iff_eq_take.mp (List.takeWhile_prefix p)).symm

theorem mem_takeWhile {p : UInt8 → Bool} {bs : Bytes} : ∀ b ∈ bs.takeWhile p, p b = true :=
  List.all_eq_true.mp List.all_takeWhile

theorem hexForm_of_hexNumeral {bs : Bytes} {l : Lexeme} {n : Nat} (hs : startsHex bs) (h : hexNumeral bs = .lexeme l n) :
    ∃ ds, HexForm (bs.take n) ds := by
  obtain ⟨r, rfl⟩ := List.head?_eq_some_iff.mp hs.1
  cases r with
  | nil => simp [startsHex] at hs
  | cons x r =>
      have hx : x = 0x78 ∨ x = 0x58 := by simpa using hs.2
      simp only [hexNumeral, List.drop_succ_cons, List.drop_zero, List.isEmpty_iff] at h
      split at h
      · simp [malformed] at h
      · next hne =>
        obtain ⟨rfl, -, -⟩ := endNumeral_eq h
        refine ⟨r.takeWhile isHexDigit, ?_⟩
        rw [List.take_succ_cons, List.take_succ_cons, take_takeWhile]
        exact .mk hx hne mem_takeWhile

theorem mantissa_take {bs : Bytes} (hs : startsNumeral bs = true) : Mantissa (bs.take (mantissaLength bs)) := by
  by_cases hd : bs.takeWhile isDigit = []
  · -- without a digit in front, the numeral starts with its point
    unfold startsNumeral at hs
    split at hs
    · next d r =>
      have hpart : Digits ((d :: r).takeWhile isDigit) := ⟨by simp [hs], mem_takeWhile⟩
      have hlength : mantissaLength (0x2e :: d :: r) = ((d :: r).takeWhile isDigit).length + 1 := by
        simp [mantissaLength, hd, fractionLength]
      rw [hlength, List.take_succ_cons, take_takeWhile]
      exact .fraction hpart
    · simp [hs] at hd
    · cases hs
  · have hdigits : Digits (bs.takeWhile isDigit) := ⟨hd, mem_takeWhile⟩
    rw [mantissaLength, List.take_add, take_takeWhile]
    generalize bs.drop (bs.takeWhile isDigit).length = r
    by_cases hr : ∃ r', r = 0x2e :: r'
    · obtain ⟨r', rfl⟩ := hr
      rw [fractionLength, List.take_succ_cons, take_takeWhile]
      exact .point hdigits mem_takeWhile
    · have hzero : fractionLength r = 0 := by
        unfold fractionLength
        split
        · exact absurd ⟨_, rfl⟩ hr
        · rfl
      rw [hzero, List.take_zero, List.append_nil]
      exact .whole hdigits

theorem exponent_take {bs : Bytes} (hm : exponentMark bs ≠ 0) (hp : (bs.drop (exponentMark bs)).takeWhile isDigit ≠ []) :
    Exponent (bs.take (exponentMark bs + ((bs.drop (exponentMark bs)).takeWhile isDigit).length)) := by
  rw [List.take_add, take_takeWhile]
  have hdigits : Digits ((bs.drop (exponentMark bs)).takeWhile isDigit) := ⟨hp, mem_takeWhile⟩
  generalize (bs.drop (exponentMark bs)).takeWhile isDigit = power at hdigits
  unfold exponentMark at hm ⊢
  split at hm
  · next e r =>
    split at hm
    · next he =>
      rw [if_pos he]
      cases r with
      | nil => exact .mk he (.inl rfl) hdigits
      | cons c r =>
          by_cases hc : c = 0x2b ∨ c = 0x2d
          · have hsign : [c] = [] ∨ [c] = [0x2b] ∨ [c] = [0x2d] := by simpa using hc
            simpa [hc] using Exponent.mk he hsign hdigits
          · simpa [hc] using Exponent.mk he (.inl rfl) hdigits
    · exact absurd rfl hm
  · exact absurd rfl hm

theorem decimalForm_of_decimalNumeral {bs : Bytes} {l : Lexeme} {n : Nat} (hs : startsNumeral bs = true)
    (h : decimalNumeral bs = .lexeme l n) : DecimalForm (bs.take n) := by
  have hm := mantissa_take hs
  rw [decimalNumeral_eq] at h
  dsimp only at h
  split at h
  · obtain ⟨rfl, -, -⟩ := endNumeral_eq h
    exact .plain hm
  · next hmark =>
    split at h
    · simp [malformed] at h
    · next hpower =>
      obtain ⟨rfl, -, -⟩ := endNumeral_eq h
      rw [List.isEmpty_iff, ← List.drop_drop] at hpower
      rw [Nat.add_assoc, List.take_add, ← List.drop_drop]
      exact .scaled hm (exponent_take hmark hpower)

theorem isNumeral_of_numeral {bs : Bytes} {l : Lexeme} {n : Nat} (hs : startsNumeral bs = true)
    (h : numeral bs = .lexeme l n) : IsNumeral (bs.take n) := by
  by_cases hhex : startsHex bs
  · rw [numeral_hex hhex] at h
    exact .inl (hexForm_of_hexNumeral hhex h)
  · rw [numeral_decimal hhex] at h
    exact .inr (decimalForm_of_decimalNumeral hs h)

/-! What is not read is malformed. -/

def Malformed (x : Reading) : Prop := ∃ text length, x = .stop ⟨.malformedNumber text, 0, length⟩

theorem malformed_malformed (bs : Bytes) (n : Nat) : Malformed (malformed bs n) := ⟨_, _, rfl⟩

theorem endNumeral_cases (bs : Bytes) (n : Nat) (value : Bytes → Lexeme) :
    (∃ l m, endNumeral bs n value = .lexeme l m) ∨ Malformed (endNumeral bs n value) := by
  unfold endNumeral
  split
  · exact .inr (malformed_malformed bs n)
  · exact .inl ⟨_, _, rfl⟩

theorem numeral_cases (bs : Bytes) : (∃ l n, numeral bs = .lexeme l n) ∨ Malformed (numeral bs) := by
  by_cases hhex : startsHex bs
  · rw [numeral_hex hhex, hexNumeral]
    split
    · exact .inr (malformed_malformed _ _)
    · apply endNumeral_cases
  · rw [numeral_decimal hhex, decimalNumeral_eq]
    split
    · apply endNumeral_cases
    · dsimp only
      split
      · exact .inr (malformed_malformed _ _)
      · apply endNumeral_cases

theorem startsNumeral_of_digit {input r : Bytes} {d : UInt8} (hd : isDigit d = true)
    (h : input = d :: r ∨ input = 0x2e :: d :: r) : startsNumeral input = true := by
  rcases h with rfl | rfl
  · rw [startsNumeral_cons, hd]
    rintro rfl
    exact absurd hd (by decide)
  · exact hd

/-- A digit or a point is neither a blank nor a dash. -/
theorem startsNumeral_bare {input : Bytes} (h : startsNumeral input = true) : input ≠ [] ∧ Bare input := by
  cases input with
  | nil => cases h
  | cons b r =>
      have hb : continuesNumeral b = true := by
        by_cases hpoint : b = 0x2e
        · simp [continuesNumeral, hpoint]
        · rw [startsNumeral_cons hpoint] at h
          exact continues_of_isDigit h
      refine ⟨by simp, bare_cons ?_ ?_⟩
      · refine Bool.eq_false_iff.mpr fun hspace => ?_
        simp [not_continues_of_isSpace hspace] at hb
      · rintro ⟨rfl, -⟩
        exact absurd hb (by decide)

theorem Splits.numeral_eq {input w rest : Bytes} (h : Splits input w rest) :
    ∃ l, Denotes w l ∧ numeral input = .lexeme l w.length := by
  rw [h.append]
  exact numeral_of_isNumeral h.isNumeral h.stops

theorem splits_unique {input w rest w' rest' : Bytes} (h : Splits input w rest) (h' : Splits input w' rest') :
    w = w' ∧ rest = rest' := by
  obtain ⟨l, -, hl⟩ := h.numeral_eq
  obtain ⟨l', -, hl'⟩ := h'.numeral_eq
  have hlength : w.length = w'.length := (Reading.lexeme.inj (hl.symm.trans hl')).2
  exact List.append_inj (h.append.symm.trans h'.append) hlength

theorem splits_of_numeral {input : Bytes} {l : Lexeme} {n : Nat} (hs : startsNumeral input = true)
    (h : numeral input = .lexeme l n) : Splits input (input.take n) (input.drop n) where
  append := (List.take_append_drop n input).symm
  isNumeral := isNumeral_of_numeral hs h
  stops := (numeral_bounds h).2

end Scan

namespace Scanner

open Scan

theorem takes_of_splits {input w rest : Bytes} (hs : startsNumeral input = true) (h : Splits input w rest) :
    ∃ l, Denotes w l ∧ Takes w rest l := by
  obtain ⟨l, hl, hread⟩ := h.numeral_eq
  obtain ⟨-, hbare⟩ := startsNumeral_bare hs
  have hpos := numeral_length_pos hs hread
  rw [← read_numeral hs] at hread
  rw [h.append] at hbare hread
  exact ⟨l, hl, takes_of_read (List.length_pos_iff.mp hpos) hbare hread⟩

theorem fails_of_not_splits {input : Bytes} (hs : startsNumeral input = true) (h : ¬ ∃ w rest, Splits input w rest) :
    ∃ text, Fails input (.malformedNumber text) := by
  obtain ⟨hne, hbare⟩ := startsNumeral_bare hs
  rcases numeral_cases input with ⟨l, n, hread⟩ | ⟨text, length, hread⟩
  · exact absurd ⟨_, _, splits_of_numeral hs hread⟩ h
  · rw [← read_numeral hs] at hread
    exact ⟨text, fails_of_read hne hbare hread⟩

/-- What starts like a numeral is taken as the one numeral that stands there, or it is malformed. -/
theorem scan_numeral {input : Bytes} (h : ∃ d r, isDigit d = true ∧ (input = d :: r ∨ input = 0x2e :: d :: r)) :
    (∀ w rest, Splits input w rest → ∃ l, Denotes w l ∧ Takes w rest l) ∧
      (∀ w rest w' rest', Splits input w rest → Splits input w' rest' → w = w' ∧ rest = rest') ∧
      (∀ pos ahead failure,
        isNumber (scan ⟨⟨input, pos⟩, ahead, failure⟩).1.lexeme = true ↔ ∃ w rest, Splits input w rest) ∧
      ((¬ ∃ w rest, Splits input w rest) →
        ∃ text, Fails input (.malformedNumber text) ∧
          ScanFault.message (.malformedNumber text) = utf8 "malformed number near '" ++ text ++ utf8 "'") := by
  obtain ⟨d, r, hd, hinput⟩ := h
  have hs := startsNumeral_of_digit hd hinput
  refine ⟨fun w rest hw => takes_of_splits hs hw, fun w rest w' rest' hw hw' => splits_unique hw hw', ?_, ?_⟩
  · intro pos ahead failure
    constructor
    · intro hnumber
      refine Classical.byContradiction fun hnot => ?_
      obtain ⟨text, hfails⟩ := fails_of_not_splits hs hnot
      rw [hfails pos ahead failure] at hnumber
      cases hnumber
    · rintro ⟨w, rest, hw⟩
      obtain ⟨l, hl, htakes⟩ := takes_of_splits hs hw
      rw [hw.append, htakes pos ahead failure]
      cases hl <;> rfl
  · intro hnot
    obtain ⟨text, hfails⟩ := fails_of_not_splits hs hnot
    exact ⟨text, hfails, rfl⟩

/-- A hexadecimal numeral of more than 64 bits, and points that continue a numeral. -/
theorem scan_numeral_wraps :
    let w := utf8 "0xfffffffffffffffffe"
    let rest := utf8 "+1"
    (∃ d r, isDigit d = true ∧ (w ++ rest = d :: r ∨ w ++ rest = 0x2e :: d :: r)) ∧ Splits (w ++ rest) w rest ∧
      Denotes w (.integer w (-2)) ∧ Takes w rest (.integer w (-2)) ∧
      (∃ d r, isDigit d = true ∧ (utf8 "3..2" = d :: r ∨ utf8 "3..2" = 0x2e :: d :: r)) ∧
      ∃ text, Fails (utf8 "3..2") (.malformedNumber text) := by
  intro w rest
  have hdigit : ∃ d r, isDigit d = true ∧ (w ++ rest = d :: r ∨ w ++ rest = 0x2e :: d :: r) :=
    ⟨0x30, _, rfl, .inl rfl⟩
  have hsplits : Splits (w ++ rest) w rest := by
    refine ⟨rfl, .inl ⟨utf8 "fffffffffffffffffe", .mk (.inl rfl) (by decide) (List.all_eq_true.mp (by decide))⟩, ?_⟩
    intro b hb
    cases hb
    rfl
  obtain ⟨l, hl, htakes⟩ := (scan_numeral hdigit).1 w rest hsplits
  have hvalue : l = .integer w (-2) := by
    have hscan := congrArg (fun x => x.1.lexeme) (htakes .start none none)
    exact hscan.symm.trans (by decide +kernel)
  rw [hvalue] at hl htakes
  have hdigit' : ∃ d r, isDigit d = true ∧ (utf8 "3..2" = d :: r ∨ utf8 "3..2" = 0x2e :: d :: r) :=
    ⟨0x33, _, rfl, .inl rfl⟩
  refine ⟨hdigit, hsplits, hl, htakes, hdigit', ?_⟩
  have hnot : ¬ ∃ w rest, Splits (utf8 "3..2") w rest := by
    rw [← (scan_numeral hdigit').2.2.1 .start none none]
    decide +kernel
  obtain ⟨text, hfails, -⟩ := (scan_numeral hdigit').2.2.2 hnot
  exact ⟨text, hfails⟩

end Scanner

end MiniLua

import MiniLua.Proofs.Text.Utf8
import MiniLua.Text.Quoted

/-!
Printed texts: UTF-8 in which every character can be printed. No character of a printed text ends a line. Quoted text is
printed, whatever the bytes, and so are numbers.
-/

namespace MiniLua.Text

def Rune.isPrinted : Rune → Bool
  | .scalar code => isPrintable code
  | .stray _ => false

def isPrinted (bs : Bytes) : Bool := (runes bs).all Rune.isPrinted

/-- The line feed, the vertical tab, the form feed, the carriage return, U+0085, and the separators of lines and
paragraphs. -/
def lineBreaks : List Nat := [0x0a, 0x0b, 0x0c, 0x0d, 0x85, 0x2028, 0x2029]

def Rune.isLineBreak : Rune → Bool
  | .scalar code => lineBreaks.contains code
  | .stray _ => false

/-- No character ends a line. -/
def isOneLine (bs : Bytes) : Bool := (runes bs).all (!·.isLineBreak)

theorem newline_notMem_of_isOneLine {bs : Bytes} (h : isOneLine bs) : newline ∉ bs := by
  intro hmem
  have hbreak := List.all_eq_true.mp h _ (scalar_mem_runes (by decide) hmem)
  exact absurd hbreak (by decide)

theorem Rune.not_isLineBreak {r : Rune} (h : r.isPrinted = true) : r.isLineBreak = false := by
  have hbreaks : lineBreaks.all (!isPrintable ·) = true := by decide +kernel
  cases r with
  | stray b => rfl
  | scalar code =>
      apply Bool.eq_false_iff.mpr
      intro hbreak
      have hnot := List.all_eq_true.mp hbreaks code (List.contains_iff_mem.mp hbreak)
      rw [show isPrintable code = true from h] at hnot
      cases hnot

theorem isOneLine_of_isPrinted {bs : Bytes} (h : isPrinted bs) : isOneLine bs := by
  refine List.all_eq_true.mpr fun r hr => ?_
  rw [Rune.not_isLineBreak (List.all_eq_true.mp h r hr)]
  rfl

theorem isUtf8_of_isPrinted {bs : Bytes} (h : isPrinted bs) : isUtf8 bs := by
  refine List.all_eq_true.mpr fun r hr => ?_
  cases r with
  | scalar code => rfl
  | stray b => exact List.all_eq_true.mp h _ hr

theorem isPrinted_nil : isPrinted [] = true := by
  rw [isPrinted, runes_nil]
  rfl

theorem isPrinted_append {as bs : Bytes} (ha : isPrinted as) (hb : isPrinted bs) : isPrinted (as ++ bs) := by
  rw [isPrinted, runes_append (isUtf8_of_isPrinted ha), List.all_append, Bool.and_eq_true]
  exact ⟨ha, hb⟩

theorem isPrinted_flatMap {α : Type} {f : α → Bytes} {xs : List α} (h : ∀ x ∈ xs, isPrinted (f x)) :
    isPrinted (xs.flatMap f) := by
  induction xs with
  | nil => exact isPrinted_nil
  | cons x xs ih =>
      obtain ⟨hx, hxs⟩ := List.forall_mem_cons.mp h
      rw [List.flatMap_cons]
      exact isPrinted_append hx (ih hxs)

theorem isPrinted_joinWith {sep : Bytes} (hsep : isPrinted sep) {parts : List Bytes} (h : ∀ bs ∈ parts, isPrinted bs) :
    isPrinted (joinWith sep parts) := by
  induction parts with
  | nil => exact isPrinted_nil
  | cons bs parts ih =>
      obtain ⟨hbs, hparts⟩ := List.forall_mem_cons.mp h
      cases parts with
      | nil => simpa [joinWith] using hbs
      | cons bs' parts =>
          rw [joinWith, List.intercalate_cons_cons]
          exact isPrinted_append (isPrinted_append hbs hsep) (ih hparts)

/-- Surrogates cannot be printed. -/
theorem lt_of_isPrintable {code : Nat} (h : isPrintable code) : code < 0xd800 ∨ 0xdfff < code ∧ code < 0x110000 := by
  have hranges : printableRanges.all (fun r => r.2 < 0xd800 || (0xdfff < r.1 && r.2 < 0x110000)) = true := by
    decide +kernel
  unfold isPrintable at h
  split at h
  · omega
  · obtain ⟨r, hr, hin⟩ := List.any_eq_true.mp h
    have hrange := List.all_eq_true.mp hranges r hr
    simp only [Bool.and_eq_true, Bool.or_eq_true, decide_eq_true_eq] at hin hrange
    omega

theorem isPrinted_encodeScalar {code : Nat} (h : isPrintable code) : isPrinted (encodeScalar code) := by
  have hruns := runes_encoding (encodes_encodeScalar (lt_of_isPrintable h)) []
  rw [List.append_nil, runes_nil] at hruns
  rw [isPrinted, hruns, List.all_cons, List.all_nil, Bool.and_true]
  exact h

/-- A blank, or a sign of ASCII that can be seen. -/
def isVisible (b : UInt8) : Bool := 0x20 ≤ b && b ≤ 0x7e

def isPlain (bs : Bytes) : Bool := bs.all isVisible

theorem isPrinted_of_isPlain {bs : Bytes} (h : isPlain bs) : isPrinted bs := by
  induction bs with
  | nil => exact isPrinted_nil
  | cons b r ih =>
      rw [isPlain, List.all_cons, Bool.and_eq_true] at h
      have hb : 0x20 ≤ b.toNat ∧ b.toNat ≤ 0x7e := by
        simpa [isVisible, UInt8.le_iff_toNat_le] using h.1
      have hascii : b < 0x80 := UInt8.lt_iff_toNat_lt.mpr (show b.toNat < 0x80 by omega)
      rw [isPrinted, runes_ascii hascii, List.all_cons, Bool.and_eq_true]
      refine ⟨?_, ih h.2⟩
      simp only [Rune.isPrinted, isPrintable, show b.toNat ≤ 0xa0 by omega, if_true, hb.1, hb.2, decide_true,
        Bool.and_self]

@[simp] theorem isPlain_nil : isPlain [] = true := rfl

@[simp] theorem isPlain_cons (b : UInt8) (bs : Bytes) : isPlain (b :: bs) = (isVisible b && isPlain bs) := rfl

@[simp] theorem isPlain_append (as bs : Bytes) : isPlain (as ++ bs) = (isPlain as && isPlain bs) := List.all_append

theorem isPlain_flatMap {α : Type} {f : α → Bytes} {xs : List α} (h : ∀ x ∈ xs, isPlain (f x)) : isPlain (xs.flatMap f) :=
  List.all_flatMap.trans (List.all_eq_true.mpr h)

theorem isPlain_of_subset {as bs : Bytes} (h : as ⊆ bs) (hb : isPlain bs) : isPlain as :=
  List.all_eq_true.mpr fun b hm => List.all_eq_true.mp hb b (h hm)

theorem isPlain_replicate {b : UInt8} (h : isVisible b) (n : Nat) : isPlain (List.replicate n b) := by
  refine List.all_eq_true.mpr fun b' hm => ?_
  rw [List.eq_of_mem_replicate hm]
  exact h

theorem isPlain_padLeft {fill : UInt8} (hfill : isVisible fill) (width : Nat) {bs : Bytes} (h : isPlain bs) :
    isPlain (padLeft fill width bs) := by
  rw [padLeft, isPlain_append, isPlain_replicate hfill, h]
  rfl

theorem isPlain_padRight (width : Nat) {bs : Bytes} (h : isPlain bs) : isPlain (padRight width bs) := by
  rw [padRight, isPlain_append, isPlain_replicate (by decide), h]
  rfl

theorem isVisible_of_isNameByte {b : UInt8} (h : isNameByte b) : isVisible b := by
  simp only [isNameByte, isLetter, isDigit, Bool.or_eq_true, Bool.and_eq_true, decide_eq_true_eq, beq_iff_eq] at h
  simp only [isVisible, Bool.and_eq_true, decide_eq_true_eq]
  grind

theorem isVisible_hexDigit {n : Nat} (h : n < 16) : isVisible (hexDigit n) := by
  have hall : ∀ d : Fin 16, isVisible (hexDigit d) = true := by decide
  exact hall ⟨n, h⟩

theorem isPlain_positional {base : Nat} (hlow : 2 ≤ base) (hhigh : base ≤ 16) (n : Nat) :
    isPlain (positional base n) := by
  induction n using Nat.strongRecOn with
  | ind n ih =>
      rw [positional]
      split
      · next h => simp [isVisible_hexDigit (show n < 16 by omega)]
      · have hdigit : n % base < 16 := Nat.lt_of_lt_of_le (Nat.mod_lt n (by omega)) hhigh
        simp [ih _ (Nat.div_lt_self (by omega) hlow), isVisible_hexDigit hdigit]

@[simp] theorem isPlain_decimal (n : Nat) : isPlain (decimal n) = true := isPlain_positional (by decide) (by decide) n

@[simp] theorem isPlain_integer (x : Int) : isPlain (integer x) = true := by
  cases x with
  | ofNat n => exact isPlain_decimal n
  | negSucc n => simp +decide [integer]

@[simp] theorem isPlain_hexByte (b : UInt8) : isPlain (hexByte b) = true := by
  have hb := b.toNat_lt
  have hhigh : b.toNat / 16 < 16 := by omega
  have hlow : b.toNat % 16 < 16 := by omega
  simp [hexByte, isVisible_hexDigit hhigh, isVisible_hexDigit hlow]

theorem isVisible_upperByte {b : UInt8} (h : isVisible b) : isVisible (upperByte b) := by
  unfold upperByte
  split
  · next hlower =>
    simp only [isVisible, Bool.and_eq_true, decide_eq_true_eq] at hlower ⊢
    grind
  · exact h

theorem isPlain_upper {bs : Bytes} (h : isPlain bs) : isPlain (bs.map upperByte) := by
  induction bs with
  | nil => rfl
  | cons b r ih =>
      rw [isPlain_cons, Bool.and_eq_true] at h
      rw [List.map_cons, isPlain_cons, isVisible_upperByte h.1, ih h.2]
      rfl

@[simp] theorem isPlain_hexWidth (width n : Nat) : isPlain (hexWidth width n) = true :=
  isPlain_padLeft (by decide) width (isPlain_positional (by decide) (by decide) n)

theorem isPlain_shortEscape {code : Nat} {c : Char} (h : shortEscape code = some c) : isPlain (encodeScalar c.toNat) := by
  simp only [shortEscape, List.lookup_cons, List.lookup_nil] at h
  repeat' split at h
  all_goals cases h
  all_goals decide

/-- A rune is quoted in characters that can be printed. -/
theorem isPrinted_quoteRune (r : Rune) : isPrinted (quoteRune r) := by
  have hmark {code : Nat} (h : code = 0x22 ∨ code = 0x5c) : isPlain (backslash :: encodeScalar code) := by
    rcases h with rfl | rfl <;> decide
  cases r with
  | stray b => exact isPrinted_of_isPlain (by simp +decide [quoteRune])
  | scalar code =>
      rw [quoteRune]
      split
      · exact isPrinted_of_isPlain (hmark ‹_›)
      · split
        · exact isPrinted_encodeScalar ‹_›
        · split
          · next hshort => exact isPrinted_of_isPlain (by simp +decide [isPlain_shortEscape hshort])
          · repeat' split
            all_goals exact isPrinted_of_isPlain (by simp +decide)

theorem isPrinted_quote (bs : Bytes) : isPrinted (quote bs) := by
  have hmark : isPrinted [doubleQuote] := isPrinted_of_isPlain (by decide)
  exact isPrinted_append (isPrinted_append hmark (isPrinted_flatMap fun r _ => isPrinted_quoteRune r)) hmark

end MiniLua.Text

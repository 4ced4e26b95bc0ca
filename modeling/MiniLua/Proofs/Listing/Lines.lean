import MiniLua.Listing
import MiniLua.Proofs.Compile.Extent
import MiniLua.Proofs.Compile.Visits
import MiniLua.Proofs.Scan.Words
import MiniLua.Proofs.Text.Lines
import MiniLua.Proofs.Text.Printed

/-!
Listings line by line. Every line but that of the name is a printed text, so that no constant, whatever its bytes, can
add a line or break one; and a long constant is cut between two characters.
-/

namespace MiniLua

open Text

namespace Binary64

theorem isPlain_placePoint {digits : Bytes} (h : isPlain digits) (n : Int) :
    isPlain (placePoint n digits).1 ∧ isPlain (placePoint n digits).2 := by
  have hzeros (k : Nat) : isPlain (List.replicate k 0x30) := isPlain_replicate (by decide) k
  unfold placePoint
  split
  · exact ⟨rfl, by simp [hzeros, h]⟩
  · have htake := isPlain_of_subset (List.take_subset n.toNat digits) h
    have hdrop := isPlain_of_subset (List.drop_subset n.toNat digits) h
    exact ⟨by simp [hzeros, htake], hdrop⟩

theorem isPlain_writeExponent (e : Int) : isPlain (writeExponent e) := by
  have hdigits : isPlain (padLeft 0x30 2 (decimal e.natAbs)) := isPlain_padLeft (by decide) 2 (isPlain_decimal _)
  unfold writeExponent
  split <;> simp +decide [hdigits]

namespace Style

variable (s : Style)

theorem isPlain_decimalForm {whole part : Bytes} (hwhole : isPlain whole) (hpart : isPlain part) :
    isPlain (s.decimalForm whole part) := by
  unfold decimalForm
  repeat' split
  all_goals simp +decide [hwhole, hpart]

theorem isPlain_magnitude (d : Decimal) : isPlain (s.magnitude d) := by
  have hpoint := isPlain_placePoint (isPlain_decimal d.digits)
  unfold magnitude
  split
  · dsimp only
    split
    all_goals simp +decide [hpoint, isPlain_writeExponent]
  · exact s.isPlain_decimalForm (hpoint _).1 (hpoint _).2

end Style

theorem isPlain_write (x : Binary64) : isPlain (x.write Value.floatStyle) := by
  have hsign : isPlain (if x.isNegative then [0x2d] else []) := by split <;> decide
  unfold write
  split
  · decide
  · split
    · split <;> decide
    · dsimp only
      split
      · simp +decide [hsign]
      · simp [hsign, Style.isPlain_magnitude]

end Binary64

/-- All values but strings are shown in ASCII. -/
theorem Value.isPlain_display {v : Value} (h : v.isString = false) : isPlain v.display := by
  cases v with
  | nil => decide
  | bool b => cases b <;> decide
  | int i => exact isPlain_integer _
  | float x => exact x.isPlain_write
  | str s => cases h
  | table id | native id => simp +decide [display, address, isPlain_positional]

theorem Opcode.isPlain_mnemonic (o : Opcode) : isPlain (utf8 o.mnemonic) := by cases o <;> decide

namespace Instruction

theorem isPlain_opName (op : UInt8) : isPlain (opName op) := by
  rw [opName]
  cases Opcode.ofCode? op with
  | some o => exact o.isPlain_mnemonic
  | none => simp +decide [isPlain_upper]

theorem isPlain_text (i : Instruction) : isPlain i.text := by
  have hname : isPlain (padRight 16 (opName i.op)) := isPlain_padRight 16 (isPlain_opName i.op)
  have hshown : isPlain (i.shownOperands.flatMap fun p => space :: decimal p.2.toNat) :=
    isPlain_flatMap fun p _ => by simp +decide
  have hint : isPlain (if i.hasInt then space :: integer i.int.toInt else []) := by split <;> simp +decide
  have hsubset (bs : Bytes) : trimRight (· == space) bs ⊆ bs := fun b hb =>
    List.mem_reverse.mp ((List.dropWhile_subset _) (List.mem_reverse.mp hb))
  exact isPlain_of_subset (hsubset _) (by simp [hname, hshown, hint])

end Instruction

namespace Listing

theorem cutBefore_le (bs : Bytes) (n : Nat) : cutBefore bs n ≤ n := by
  induction n with
  | zero => exact Nat.le_refl 0
  | succ n ih =>
      rw [cutBefore]
      split
      · exact Nat.le_succ_of_le ih
      · exact Nat.le_refl _

/-- The cut is not before any byte that starts a character. -/
theorem le_cutBefore {bs : Bytes} {n k : Nat} {b : UInt8} (hk : k ≤ n) (hb : bs[k]? = some b)
    (hlead : isContinuation b = false) : k ≤ cutBefore bs n := by
  induction n with
  | zero => exact hk
  | succ n ih =>
      rw [cutBefore]
      split
      · next hcont =>
        rcases Nat.le_succ_iff.mp hk with hk | rfl
        · exact ih hk
        · rw [hb] at hcont
          cases hlead.symm.trans hcont
      · exact hk

theorem cutBefore_lead (bs : Bytes) (n : Nat) :
    cutBefore bs n = 0 ∨ ∀ b, bs[cutBefore bs n]? = some b → isContinuation b = false := by
  induction n with
  | zero => exact .inl rfl
  | succ n ih =>
      rw [cutBefore]
      split
      · exact ih
      · next hlead =>
        refine .inr fun b hb => ?_
        rw [hb] at hlead
        exact Bool.eq_false_iff.mpr hlead

/-- A text is cut between two characters. -/
theorem isUtf8_take_cutBefore {bs : Bytes} (h : isUtf8 bs) (n : Nat) : isUtf8 (bs.take (cutBefore bs n)) := by
  rcases cutBefore_lead bs n with hzero | hlead
  · rw [hzero]
    exact isUtf8_nil
  · by_cases hlt : cutBefore bs n < bs.length
    · have hb := List.getElem?_eq_getElem hlt
      rw [← List.take_append_drop (cutBefore bs n) bs, List.drop_eq_getElem_cons hlt] at h
      exact isUtf8_of_append_cons (hlead _ hb) h
    · rw [List.take_of_length_le (Nat.le_of_not_lt hlt)]
      exact h

/-- A long text is shown by a beginning of 34 to 37 bytes, since no character has more than four. -/
theorem abridge_text {bs : Bytes} (h : isUtf8 bs) (hlong : 40 < bs.length) :
    ∃ p, p <+: bs ∧ 34 ≤ p.length ∧ p.length ≤ 37 ∧ isUtf8 p ∧ abridge bs = p ++ utf8 "..." := by
  obtain ⟨k, b, hk, hnear, hb, hlead⟩ := exists_lead h (show 37 < bs.length by omega)
  have hlow := le_cutBefore hk hb hlead
  have hhigh := cutBefore_le bs 37
  refine ⟨bs.take (cutBefore bs 37), List.take_prefix .., ?_, ?_, isUtf8_take_cutBefore h 37, if_pos hlong⟩
  all_goals
    rw [List.length_take]
    omega

theorem constant_eq_display {v : Value} (h : v.isString = false) : constant v = v.display := by
  cases v with
  | str s => cases h
  | _ => rfl

theorem isPrinted_constant (v : Value) : isPrinted (constant v) := by
  by_cases hv : v.isString = false
  · rw [constant_eq_display hv]
    exact isPrinted_of_isPlain (Value.isPlain_display hv)
  · cases v with
    | str s => exact isPrinted_quote _
    | _ => exact absurd rfl hv

theorem isPrinted_note {c : Chunk} {p : OperandKind × UInt8} {bs : Bytes} (h : note c p = some bs) :
    isPrinted bs := by
  unfold note at h
  split at h
  · split at h
    · cases h
      exact isPrinted_constant _
    · cases h
      exact isPrinted_of_isPlain (by simp +decide)
  · cases h

theorem isPrinted_notes (c : Chunk) (i : Instruction) : isPrinted (notes c i) := by
  refine isPrinted_joinWith (isPrinted_of_isPlain (by decide)) fun bs hbs => ?_
  obtain ⟨p, -, hp⟩ := List.mem_filterMap.mp hbs
  exact isPrinted_note hp

theorem isPrinted_constantLine (index : Nat) (v : Value) : isPrinted (constantLine index v) := by
  have hindex : isPlain (padLeft space 3 (decimal index)) := isPlain_padLeft (by decide) 3 (isPlain_decimal index)
  exact isPrinted_append (isPrinted_of_isPlain (by simp +decide [hindex])) (isPrinted_constant v)

theorem isPrinted_localLine {l : LocalInfo} (h : isPlain l.name) : isPrinted (localLine l) := by
  have hname : isPlain (padRight 12 l.name) := isPlain_padRight 12 h
  exact isPrinted_of_isPlain (by simp +decide [localLine, writePlace, hname])

theorem isPrinted_codeLine (c : Chunk) (index : Nat) (i : Instruction) : isPrinted (codeLine c index i) := by
  have hindex : isPlain (padLeft 0x30 4 (decimal index)) := isPlain_padLeft (by decide) 4 (isPlain_decimal index)
  have hstart : isPrinted (padLeft 0x30 4 (decimal index) ++ utf8 "  ") :=
    isPrinted_of_isPlain (by simp +decide [hindex])
  have htext := i.isPlain_text
  have hpadded : isPlain (padRight 30 i.text) := isPlain_padRight 30 htext
  refine isPrinted_append hstart ?_
  split
  · exact isPrinted_of_isPlain htext
  · exact isPrinted_append (isPrinted_of_isPlain (by simp +decide [hpadded])) (isPrinted_notes c i)

def title (name : Bytes) : Bytes := utf8 "; === " ++ name ++ utf8 " ==="

theorem isPrinted_of_mem_numbered {α : Type} {line : Nat → α → Bytes} {xs : Array α} {bs : Bytes}
    (h : ∀ i x, isPrinted (line i x)) (hbs : bs ∈ numbered line xs) : isPrinted bs := by
  obtain ⟨p, -, rfl⟩ := List.mem_map.mp hbs
  exact h p.2 p.1

/-- All lines but that of the name are printed. -/
theorem isPrinted_of_mem_lines {c : Chunk} {line : Bytes} (h : ∀ l ∈ c.locals, isPlain l.name)
    (hline : line ∈ lines c) : line = title c.name ∨ isPrinted line := by
  simp only [lines, List.mem_append, List.mem_cons] at hline
  rcases hline with ((hname | rfl | hconstant) | hlocal) | rfl | hcode
  · split at hname
    · cases hname
    · exact .inl (List.mem_singleton.mp hname)
  · exact .inr (isPrinted_of_isPlain (by simp +decide))
  · exact .inr (isPrinted_of_mem_numbered isPrinted_constantLine hconstant)
  · split at hlocal
    · cases hlocal
    · rcases List.mem_cons.mp hlocal with rfl | hlocal
      · exact .inr (isPrinted_of_isPlain (by decide))
      · obtain ⟨l, hl, rfl⟩ := List.mem_map.mp hlocal
        exact .inr (isPrinted_localLine (h l (Array.mem_toList_iff.mp hl)))
  · exact .inr (isPrinted_of_isPlain (by decide))
  · exact .inr (isPrinted_of_mem_numbered (isPrinted_codeLine c) hcode)

theorem newline_notMem_title {name : Bytes} (h : newline ∉ name) : newline ∉ title name := by
  have hopening : newline ∉ utf8 "; === " := by decide
  have hclosing : newline ∉ utf8 " ===" := by decide
  simp [title, h, hopening, hclosing]

theorem isOneLine_title {name : Bytes} (h : isOneLine name) : isOneLine (title name) := by
  have hopening : isPrinted (utf8 "; === ") := isPrinted_of_isPlain (by decide)
  have hclosing : isPrinted (utf8 " ===") := isPrinted_of_isPlain (by decide)
  -- The name need not be a text, but the blank behind it starts a new character.
  have hruns : runes (title name) = runes (utf8 "; === ") ++ runes name ++ runes (utf8 " ===") := by
    rw [title, show utf8 " ===" = space :: utf8 "===" by decide, runes_append_cons (by decide),
      runes_append (isUtf8_of_isPrinted hopening)]
  rw [isOneLine, hruns, List.all_append, List.all_append, Bool.and_eq_true, Bool.and_eq_true]
  exact ⟨⟨isOneLine_of_isPrinted hopening, h⟩, isOneLine_of_isPrinted hclosing⟩

end Listing

/-- The locals of a compiled program are named by name tokens. -/
theorem Chunk.isPlain_localName {source name : Bytes} {c : Chunk} (h : Chunk.compile source name = .ok c) :
    ∀ l ∈ c.locals, isPlain l.name := by
  intro l hl
  have hnames := mentions_of_compile h
  obtain ⟨hwhole, g, hrun, rfl⟩ := Chunk.compile_ok h
  obtain ⟨st, hst, d, hd, i, rfl⟩ :=
    (Gen.block_declared hwhole (Gen.clear_start name) hrun hl).resolve_left (by simp)
  have hmention : d ∈ (Block.ofTokens (Scanner.ofSource source none).tokens.1).mentions.map Mention.name := by
    rw [Block.mentions, List.map_flatMap]
    exact List.mem_flatMap.mpr ⟨st, hst, Stat.mem_names_of_declared hd⟩
  rw [hnames] at hmention
  obtain ⟨t, ht, hname⟩ := List.mem_filterMap.mp hmention
  have hstart : Scan.Apart (source.take 0) (source.drop 0) := .inl fun b hb => by cases hb
  obtain ⟨-, hword⟩ := (Scanner.ofSource_reads source).word hstart ht (Token.of_name? hname).1
  exact List.all_eq_true.mpr fun b hb => isVisible_of_isNameByte (hword.isName b hb)

namespace Listing

/-- Constants do not break the listing. A string is shown on one line of UTF-8, whatever its bytes, and a text that is
longer than forty bytes by a beginning of whole characters and three dots. So in the listing of a program whose name has
no newline each constant, local and instruction has its line, behind the lines that head them; and no line has a line
break of another kind, unless the name has one. -/
theorem constants_keep_lines :
    (∀ s : Bytes, isUtf8 (constant (.ofBytes s)) ∧ isOneLine (constant (.ofBytes s))) ∧
    (∀ s : Bytes, isUtf8 s → 40 < s.length →
      ∃ p, p <+: s ∧ 34 ≤ p.length ∧ p.length ≤ 37 ∧ isUtf8 p ∧ constant (.ofBytes s) = quote (p ++ utf8 "...")) ∧
    ∀ (source name : Bytes) (c : Chunk), Chunk.compile source name = .ok c →
      let titles := if name.isEmpty then [] else [utf8 "; === " ++ name ++ utf8 " ==="]
      let constants :=
        (utf8 "; Constants (" ++ decimal c.constants.size ++ utf8 "):") :: numbered constantLine c.constants
      let locals := if c.locals.isEmpty then [] else utf8 "; Locals:" :: c.locals.toList.map localLine
      let code := utf8 "; Code:" :: numbered (codeLine c) c.code
      let all := titles ++ constants ++ locals ++ code
      (newline ∉ name → splitAtByte newline c.listing = all ++ [[]]) ∧
        (isOneLine name → ∀ line ∈ all, isOneLine line) := by
  refine ⟨fun s => ?_, fun s hs hlong => ?_, fun source name c h => ?_⟩
  · have hprinted := isPrinted_constant (.ofBytes s)
    exact ⟨isUtf8_of_isPrinted hprinted, isOneLine_of_isPrinted hprinted⟩
  · obtain ⟨p, hp, hlow, hhigh, htext, habridge⟩ := abridge_text hs hlong
    refine ⟨p, hp, hlow, hhigh, htext, ?_⟩
    rw [Value.ofBytes, constant, Str.bytes_ofBytes, habridge]
  · intro titles constants locals code all
    obtain ⟨rfl, -⟩ := Chunk.compile_fits h
    have hall : all = lines c := rfl
    have hprinted {line : Bytes} (hline : line ∈ lines c) : line = title c.name ∨ isPrinted line :=
      isPrinted_of_mem_lines (Chunk.isPlain_localName h) hline
    rw [hall]
    refine ⟨fun hname => splitAtByte_flatMap fun line hline => ?_, fun hname line hline => ?_⟩
    · rcases hprinted hline with rfl | hline
      · exact newline_notMem_title hname
      · exact newline_notMem_of_isOneLine (isOneLine_of_isPrinted hline)
    · rcases hprinted hline with rfl | hline
      · exact isOneLine_title hname
      · exact isOneLine_of_isPrinted hline

/-- A long text with a character of four bytes where it is cut, and a program with a string of two lines. -/
theorem constants_keep_lines_broken :
    let s := utf8 "abcdefghijklmnopqrstuvwxyz01234567😀bcdefg"
    let name := utf8 "ß.lua"
    let c : Chunk := {
      name
      constants := #[.ofBytes (utf8 "a\nb")]
      code := #[{ op := 3 }]
      locals := #[⟨utf8 "two", 0, 1, 7⟩] }
    isUtf8 s = true ∧ 40 < s.length ∧
      (∃ p, p <+: s ∧ 34 ≤ p.length ∧ p.length ≤ 37 ∧ isUtf8 p ∧ constant (.ofBytes s) = quote (p ++ utf8 "...")) ∧
      Chunk.compile (utf8 "local two = 'a\\nb'") name = .ok c ∧ newline ∉ name ∧
      splitAtByte newline c.listing = [
        utf8 "; === ß.lua ===",
        utf8 "; Constants (1):",
        utf8 ";   [  0] \"a\\nb\"",
        utf8 "; Locals:",
        utf8 ";   two          slot=0 line 1:7",
        utf8 "; Code:",
        utf8 "0000  LOADCONST        0 0           ; \"a\\nb\"",
        []] := by
  intro s name c
  have htext : isUtf8 s = true := by decide +kernel
  have hlong : 40 < s.length := by decide +kernel
  have hname : newline ∉ name := by decide
  have hcompile : Chunk.compile (utf8 "local two = 'a\\nb'") name = .ok c :=
    Wire.eq_ok_of_toOption (by decide +kernel)
  obtain ⟨-, hcut, hlisting⟩ := constants_keep_lines
  refine ⟨htext, hlong, hcut s htext hlong, hcompile, hname, ?_⟩
  exact ((hlisting _ name c hcompile).1 hname).trans (by decide +kernel)

end Listing

end MiniLua

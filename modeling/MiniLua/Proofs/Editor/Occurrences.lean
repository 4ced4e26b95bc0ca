import MiniLua.Editor.Analysis
import MiniLua.Editor.Word
import MiniLua.Proofs.Scan.Words
import MiniLua.Proofs.Text.Lines

/-!
Where a name stands in a text. The scanner and the search for the word around a place agree: the ranges of a name are
where its bytes stand, and the name is the word at each of their places.
-/

namespace MiniLua.Editor

open Text Scan

/-- Every place in a text can be counted with 32 bits. -/
def Addressable (text : Bytes) : Prop :=
  (splitAtByte newline text).length ≤ UInt32.size ∧ ∀ line ∈ splitAtByte newline text, line.length < UInt32.size

theorem takeWhile_noNameFirst {bs : Bytes} (h : NoNameFirst bs) : bs.takeWhile isNameByte = [] := by
  cases bs with
  | nil => rfl
  | cons b r => exact List.takeWhile_cons_of_neg (by simp [h b rfl])

section

variable {left w right : Bytes} {j : Nat}

theorem leftPart_eq (hleft : NoNameLast left) (hw : ∀ b ∈ w, isNameByte b = true) (hj : j ≤ w.length) :
    leftPart (left ++ (w ++ right)) (left.length + j) = w.take j := by
  have hrest : left.reverse.takeWhile isNameByte = [] := by
    apply takeWhile_noNameFirst
    intro b hb
    rw [List.head?_reverse] at hb
    exact hleft b hb
  have hname : ∀ b ∈ (w.take j).reverse, isNameByte b = true :=
    fun b hb => hw b (List.mem_of_mem_take (List.mem_reverse.mp hb))
  rw [leftPart, List.take_length_add_append, List.take_append_of_le_length hj, List.reverse_append,
    List.takeWhile_append_of_pos hname, hrest, List.append_nil, List.reverse_reverse]

theorem rightPart_eq (hw : ∀ b ∈ w, isNameByte b = true) (hright : NoNameFirst right) (hj : j ≤ w.length) :
    rightPart (left ++ (w ++ right)) (left.length + j) = w.drop j := by
  have hname : ∀ b ∈ w.drop j, isNameByte b = true := fun b hb => hw b (List.mem_of_mem_drop hb)
  rw [rightPart, List.drop_length_add_append, List.drop_append_of_le_length hj, List.takeWhile_append_of_pos hname,
    takeWhile_noNameFirst hright, List.append_nil]

theorem wordAt_eq {text : Bytes} {p : Place} (hline : line? text p = some (left ++ (w ++ right)))
    (hleft : NoNameLast left) (hw : ∀ b ∈ w, isNameByte b = true) (hright : NoNameFirst right)
    (hstart : left.length ≤ p.character.toNat) (hstop : p.character.toNat ≤ left.length + w.length) :
    wordAt text p = w := by
  obtain ⟨j, hj⟩ := Nat.exists_eq_add_of_le hstart
  rw [wordAt, hline]
  dsimp only
  rw [hj, leftPart_eq hleft hw (by omega), rightPart_eq hw hright (by omega), List.take_append_drop]

end

theorem toNat_ofInt_sub_one {n : Nat} (hn : 0 < n) : (UInt32.ofInt (n - 1)).toNat = (n - 1) % UInt32.size := by
  obtain ⟨m, rfl⟩ : ∃ m, n = m + 1 := ⟨n - 1, by omega⟩
  have hcast : ((m + 1 : Nat) : Int) - 1 = m := by omega
  rw [hcast]
  simp only [UInt32.ofInt, UInt32.toNat_ofNat', UInt32.size, Nat.add_sub_cancel]
  omega

/-- A range counts from zero, modulo the number of places that there are. -/
theorem ofPosition_toNat {p : Position} (hline : 0 < p.line) (hcolumn : 0 < p.column) (length : Nat) :
    let r := Range.ofPosition p.line p.column length
    r.start.line.toNat = (p.line - 1) % UInt32.size ∧ r.start.character.toNat = (p.column - 1) % UInt32.size ∧
      r.stop.line = r.start.line ∧ r.stop.character.toNat = (p.column - 1 + length) % UInt32.size := by
  refine ⟨toNat_ofInt_sub_one hline, toNat_ofInt_sub_one hcolumn, rfl, ?_⟩
  change (UInt32.ofInt (p.column - 1) + UInt32.ofNat length).toNat = _
  rw [UInt32.toNat_add, toNat_ofInt_sub_one hcolumn, UInt32.toNat_ofNat', ← Nat.add_mod]

/-- The range `r` holds a word, in its line between `left` and `right`, that stands at the place `p`. -/
structure Holds (text w : Bytes) (p : Position) (r : Range) (left right : Bytes) : Prop where
  line : (splitAtByte newline text)[r.start.line.toNat]? = some (left ++ (w ++ right))
  noName_left : NoNameLast left
  noName_right : NoNameFirst right
  line_eq : r.start.line.toNat + 1 = p.line
  column_eq : r.start.character.toNat + 1 = p.column
  start_eq : r.start.character.toNat = left.length
  stop_line : r.stop.line = r.start.line
  stop_eq : r.stop.character.toNat = left.length + w.length

theorem holds_of_word {text w : Bytes} {o : Nat} (h : Addressable text) (hw : Scanner.Word text o w) :
    ∃ left right, Holds text w (.ofOffset text o)
      (.ofPosition (Position.ofOffset text o).line (Position.ofOffset text o).column w.length) left right := by
  obtain ⟨q, hq, hright⟩ := hw.spelled
  obtain ⟨hline, hcolumn⟩ := Position.ofOffset_line text o
  have hword : (text.drop o).takeWhile (· != newline) = w ++ q.takeWhile (· != newline) := by
    rw [hq, List.takeWhile_append_of_pos]
    intro b hb
    have hne : b ≠ newline := by
      rintro rfl
      cases hw.isName newline hb
    simpa using hne
  rw [hword] at hline
  have hlines := (List.getElem?_eq_some_iff.mp hline).1
  have hlength := h.2 _ (List.mem_of_getElem? hline)
  have hcount := h.1
  simp only [List.length_append] at hlength
  obtain ⟨hline_pos, hcolumn_pos⟩ := Position.ofOffset_pos text o
  obtain ⟨hstart, hcharacter, hstop, hend⟩ := ofPosition_toNat hline_pos hcolumn_pos w.length
  rw [Nat.mod_eq_of_lt (by omega)] at hstart hcharacter hend
  refine ⟨Text.lastLine (text.take o), q.takeWhile (· != newline), ?_, ?_, ?_, ?_, ?_, ?_, hstop, ?_⟩
  · rw [hstart]
    exact hline
  · exact hw.before.of_suffix (lastLine_suffix _)
  · exact hright.takeWhile _
  · omega
  · omega
  · omega
  · omega

theorem Holds.wordAt {text w left right : Bytes} {p : Position} {r : Range} (h : Holds text w p r left right)
    (hw : ∀ b ∈ w, isNameByte b = true) {column : UInt32} (hstart : r.start.character ≤ column)
    (hstop : column ≤ r.stop.character) : wordAt text ⟨r.start.line, column⟩ = w := by
  rw [UInt32.le_iff_toNat_le] at hstart hstop
  rw [h.start_eq] at hstart
  rw [h.stop_eq] at hstop
  exact wordAt_eq h.line h.noName_left hw h.noName_right hstart hstop

theorem Holds.spells {text w left right : Bytes} {p : Position} {r : Range} (h : Holds text w p r left right) :
    ((left ++ (w ++ right)).take r.stop.character.toNat).drop r.start.character.toNat = w := by
  rw [h.stop_eq, h.start_eq, List.take_length_add_append, List.take_left, List.drop_left]

/-- The first range ends before the second one starts. -/
def Range.Precedes (r r' : Range) : Prop :=
  r.stop.line < r'.start.line ∨ r.stop.line = r'.start.line ∧ r.stop.character ≤ r'.start.character

theorem Holds.precedes {text w w' left right left' right' : Bytes} {p p' : Position} {r r' : Range}
    (h : Holds text w p r left right) (h' : Holds text w' p' r' left' right') (hp : p = .ofOffset text p.offset)
    (hp' : p' = .ofOffset text p'.offset) (hle : p.offset + w.length ≤ p'.offset) (hend : p'.offset ≤ text.length) :
    r.Precedes r' := by
  have hplaces := Position.ofOffset_lt_or_eq text (Nat.le_of_add_right_le hle) hend
  rw [← hp, ← hp', ← h.line_eq, ← h'.line_eq, ← h.column_eq, ← h'.column_eq] at hplaces
  have hstart := h.start_eq
  have hstop := h.stop_eq
  rw [Range.Precedes, h.stop_line, UInt32.lt_iff_toNat_lt, ← UInt32.toNat_inj, UInt32.le_iff_toNat_le]
  rcases hplaces with hlt | ⟨heq, hcolumn⟩
  · exact .inl (by omega)
  · exact .inr ⟨by omega, by omega⟩

theorem isNamed_eq (word : Bytes) (t : Token) : isNamed word t = decide (t.lexeme = .name word) := by
  obtain ⟨l, pos⟩ := t
  cases l with
  | name w => simp [isNamed, Bool.beq_eq_decide_eq]
  | eof | fault | string | integer | float | keyword | symbol => simp [isNamed]

theorem holds_of_named {text word : Bytes} (h : Addressable text) {t : Token}
    (ht : t ∈ (Scanner.ofSource text none).tokens.1) (hname : t.lexeme = .name word) :
    t.pos = .ofOffset text t.pos.offset ∧ Scanner.Word text t.pos.offset word ∧
      ∃ left right, Holds text word t.pos (.ofPosition t.pos.line t.pos.column word.length) left right := by
  have hstart : Apart (text.take 0) (text.drop 0) := .inl fun b hb => by cases hb
  obtain ⟨hpos, hword⟩ := (Scanner.ofSource_reads text).word hstart ht hname
  refine ⟨hpos, hword, ?_⟩
  rw [hpos]
  exact holds_of_word h (hpos ▸ hword)

theorem mem_filter_isNamed {text word : Bytes} {t : Token} :
    t ∈ (Scanner.ofSource text none).tokens.1.filter (isNamed word) ↔
      t ∈ (Scanner.ofSource text none).tokens.1 ∧ t.lexeme = .name word := by
  rw [List.mem_filter, isNamed_eq, decide_eq_true_eq]

section

variable {text word : Bytes} (h : Addressable text)

include h

theorem occurrences_places :
    ((occurrences text word).map fun r => (r.start.line.toNat + 1, r.start.character.toNat + 1)) =
      (((Scanner.ofSource text none).tokens.1.filter fun t => t.lexeme = .name word).map
        fun t => (t.pos.line, t.pos.column)) := by
  rw [occurrences, List.map_map, List.filter_congr fun t _ => (isNamed_eq word t).symm]
  apply List.map_congr_left
  intro t ht
  obtain ⟨ht, hname⟩ := mem_filter_isNamed.mp ht
  obtain ⟨-, -, left, right, hholds⟩ := holds_of_named h ht hname
  exact Prod.ext hholds.line_eq hholds.column_eq

theorem occurrences_hold {r : Range} (hr : r ∈ occurrences text word) :
    (∀ b ∈ word, isNameByte b = true) ∧ ∃ p left right, Holds text word p r left right := by
  obtain ⟨t, ht, rfl⟩ := List.mem_map.mp hr
  obtain ⟨ht, hname⟩ := mem_filter_isNamed.mp ht
  obtain ⟨-, hword, hholds⟩ := holds_of_named h ht hname
  exact ⟨hword.isName, t.pos, hholds⟩

theorem occurrences_pairwise : (occurrences text word).Pairwise Range.Precedes := by
  have hreads := Scanner.ofSource_reads text
  apply List.pairwise_map.mpr
  apply (hreads.pairwise_word.filter _).imp_of_mem
  intro t t' ht ht' hle
  obtain ⟨ht, hname⟩ := mem_filter_isNamed.mp ht
  obtain ⟨ht', hname'⟩ := mem_filter_isNamed.mp ht'
  obtain ⟨hpos, -, left, right, hholds⟩ := holds_of_named h ht hname
  obtain ⟨hpos', -, left', right', hholds'⟩ := holds_of_named h ht' hname'
  obtain ⟨o, -, ho, hlength, -⟩ := hreads.place ht'
  have hoffset : t'.pos.offset ≤ text.length := by rwa [ho, Position.offset_ofOffset hlength]
  exact hholds.precedes hholds' hpos hpos' (hle word hname) hoffset

end

/-- The ranges of a name are its tokens, in order: each holds the name in a line of the text, and the word around each of
its places is the name. -/
theorem occurrences_spell {text word : Bytes} (h : Addressable text) :
    let tokens := (Scanner.ofSource text none).tokens.1
    ((occurrences text word).map fun r => (r.start.line.toNat + 1, r.start.character.toNat + 1)) =
        ((tokens.filter fun t => t.lexeme = .name word).map fun t => (t.pos.line, t.pos.column)) ∧
      (∀ r ∈ occurrences text word,
        (∃ line, (splitAtByte newline text)[r.start.line.toNat]? = some line ∧ r.stop.line = r.start.line ∧
          r.stop.character.toNat ≤ line.length ∧
          (line.take r.stop.character.toNat).drop r.start.character.toNat = word) ∧
        ∀ column, r.start.character ≤ column → column ≤ r.stop.character →
          wordAt text ⟨r.start.line, column⟩ = word) ∧
      (occurrences text word).Pairwise Range.Precedes := by
  intro tokens
  refine ⟨occurrences_places h, fun r hr => ?_, occurrences_pairwise h⟩
  obtain ⟨hword, p, left, right, hholds⟩ := occurrences_hold h hr
  refine ⟨⟨_, hholds.line, hholds.stop_line, ?_, hholds.spells⟩, fun column => hholds.wordAt hword⟩
  rw [hholds.stop_eq, List.length_append, List.length_append]
  omega

theorem occurrences_spell_comment :
    let text := utf8 "local n = 1 --n\nprint(n, \"n\")\nn = n.n"
    Addressable text ∧ (occurrences text (utf8 "n")).length = 5 ∧
      ∀ r ∈ occurrences text (utf8 "n"), ∀ column, r.start.character ≤ column → column ≤ r.stop.character →
        wordAt text ⟨r.start.line, column⟩ = utf8 "n" := by
  intro text
  have htext : Addressable text := ⟨by decide +kernel, by decide +kernel⟩
  exact ⟨htext, by decide +kernel, fun r hr => ((occurrences_spell htext).2.1 r hr).2⟩

end MiniLua.Editor

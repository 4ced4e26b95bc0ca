import MiniLua.Proofs.Scan.Positions

/-!
Texts line by line. The line of an offset is the part behind the newline before it, up to the next newline.
-/

namespace MiniLua

namespace Text

theorem length_splitAtByte (sep : UInt8) (bs : Bytes) : (splitAtByte sep bs).length = bs.count sep + 1 := by
  induction bs with
  | nil => rfl
  | cons b r ih =>
      by_cases hb : b = sep
      · subst hb
        rw [splitAtByte_cons_self, List.length_cons, ih, List.count_cons_self]
      · obtain ⟨ps, hps⟩ := splitAtByte_eq_cons sep r
        rw [hps] at ih
        rw [splitAtByte_cons_ne hb hps, List.count_cons_of_ne hb, ← ih, List.length_cons, List.length_cons]

/-- Lines that have no newline come back from the text that they make. -/
theorem splitAtByte_flatMap {ls : List Bytes} (h : ∀ l ∈ ls, newline ∉ l) :
    splitAtByte newline (ls.flatMap (· ++ [newline])) = ls ++ [[]] := by
  induction ls with
  | nil => rfl
  | cons l ls ih =>
      obtain ⟨hl, hls⟩ := List.forall_mem_cons.mp h
      rw [List.flatMap_cons, List.append_assoc, List.singleton_append, splitAtByte_append, splitAtByte_of_notMem hl,
        ih hls]
      rfl

/-- What stands behind the last newline. -/
def lastLine (bs : Bytes) : Bytes := (bs.reverse.takeWhile (· != newline)).reverse

theorem lastLine_suffix (bs : Bytes) : lastLine bs <:+ bs := by
  rw [lastLine, ← List.reverse_prefix, List.reverse_reverse]
  exact List.takeWhile_prefix _

theorem newline_notMem_lastLine (bs : Bytes) : newline ∉ lastLine bs := by
  intro h
  have hne := List.all_eq_true.mp List.all_takeWhile newline (List.mem_reverse.mp h)
  simp at hne

theorem eq_append_lastLine (bs : Bytes) : bs = lastLine bs ∨ ∃ a, bs = a ++ newline :: lastLine bs := by
  have hsplit := List.takeWhile_append_dropWhile (p := (· != newline)) (l := bs.reverse)
  cases hrest : bs.reverse.dropWhile (· != newline) with
  | nil =>
      rw [hrest, List.append_nil] at hsplit
      exact .inl (by rw [lastLine, hsplit, List.reverse_reverse])
  | cons b r =>
      have hb : b = newline := by
        have := List.head?_dropWhile_not (· != newline) bs.reverse
        rw [hrest] at this
        simpa using this
      refine .inr ⟨r.reverse, ?_⟩
      rw [hrest, hb] at hsplit
      have hbs := congrArg List.reverse hsplit
      rw [List.reverse_reverse, List.reverse_append, List.reverse_cons, List.append_assoc] at hbs
      exact hbs.symm

theorem splitAtByte_eq_cons_append {left : Bytes} (h : newline ∉ left) (b : Bytes) :
    ∃ ps, splitAtByte newline (left ++ b) = (left ++ b.takeWhile (· != newline)) :: ps := by
  obtain ⟨ps, hps⟩ := splitAtByte_eq_cons newline (left ++ b)
  refine ⟨ps, hps.trans ?_⟩
  rw [List.takeWhile_append_of_pos]
  intro x hx
  have hne : x ≠ newline := fun heq => h (heq ▸ hx)
  simpa using hne

/-- The line in which a text goes on behind its first part. -/
theorem splitAtByte_getElem? (a b : Bytes) :
    (splitAtByte newline (a ++ b))[a.count newline]? = some (lastLine a ++ b.takeWhile (· != newline)) := by
  have hleft := newline_notMem_lastLine a
  have ha := eq_append_lastLine a
  obtain ⟨ps, hps⟩ := splitAtByte_eq_cons_append hleft b
  have hzero : (lastLine a).count newline = 0 := List.count_eq_zero.mpr hleft
  generalize lastLine a = left at *
  rcases ha with rfl | ⟨a, rfl⟩
  · rw [hzero, hps]
    rfl
  · rw [List.count_append, List.count_cons_self, hzero, List.append_assoc, List.cons_append, splitAtByte_append, hps,
      ← length_splitAtByte, List.getElem?_append_right (Nat.le_refl _), Nat.sub_self]
    rfl

end Text

namespace Position

open Text

/-- The line of a place, and what stands in it before and behind the place. -/
theorem ofOffset_line (source : Bytes) (k : Nat) :
    (splitAtByte newline source)[(ofOffset source k).line - 1]? =
        some (lastLine (source.take k) ++ (source.drop k).takeWhile (· != newline)) ∧
      (ofOffset source k).column = (lastLine (source.take k)).length + 1 := by
  have hplace := start_after_reverse (source.take k).reverse
  rw [List.reverse_reverse, List.count_reverse] at hplace
  have hline := splitAtByte_getElem? (source.take k) (source.drop k)
  rw [List.take_append_drop] at hline
  rw [ofOffset, hplace]
  refine ⟨?_, ?_⟩
  · rw [Nat.add_sub_cancel_left]
    exact hline
  · dsimp only
    rw [lastLine, List.length_reverse]

theorem after_of_notMem {bs : Bytes} (h : newline ∉ bs) (p : Position) :
    p.after bs = ⟨p.offset + bs.length, p.line, p.column + bs.length⟩ := by
  induction bs generalizing p with
  | nil => rfl
  | cons b r ih =>
      obtain ⟨hb, hr⟩ := not_or.mp (mt List.mem_cons.mpr h)
      have hnext : p.after (b :: r) = (p.next b).after r := rfl
      rw [hnext, ih hr, next, if_neg (Ne.symm hb)]
      simp only [List.length_cons, Nat.add_assoc, Nat.add_comm 1]

theorem line_le_after (bs : Bytes) (p : Position) : p.line ≤ (p.after bs).line := by
  induction bs generalizing p with
  | nil => exact Nat.le_refl _
  | cons b r ih =>
      have hnext : p.line ≤ (p.next b).line := by
        unfold next
        split
        · exact Nat.le_succ _
        · exact Nat.le_refl _
      exact Nat.le_trans hnext (ih _)

/-- Lines and columns count from one. -/
theorem ofOffset_pos (source : Bytes) (k : Nat) : 0 < (ofOffset source k).line ∧ 0 < (ofOffset source k).column := by
  constructor
  · exact line_le_after (source.take k) start
  · rw [(ofOffset_line source k).2]
    exact Nat.succ_pos _

theorem line_lt_after {bs : Bytes} (h : newline ∈ bs) (p : Position) : p.line < (p.after bs).line := by
  obtain ⟨a, b, rfl⟩ := List.append_of_mem h
  have hnext : (p.after a).after (newline :: b) = ((p.after a).next newline).after b := rfl
  have hline : ((p.after a).next newline).line = (p.after a).line + 1 := rfl
  rw [after_append, hnext]
  have hbefore := line_le_after a p
  have hbehind := line_le_after b ((p.after a).next newline)
  omega

/-- Of two places the later one stands in a later line, or in the same line as far behind as in the text. -/
theorem ofOffset_lt_or_eq (source : Bytes) {k j : Nat} (h : k ≤ j) (hj : j ≤ source.length) :
    (ofOffset source k).line < (ofOffset source j).line ∨
      (ofOffset source k).line = (ofOffset source j).line ∧
        (ofOffset source j).column = (ofOffset source k).column + (j - k) := by
  have hafter : ofOffset source j = (ofOffset source k).after ((source.drop k).take (j - k)) := by
    rw [ofOffset, ofOffset, ← after_append, ← List.take_add, Nat.add_sub_cancel' h]
  have hlength : ((source.drop k).take (j - k)).length = j - k := by
    rw [List.length_take, List.length_drop]
    omega
  by_cases hmem : newline ∈ (source.drop k).take (j - k)
  · rw [hafter]
    exact .inl (line_lt_after hmem _)
  · rw [hafter, after_of_notMem hmem, hlength]
    exact .inr ⟨rfl, rfl⟩

end Position

end MiniLua

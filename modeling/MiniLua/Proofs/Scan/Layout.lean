import MiniLua.Proofs.Scan.Brackets
import MiniLua.Scan.Lexeme

/-!
Layout: what may stand between tokens. It is made of blanks, of comments that end with their line, and of comments in
long brackets; the scanner skips exactly the layout before a token.
-/

namespace MiniLua.Scan

open Text

def dashes : Bytes := [0x2d, 0x2d]

/-- The text of a comment that ends with its line: it does not open a long bracket. -/
def IsLine (text : Bytes) : Prop := newline ∉ text ∧ ∀ level < window, ¬ opener level <+: text

inductive Layout : Bytes → Prop
  | nil : Layout []
  | blank {b : UInt8} {r : Bytes} (hb : isSpace b = true) (hr : Layout r) : Layout (b :: r)
  | line {text r : Bytes} (ht : IsLine text) (hr : Layout r) : Layout (dashes ++ (text ++ newline :: r))
  | long {level : Nat} {body r : Bytes} (hl : level < window) (hb : Encloses level body) (hr : Layout r) :
      Layout (dashes ++ (opener level ++ (body ++ (closer level ++ r))))

/-- Neither a blank nor a comment stands at the head. -/
def Bare (bs : Bytes) : Prop := (∀ b ∈ bs.head?, isSpace b = false) ∧ ¬ dashes <+: bs

/-- What the layout at the head of an input is: all before a token or the end, or before a last line that is a comment,
or before a comment that is not closed. -/
inductive Gap.Covers : Bytes → Gap → Prop
  | all {g r : Bytes} (hg : Layout g) (hr : Bare r) : Covers (g ++ r) (.closed g.length)
  | lastLine {g text : Bytes} (hg : Layout g) (ht : IsLine text) :
      Covers (g ++ (dashes ++ text)) (.closed (g ++ (dashes ++ text)).length)
  | unclosed {g : Bytes} {level : Nat} {r : Bytes} (hg : Layout g) (hl : level < window) (hr : ¬ closer level <:+: r) :
      Covers (g ++ (dashes ++ (opener level ++ r))) (.unclosed g.length)

theorem Layout.append {a b : Bytes} (ha : Layout a) (hb : Layout b) : Layout (a ++ b) := by
  induction ha with
  | nil => exact hb
  | blank hspace _ ih => exact .blank hspace ih
  | line ht _ ih => simpa using Layout.line ht ih
  | long hl hbody _ ih => simpa using Layout.long hl hbody ih

theorem Gap.Covers.shift {a bs : Bytes} {x : Gap} (ha : Layout a) (h : Covers bs x) :
    Covers (a ++ bs) (x.shift a.length) := by
  cases h with
  | all hg hr =>
      have hcovers := Covers.all (ha.append hg) hr
      simpa [Gap.shift, Nat.add_comm] using hcovers
  | lastLine hg ht =>
      have hcovers := Covers.lastLine (ha.append hg) ht
      simpa [Gap.shift, Nat.add_comm, Nat.add_left_comm, Nat.add_assoc] using hcovers
  | unclosed hg hl hr =>
      have hcovers := Covers.unclosed (ha.append hg) hl hr
      simpa [Gap.shift, Nat.add_comm] using hcovers

/-! Comments behind their dashes. -/

theorem comment_opener {level : Nat} (h : level < window) (r : Bytes) :
    comment (opener level ++ r) = (longContent level r).map fun p => level + 2 + p.2 := by
  have hdrop : (List.replicate level 0x3d ++ 0x5b :: r).drop (level + 1) = r := by
    rw [List.drop_append, List.drop_eq_nil_of_le (by simp)]
    simp
  simp only [comment, opener, List.cons_append, List.append_assoc, List.nil_append, opening_opener h, hdrop]

theorem comment_line {bs : Bytes} (h : ∀ level < window, ¬ opener level <+: bs) :
    comment bs = some (bs.takeWhile (· != newline)).length := by
  unfold comment
  dsimp only
  split
  · next r =>
    split
    · next level hlong =>
      obtain ⟨hl, rest, rfl⟩ := eq_opener_of_opening hlong
      exact absurd ⟨rest, by simp [opener]⟩ (h level hl)
    · rfl
  · rfl

theorem isLine_takeWhile {bs : Bytes} (h : ∀ level < window, ¬ opener level <+: bs) :
    IsLine (bs.takeWhile (· != newline)) := by
  constructor
  · intro hmem
    have := List.all_eq_true.mp List.all_takeWhile _ hmem
    simp at this
  · intro level hl hopens
    exact h level hl (hopens.trans (List.takeWhile_prefix _))

theorem newline_notMem_opener (level : Nat) : newline ∉ opener level := by
  simp [opener, newline]

/-- A line does not open a long bracket, whatever comes in the next line. -/
theorem IsLine.not_opens {text r : Bytes} (h : IsLine text) (hr : r = [] ∨ r.head? = some newline)
    {level : Nat} (hl : level < window) : ¬ opener level <+: text ++ r := by
  intro hopens
  rcases hr with rfl | hr
  · exact h.2 level hl (List.append_nil text ▸ hopens)
  · have hnot := newline_notMem_opener level
    have hline : text ++ [newline] <+: text ++ r :=
      (List.prefix_append_right_inj text).mpr (List.singleton_prefix_iff_head?_eq_some.mpr hr)
    rcases List.prefix_or_prefix_of_prefix hopens hline with hshort | hlong
    · rcases List.prefix_concat_iff.mp hshort with heq | hshort
      · exact hnot (heq ▸ by simp)
      · exact h.2 level hl hshort
    · exact hnot (hlong.subset (by simp))

theorem comment_isLine {text r : Bytes} (h : IsLine text) (hr : r = [] ∨ r.head? = some newline) :
    comment (text ++ r) = some text.length := by
  have hend : r.takeWhile (· != newline) = [] := by
    rcases hr with rfl | hr
    · rfl
    · obtain ⟨r, rfl⟩ := List.head?_eq_some_iff.mp hr
      exact List.takeWhile_cons_of_neg (by simp)
  rw [comment_line fun level hl => h.not_opens hr hl, List.takeWhile_append_of_pos, hend, List.append_nil]
  intro b hb
  simpa using fun hn : b = newline => h.1 (hn ▸ hb)

theorem comment_long {level : Nat} {body : Bytes} (hl : level < window) (hb : Encloses level body) (r : Bytes) :
    comment (opener level ++ body ++ closer level ++ r) = some (opener level ++ body ++ closer level).length := by
  rw [List.append_assoc, List.append_assoc, comment_opener hl, longContent_enclosed hb]
  simp [length_opener, length_closer]

/-! Gaps. -/

theorem Gap.shift_zero (x : Gap) : x.shift 0 = x := by
  cases x <;> rfl

theorem Gap.shift_shift (x : Gap) (m n : Nat) : (x.shift m).shift n = x.shift (m + n) := by
  cases x <;> simp [Gap.shift, Nat.add_assoc]

theorem gap_bare {bs : Bytes} (h : Bare bs) : gap bs = .closed 0 := by
  cases bs with
  | nil => rw [gap]
  | cons b r =>
      have hblank : isSpace b = false := h.1 b rfl
      have hdashes : ¬ (b = 0x2d ∧ r.head? = some 0x2d) := by
        rintro ⟨rfl, hr⟩
        refine h.2 (List.cons_prefix_cons.mpr ⟨rfl, ?_⟩)
        exact List.singleton_prefix_iff_head?_eq_some.mpr hr
      rw [gap, if_neg (by simp [hblank]), if_neg hdashes]

theorem gap_blank {b : UInt8} (h : isSpace b = true) (r : Bytes) : gap (b :: r) = (gap r).shift 1 := by
  rw [gap, if_pos h]

theorem gap_comment {c r : Bytes} (h : comment (c ++ r) = some c.length) :
    gap (dashes ++ (c ++ r)) = (gap r).shift (c.length + 2) := by
  simp only [dashes, List.cons_append, List.nil_append]
  rw [gap, if_neg (by decide), if_pos ⟨rfl, rfl⟩, List.drop_one, List.tail_cons, h]
  simp only [List.drop_succ_cons, List.drop_left]

theorem gap_unclosed {r : Bytes} (h : comment r = none) : gap (dashes ++ r) = .unclosed 0 := by
  simp only [dashes, List.cons_append, List.nil_append]
  rw [gap, if_neg (by decide), if_pos ⟨rfl, rfl⟩, List.drop_one, List.tail_cons, h]

theorem gap_layout {g : Bytes} (h : Layout g) (r : Bytes) : gap (g ++ r) = (gap r).shift g.length := by
  induction h with
  | nil => exact (gap r).shift_zero.symm
  | blank hb _ ih => rw [List.cons_append, gap_blank hb, ih, Gap.shift_shift, List.length_cons]
  | @line text g ht _ ih =>
      have hnewline : isSpace newline = true := by decide
      rw [List.append_assoc, List.append_assoc, List.cons_append, gap_comment (comment_isLine ht (.inr rfl)), gap_blank hnewline,
        ih, Gap.shift_shift, Gap.shift_shift]
      congr 1
      simp only [dashes, List.length_append, List.length_cons, List.length_nil]
      omega
  | @long level body g hl hb _ ih =>
      have hcomment := comment_long hl hb (g ++ r)
      have hassoc : dashes ++ (opener level ++ (body ++ (closer level ++ g))) ++ r =
          dashes ++ (opener level ++ body ++ closer level ++ (g ++ r)) := by
        simp only [List.append_assoc]
      rw [hassoc, gap_comment hcomment, ih, Gap.shift_shift]
      congr 1
      simp only [dashes, List.length_append, List.length_cons, List.length_nil]
      omega

theorem bare_cons {b : UInt8} {r : Bytes} (hb : isSpace b = false) (hr : ¬ (b = 0x2d ∧ r.head? = some 0x2d)) :
    Bare (b :: r) := by
  refine ⟨fun c hc => Option.some.inj hc ▸ hb, fun hdashes => ?_⟩
  obtain ⟨heq, htail⟩ := List.cons_prefix_cons.mp hdashes
  exact hr ⟨heq.symm, List.singleton_prefix_iff_head?_eq_some.mp htail⟩

theorem bare_nil : Bare [] := ⟨fun _ h => (Option.not_mem_none _ h).elim, by simp [dashes]⟩

/-- A comment behind its dashes is a line, or a long bracket that is closed or not. -/
theorem comment_cases (bs : Bytes) :
    (∃ text r, IsLine text ∧ bs = text ++ r ∧ (r = [] ∨ r.head? = some newline)) ∨
    (∃ level body r, level < window ∧ Encloses level body ∧ bs = opener level ++ body ++ closer level ++ r) ∨
    ∃ level r, level < window ∧ ¬ closer level <:+: r ∧ bs = opener level ++ r := by
  by_cases hline : ∀ level < window, ¬ opener level <+: bs
  · refine .inl ⟨_, _, isLine_takeWhile hline, List.takeWhile_append_dropWhile.symm, ?_⟩
    cases hrest : bs.dropWhile (· != newline) with
    | nil => exact .inl rfl
    | cons b r =>
        have hb := List.head?_dropWhile_not (· != newline) bs
        rw [hrest] at hb
        exact .inr (by simpa using hb)
  · obtain ⟨level, hl, r, rfl⟩ : ∃ level, level < window ∧ opener level <+: bs := by
      simpa using hline
    by_cases hclosed : closer level <:+: r
    · obtain ⟨body, rest, hbody, rfl⟩ := exists_encloses hclosed
      exact .inr (.inl ⟨level, body, rest, hl, hbody, by simp only [List.append_assoc]⟩)
    · exact .inr (.inr ⟨level, r, hl, hclosed, rfl⟩)

theorem Gap.Covers.prepend {g r : Bytes} (hg : Layout g) (h : Covers r (gap r)) : Covers (g ++ r) (gap (g ++ r)) := by
  rw [gap_layout hg]
  exact h.shift hg

/-- The dashes of a comment at the head, once the gaps behind the comment are known. -/
theorem gap_covers_dashes {r : Bytes} (ih : ∀ r' : Bytes, r'.length < (dashes ++ r).length → Gap.Covers r' (gap r')) :
    Gap.Covers (dashes ++ r) (gap (dashes ++ r)) := by
  rcases comment_cases r with ⟨text, r, ht, rfl, rfl | hr⟩ | ⟨level, body, r, hl, hb, rfl⟩ | ⟨level, r, hl, hopen, rfl⟩
  · have hgap : gap (dashes ++ (text ++ [])) = .closed (dashes ++ text).length := by
      rw [gap_comment (comment_isLine ht (.inl rfl)), gap_bare bare_nil]
      simp only [Gap.shift, dashes, List.length_append, List.length_cons, List.length_nil, Gap.closed.injEq]
      omega
    rw [hgap, List.append_nil]
    exact .lastLine .nil ht
  · obtain ⟨r, rfl⟩ := List.head?_eq_some_iff.mp hr
    have hassoc : dashes ++ (text ++ newline :: r) = dashes ++ (text ++ [newline]) ++ r := by simp
    rw [hassoc] at ih ⊢
    exact (ih r (by simp [dashes]; omega)).prepend (.line ht .nil)
  · have hassoc : dashes ++ (opener level ++ body ++ closer level ++ r) =
        dashes ++ (opener level ++ (body ++ (closer level ++ []))) ++ r := by simp
    rw [hassoc] at ih ⊢
    exact (ih r (by simp [dashes]; omega)).prepend (.long hl hb .nil)
  · have hnone : comment (opener level ++ r) = none := by
      rw [comment_opener hl, longContent_eq_none_iff.mpr hopen, Option.map_none]
    rw [gap_unclosed hnone]
    exact .unclosed .nil hl hopen

theorem gap_covers (bs : Bytes) : Gap.Covers bs (gap bs) := by
  induction hn : bs.length using Nat.strongRecOn generalizing bs with
  | ind n ih =>
      subst hn
      cases bs with
      | nil => exact gap_bare bare_nil ▸ .all .nil bare_nil
      | cons b r =>
          by_cases hb : isSpace b = true
          · exact (ih r.length (Nat.lt_succ_self _) r rfl).prepend (.blank hb .nil)
          · by_cases hdashes : b = 0x2d ∧ r.head? = some 0x2d
            · obtain ⟨rfl, hr⟩ := hdashes
              obtain ⟨r, rfl⟩ := List.head?_eq_some_iff.mp hr
              exact gap_covers_dashes fun r' hr' => ih r'.length hr' r' rfl
            · have hbare := bare_cons (by simpa using hb) hdashes
              exact gap_bare hbare ▸ .all .nil hbare

/-- Layout is what is skipped in front of a token. -/
theorem layout_iff (g : Bytes) : Layout g ↔ gap (g ++ [0x61]) = .closed g.length := by
  have hname : Bare [0x61] := bare_cons (by decide) (by simp)
  constructor
  · intro h
    rw [gap_layout h, gap_bare hname, Gap.shift, Nat.zero_add]
  · intro h
    have hcovers := gap_covers (g ++ [0x61])
    rw [h] at hcovers
    generalize hbs : g ++ [0x61] = bs at hcovers
    generalize hx : Gap.closed g.length = x at hcovers
    cases hcovers with
    | all hg _ =>
        obtain ⟨rfl, -⟩ := List.append_inj hbs (Gap.closed.inj hx)
        exact hg
    | lastLine =>
        rw [← hbs, List.length_append] at hx
        exact absurd (Gap.closed.inj hx) (by simp)
    | unclosed => cases hx

instance : DecidablePred Layout := fun g => decidable_of_iff _ (layout_iff g).symm

end MiniLua.Scan

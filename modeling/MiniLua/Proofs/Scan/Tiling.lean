import MiniLua.Proofs.Scan.Lookahead
import MiniLua.Proofs.Scan.Positions

/-!
Tokens tile their source. Between the places where the scanner stands before and behind a token there is layout and then
the token; layout is all that is left before the end; and a fault is reported where a token starts, or a comment that is
not closed, or a bad escape.
-/

namespace MiniLua

open Text

namespace Scan

/-- Layout up to the end of the source, where the last line may be a comment. -/
inductive FinalLayout : Bytes → Prop
  | layout {g : Bytes} (hg : Layout g) : FinalLayout g
  | lastLine {g text : Bytes} (hg : Layout g) (ht : IsLine text) : FinalLayout (g ++ (dashes ++ text))

/-- Where a fault is reported in the bytes behind the last token. -/
inductive FaultAt : Bytes → ScanFault → Nat → Prop
  | token {g r : Bytes} {cause : ScanFault} {length : Nat} (hg : Layout g) (hr : r ≠ []) (hbare : Bare r)
      (hread : read r = .stop ⟨cause, 0, length⟩) : FaultAt (g ++ r) cause g.length
  | comment {g r : Bytes} {level : Nat} (hg : Layout g) (hl : level < window) (hr : ¬ closer level <:+: r) :
      FaultAt (g ++ (dashes ++ (opener level ++ r))) .unfinishedLongComment g.length
  | escape {g body r : Bytes} {mark : UInt8} {cause : ScanFault} {k place : Nat} (hg : Layout g)
      (hmark : mark = 0x22 ∨ mark = 0x27) (hwithin : Within mark body (0x5c :: r))
      (hescape : escape r = .error (cause, k)) (hplace : place + (0x5c :: r).length = (g ++ mark :: body).length) :
      FaultAt (g ++ mark :: body) cause place

theorem FaultAt.place_le {bs : Bytes} {cause : ScanFault} {place : Nat} (h : FaultAt bs cause place) :
    place ≤ bs.length := by
  cases h with
  | token => simp
  | comment => simp
  | escape => omega

theorem read_cons_isLast {b : UInt8} {r : Bytes} {l : Lexeme} {n : Nat} (h : read (b :: r) = .lexeme l n) :
    l.isLast = false := by
  rw [read] at h
  split at h
  · unfold bracket at h
    repeat' split at h
    all_goals cases h
    all_goals rfl
  · split at h
    · unfold quotedString at h
      split at h
      all_goals cases h
      rfl
    · split at h
      · have hnumber := numeral_isNumber h
        cases l with
        | integer | float => rfl
        | eof | fault | name | string | keyword | symbol => cases hnumber
      · split at h
        · cases h
          cases Keyword.ofBytes? ((b :: r).takeWhile isNameByte) <;> rfl
        · split at h
          all_goals cases h
          rfl

theorem endNumeral_place {bs : Bytes} {n : Nat} {value : Bytes → Lexeme} {stop : Stop}
    (h : endNumeral bs n value = .stop stop) : stop.place = 0 := by
  unfold endNumeral malformed at h
  split at h
  all_goals cases h
  rfl

theorem decimalNumeral_place {bs : Bytes} {stop : Stop} (h : decimalNumeral bs = .stop stop) : stop.place = 0 := by
  simp only [decimalNumeral, malformed] at h
  split at h
  · exact endNumeral_place h
  · split at h
    · cases h
      rfl
    · exact endNumeral_place h

theorem numeral_place {bs : Bytes} {stop : Stop} (h : numeral bs = .stop stop) : stop.place = 0 := by
  unfold numeral at h
  split at h
  · split at h
    · simp only [hexNumeral, malformed] at h
      split at h
      · cases h
        rfl
      · exact endNumeral_place h
    · exact decimalNumeral_place h
  · exact decimalNumeral_place h

/-- A lexeme that cannot be read is reported where it starts, or at a bad escape in it. -/
theorem read_stop {b : UInt8} {r : Bytes} {stop : Stop} (h : read (b :: r) = .stop stop) :
    stop.place = 0 ∨ (b = 0x22 ∨ b = 0x27) ∧
      ∃ r' k, Within b r (0x5c :: r') ∧ escape r' = .error (stop.cause, k) ∧
        stop.place + (0x5c :: r').length = (b :: r).length := by
  rw [read] at h
  split at h
  · unfold bracket at h
    repeat' split at h
    all_goals cases h
    all_goals exact .inl rfl
  · split at h
    · next hquote =>
      unfold quotedString at h
      split at h
      · cases h
      · next hbody =>
        cases h
        rcases quotedBody_error hbody with hplace | ⟨r', k, hwithin, hescape, hplace⟩
        · exact .inl hplace
        · refine .inr ⟨hquote, r', k, hwithin, hescape, ?_⟩
          rw [List.length_cons, List.length_cons, hplace, Nat.add_comm]
    · split at h
      · exact .inl (numeral_place h)
      · split at h
        · cases h
        · split at h
          all_goals cases h
          exact .inl rfl

end Scan

namespace Scanner

open Scan

/-- What one scan from an offset of the source can find. -/
inductive Scans (source : Bytes) (k : Nat) : Token × Scanner → Prop
  | token {g p q : Bytes} {l : Lexeme} (hrest : source.drop k = g ++ (p ++ q)) (hg : Layout g) (hbare : Bare (p ++ q))
      (hp : 0 < p.length) (hl : l.isLast = false)
      (hread : ∀ q', StartsBlank q' → read (p ++ q') = .lexeme l p.length) :
      Scans source k (⟨l, .ofOffset source (k + g.length)⟩, .standing source (k + g.length + p.length))
  | eof (hg : FinalLayout (source.drop k)) :
      Scans source k (⟨.eof, .ofOffset source source.length⟩, .standing source source.length)
  | fault {cause : ScanFault} {place : Nat} (s : Scanner) (hcause : FaultAt (source.drop k) cause place) :
      Scans source k (⟨.fault cause, .ofOffset source (k + place)⟩, s)

variable {source : Bytes} {k : Nat}

theorem end_le {g p q : Bytes} (hk : k ≤ source.length) (hrest : source.drop k = g ++ (p ++ q)) :
    k + g.length + p.length ≤ source.length := by
  have hlength := congrArg List.length hrest
  simp only [List.length_drop, List.length_append] at hlength
  omega

/-- Layout at the head is skipped. -/
theorem scan_layout {g r : Bytes} (hrest : source.drop k = g ++ r) (hg : Layout g) (hr : Bare r) :
    (standing source k).scan = found source (k + g.length) (read r) := by
  have hgap : gap (source.drop k) = .closed g.length := by
    rw [hrest, gap_layout hg, gap_bare hr]
    simp [Gap.shift]
  have hdrop : source.drop (k + g.length) = r := by
    rw [← List.drop_drop, hrest, List.drop_left]
  rw [scan_closed hgap, hdrop]

theorem scans_token {g r : Bytes} {b : UInt8} (hrest : source.drop k = g ++ b :: r) (hg : Layout g)
    (hbare : Bare (b :: r)) : Scans source k (standing source k).scan := by
  rw [scan_layout hrest hg hbare]
  cases hread : read (b :: r) with
  | lexeme l n =>
      have hl := read_cons_isLast hread
      have hn := (read_length_pos hread hl).1
      obtain ⟨p, q, heq, rfl, hp⟩ := read_decided hread hn
      rw [heq] at hrest hbare
      exact .token hrest hg hbare hn hl hp
  | stop stop =>
      rw [found, Nat.add_assoc]
      apply Scans.fault
      rw [hrest]
      rcases read_stop hread with hplace | ⟨hquote, r', n, hwithin, hescape, hplace⟩
      · obtain ⟨cause, place, length⟩ := stop
        cases hplace
        exact .token hg (List.cons_ne_nil b r) hbare hread
      · apply FaultAt.escape hg hquote hwithin hescape
        rw [List.length_append, ← hplace, Nat.add_assoc]

theorem scans_eof (hk : k ≤ source.length) (hgap : gap (source.drop k) = .closed (source.drop k).length)
    (hg : FinalLayout (source.drop k)) : Scans source k (standing source k).scan := by
  have hlength : k + (source.drop k).length = source.length := by
    rw [List.length_drop]
    omega
  rw [scan_closed hgap, hlength, List.drop_length]
  exact .eof hg

theorem scan_scans (hk : k ≤ source.length) : Scans source k (standing source k).scan := by
  have hcovers := gap_covers (source.drop k)
  generalize hrest : source.drop k = bs at hcovers
  generalize hgap : gap bs = x at hcovers
  cases hcovers with
  | @all g r hg hr =>
      cases r with
      | cons b r => exact scans_token hrest hg hr
      | nil =>
          rw [List.append_nil] at hrest hgap
          rw [← hrest] at hgap hg
          exact scans_eof hk hgap (.layout hg)
  | lastLine hg ht =>
      rw [← hrest] at hgap
      apply scans_eof hk hgap
      rw [hrest]
      exact .lastLine hg ht
  | unclosed hg hl hr =>
      rw [← hrest] at hgap
      have htoken := scan_unclosed hgap
      generalize (standing source k).scan = found at htoken ⊢
      obtain ⟨t, s⟩ := found
      cases htoken
      apply Scans.fault
      rw [hrest]
      exact .comment hg hl hr

theorem Scans.standing_of_token {found : Token × Scanner} (hk : k ≤ source.length) (h : Scans source k found)
    (hl : found.1.lexeme.isLast = false) : ∃ j, j ≤ source.length ∧ found.2 = standing source j := by
  cases h with
  | token hrest _ _ _ _ _ => exact ⟨_, end_le hk hrest, rfl⟩
  | eof | fault => cases hl

/-- The scanner behind its next tokens. -/
def after (s : Scanner) : Nat → Scanner
  | 0 => s
  | i + 1 => s.next.2.after i

theorem tokens_of_isLast {s : Scanner} (h : s.next.1.lexeme.isLast = true) : s.tokens.1 = [s.next.1] := by
  rw [tokens, dif_pos h]

theorem tokens_of_not_isLast {s : Scanner} (h : s.next.1.lexeme.isLast = false) :
    s.tokens.1 = s.next.1 :: s.next.2.tokens.1 := by
  rw [tokens, dif_neg (by simp [h])]

theorem tokens_ne_nil (s : Scanner) : s.tokens.1 ≠ [] := by
  cases hl : s.next.1.lexeme.isLast with
  | true => simp [tokens_of_isLast hl]
  | false => simp [tokens_of_not_isLast hl]

theorem length_tokens_le (s : Scanner) : s.tokens.1.length ≤ s.remaining + 1 := by
  fun_induction tokens s with
  | case1 => exact Nat.le_add_left ..
  | case2 s h ts last hrest ih =>
      have hlt := next_remaining_lt (Bool.eq_false_iff.mpr h)
      rw [hrest] at ih
      simp only [List.length_cons] at ih ⊢
      omega

theorem tokens_getElem? {s : Scanner} {i : Nat} {t : Token} (h : s.tokens.1[i]? = some t) :
    (s.after i).next.1 = t ∧ (t.lexeme.isLast = true ↔ i + 1 = s.tokens.1.length) := by
  induction i generalizing s with
  | zero =>
      cases hl : s.next.1.lexeme.isLast with
      | true =>
          rw [tokens_of_isLast hl] at h ⊢
          cases h
          exact ⟨rfl, iff_of_true hl rfl⟩
      | false =>
          rw [tokens_of_not_isLast hl] at h ⊢
          cases h
          have hmore := List.length_pos_iff.mpr (tokens_ne_nil s.next.2)
          refine ⟨rfl, iff_of_false (Bool.eq_false_iff.mp hl) ?_⟩
          rw [List.length_cons]
          omega
  | succ i ih =>
      cases hl : s.next.1.lexeme.isLast with
      | true =>
          rw [tokens_of_isLast hl] at h
          cases h
      | false =>
          rw [tokens_of_not_isLast hl] at h ⊢
          rw [List.getElem?_cons_succ] at h
          obtain ⟨hnext, hlast⟩ := ih h
          refine ⟨hnext, hlast.trans ?_⟩
          rw [List.length_cons, Nat.add_right_cancel_iff]

/-- Every token is scanned from an offset of the source. -/
theorem after_standing {i : Nat} {t : Token} (hk : k ≤ source.length)
    (h : (standing source k).tokens.1[i]? = some t) :
    ∃ j, j ≤ source.length ∧ (standing source k).after i = standing source j := by
  induction i generalizing k with
  | zero => exact ⟨k, hk, rfl⟩
  | succ i ih =>
      cases hl : (standing source k).next.1.lexeme.isLast with
      | true =>
          rw [tokens_of_isLast hl] at h
          cases h
      | false =>
          rw [tokens_of_not_isLast hl, List.getElem?_cons_succ] at h
          obtain ⟨j, hj, hnext⟩ := (scan_scans hk).standing_of_token hk hl
          have hafter : (standing source k).after (i + 1) = (standing source j).after i := congrArg (after · i) hnext
          rw [hafter]
          apply ih hj
          rw [← hnext]
          exact h

/-- A token between the offset `k` where its scan starts and the offset `j` where it ends. -/
structure Tile (source : Bytes) (k j : Nat) (t : Token) : Prop where
  token : t.lexeme.isLast = false →
    k ≤ t.pos.offset ∧ t.pos.offset < j ∧ j ≤ source.length ∧ Layout ((source.take t.pos.offset).drop k)
  eof : t.lexeme = .eof → t.pos.offset = source.length ∧ FinalLayout (source.drop k)
  fault : ∀ cause, t.lexeme = .fault cause →
    ∃ place, t.pos.offset = k + place ∧ FaultAt (source.drop k) cause place
  marks : t.pos.Marks source

/-- Tokens of a source; the scanner has reached offset `reach i` before token `i`. -/
structure Tiles (source : Bytes) (ts : List Token) (reach : Nat → Nat) : Prop where
  ne_nil : ts ≠ []
  length_le : ts.length ≤ source.length + 1
  isLast_iff : ∀ i t, ts[i]? = some t → (t.lexeme.isLast = true ↔ i + 1 = ts.length)
  tile : ∀ i t, ts[i]? = some t → Tile source (reach i) (reach (i + 1)) t

theorem Scans.tile {found : Token × Scanner} (hk : k ≤ source.length) (h : Scans source k found) :
    Tile source k found.2.cursor.pos.offset found.1 := by
  cases h with
  | @token g p q l hrest hg hbare hp hl hread =>
      have hend := end_le hk hrest
      have hoffset : (Position.ofOffset source (k + g.length)).offset = k + g.length :=
        Position.offset_ofOffset (by omega)
      have hreach : (Position.ofOffset source (k + g.length + p.length)).offset = k + g.length + p.length :=
        Position.offset_ofOffset hend
      have hgap : (source.take (k + g.length)).drop k = g := by
        rw [List.drop_take, Nat.add_sub_cancel_left, hrest, List.take_left]
      constructor
      · intro _
        simp only [standing, hoffset, hreach, hgap]
        exact ⟨by omega, by omega, hend, hg⟩
      · rintro rfl
        cases hl
      · rintro cause rfl
        cases hl
      · exact Position.ofOffset_marks (by omega)
  | eof hg =>
      constructor
      · intro hl
        cases hl
      · intro _
        exact ⟨Position.offset_ofOffset (Nat.le_refl _), hg⟩
      · intro cause hl
        cases hl
      · exact Position.ofOffset_marks (Nat.le_refl _)
  | fault s hcause =>
      have hplace := hcause.place_le
      rw [List.length_drop] at hplace
      constructor
      · intro hl
        cases hl
      · intro hl
        cases hl
      · intro cause hl
        cases hl
        exact ⟨_, Position.offset_ofOffset (by omega), hcause⟩
      · exact Position.ofOffset_marks (by omega)

theorem after_succ (s : Scanner) (i : Nat) : s.after (i + 1) = (s.after i).next.2 := by
  induction i generalizing s with
  | zero => rfl
  | succ i ih => exact ih s.next.2

/-- The tokens of a source are what the calls of the scanner give one after the other, and they tile it. -/
theorem tokens_tile (source : Bytes) :
    let s := ofSource source none
    (∀ i t, s.tokens.1[i]? = some t → (s.after i).next.1 = t) ∧
      Tiles source s.tokens.1 fun i => (s.after i).cursor.pos.offset := by
  intro s
  refine ⟨fun i t h => (tokens_getElem? h).1, tokens_ne_nil s, length_tokens_le s, ?_, ?_⟩
  · intro i t h
    exact (tokens_getElem? h).2
  · intro i t h
    obtain ⟨j, hj, hafter⟩ : ∃ j, j ≤ source.length ∧ s.after i = standing source j :=
      after_standing (Nat.zero_le _) h
    have htile := (scan_scans hj).tile hj
    obtain ⟨rfl, -⟩ := tokens_getElem? h
    have hreach : (s.after i).cursor.pos.offset = j := by
      rw [hafter]
      exact Position.offset_ofOffset hj
    rw [hreach, after_succ, hafter]
    exact htile

/-- A token in the second line, behind a comment. -/
theorem tokens_tile_comment :
    let source := Text.utf8 "x\n--[[y]] = 1"
    let t : Token := ⟨.symbol .assign, ⟨10, 2, 9⟩⟩
    (ofSource source none).tokens.1[1]? = some t ∧ t.pos.Marks source ∧
      Layout ((source.take t.pos.offset).drop ((ofSource source none).after 1).cursor.pos.offset) := by
  intro source t
  have ht : (ofSource source none).tokens.1[1]? = some t := by decide +kernel
  have htile := (tokens_tile source).2.tile 1 t ht
  exact ⟨ht, htile.marks, (htile.token rfl).2.2.2⟩

end Scanner

end MiniLua

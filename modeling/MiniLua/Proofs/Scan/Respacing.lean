import MiniLua.Proofs.Scan.Tiling

/-!
Layout does not matter to the scanner. A source in which other layout stands between the tokens has the same lexemes,
if each piece of the new layout starts with a blank.
-/

namespace MiniLua

namespace Scan

/-- Layout that keeps what is before it apart from what follows. -/
def IsSpacing (g : Bytes) : Prop := Layout g ∧ StartsBlank g

theorem startsBlank_iff (bs : Bytes) : StartsBlank bs ↔ bs.head?.any Text.isSpace = true := by
  cases bs with
  | nil => simp [StartsBlank]
  | cons b r => simp [StartsBlank]

instance : DecidablePred IsSpacing := fun g => decidable_of_iff _ (and_congr_right fun _ => (startsBlank_iff g).symm)

theorem StartsBlank.append {g : Bytes} (h : StartsBlank g) (r : Bytes) : StartsBlank (g ++ r) := by
  obtain ⟨b, t, rfl, hb⟩ := h
  exact ⟨b, t ++ r, rfl, hb⟩

/-- A token that is not the start of a comment does not become one in front of a blank. -/
theorem Bare.respaced {p q q' : Bytes} (h : Bare (p ++ q)) (hp : 0 < p.length) (hq : StartsBlank q') :
    Bare (p ++ q') := by
  obtain ⟨c, t, rfl, hc⟩ := hq
  cases p with
  | nil => cases hp
  | cons b p =>
      refine ⟨h.1, fun hdashes => ?_⟩
      cases p with
      | nil =>
          have hdash : 0x2d = c := (List.cons_prefix_cons.mp (List.cons_prefix_cons.mp hdashes).2).1
          rw [← hdash] at hc
          exact absurd hc (by decide)
      | cons d p =>
          simp only [dashes, List.cons_append, List.cons_prefix_cons] at hdashes
          obtain ⟨rfl, rfl, -⟩ := hdashes
          exact h.2 (by simp [dashes])

end Scan

namespace Scanner

open Scan

/-- The bytes of the next token. -/
def text (source : Bytes) (s : Scanner) : Bytes :=
  (source.take s.next.2.cursor.pos.offset).drop s.next.1.pos.offset

/-- The next tokens, each followed by a piece of layout. -/
def spaced (source : Bytes) (s : Scanner) : List Bytes → Bytes
  | [] => []
  | g :: gaps => s.text source ++ (g ++ s.next.2.spaced source gaps)

/-- The source with other layout behind its tokens; what is before the first token stays. -/
def respaced (source : Bytes) (gaps : List Bytes) : Bytes :=
  let s := ofSource source none
  source.take s.next.1.pos.offset ++ s.spaced source gaps

variable {source source' : Bytes} {k k' : Nat}

theorem text_eq {s : Scanner} {g p q : Bytes} {l : Lexeme} (hk : k ≤ source.length)
    (hrest : source.drop k = g ++ (p ++ q))
    (hnext : s.next = (⟨l, .ofOffset source (k + g.length)⟩, standing source (k + g.length + p.length))) :
    s.text source = p := by
  have hend := end_le hk hrest
  have hoffset : (Position.ofOffset source (k + g.length)).offset = k + g.length :=
    Position.offset_ofOffset (by omega)
  have hreach : (Position.ofOffset source (k + g.length + p.length)).offset = k + g.length + p.length :=
    Position.offset_ofOffset hend
  simp only [text, hnext, standing, hoffset, hreach]
  rw [List.drop_take, Nat.add_sub_cancel_left, ← List.drop_drop, hrest, List.drop_left, List.take_left]

theorem tokens_head (s : Scanner) : s.tokens.1[0]? = some s.next.1 := by
  cases hl : s.next.1.lexeme.isLast with
  | true => rw [tokens_of_isLast hl, List.getElem?_cons_zero]
  | false => rw [tokens_of_not_isLast hl, List.getElem?_cons_zero]

theorem isLast_next_iff (s : Scanner) : s.next.1.lexeme.isLast = true ↔ s.tokens.1.length = 1 :=
  (tokens_getElem? (tokens_head s)).2.trans eq_comm

/-- A token in front of a blank is found as it was in another source. -/
theorem next_respaced {g p q q' : Bytes} {l : Lexeme} (hrest : source'.drop k' = g ++ (p ++ q')) (hg : Layout g)
    (hbare : Bare (p ++ q)) (hp : 0 < p.length)
    (hread : ∀ q', StartsBlank q' → read (p ++ q') = .lexeme l p.length) (hq : StartsBlank q') :
    (standing source' k').next =
        (⟨l, .ofOffset source' (k' + g.length)⟩, standing source' (k' + g.length + p.length)) ∧
      source'.drop (k' + g.length + p.length) = q' := by
  have hscan := scan_layout hrest hg (hbare.respaced hp hq)
  rw [hread q' hq] at hscan
  refine ⟨hscan, ?_⟩
  rw [← List.drop_drop, ← List.drop_drop, hrest, List.drop_left, List.drop_left]

/-- Behind layout only, the end of the input is found. -/
theorem lexemes_layout {g : Bytes} (hrest : source.drop k = g) (hg : Layout g) :
    (standing source k).tokens.1.map Token.lexeme = [.eof] := by
  have hnext : (standing source k).next = found source (k + g.length) (read []) :=
    scan_layout (hrest.trans (List.append_nil g).symm) hg bare_nil
  have hlast : (standing source k).next.1.lexeme.isLast = true := by
    rw [hnext]
    rfl
  rw [tokens_of_isLast hlast, hnext]
  rfl

theorem lexemes_isLast (hk : k ≤ source.length) (hlast : (standing source k).next.1.lexeme.isLast = true)
    (hfaults : ∀ t ∈ (standing source k).tokens.1, ∀ cause, t.lexeme ≠ .fault cause) :
    (standing source k).tokens.1.map Token.lexeme = [.eof] := by
  have hfault := hfaults _ (List.mem_of_getElem? (tokens_head (standing source k)))
  rw [tokens_of_isLast hlast, List.map_singleton]
  have hscans : Scans source k (standing source k).next := scan_scans hk
  generalize (standing source k).next = x at hlast hfault hscans ⊢
  cases hscans with
  | token _ _ _ _ hl _ => exact absurd hlast (Bool.eq_false_iff.mp hl)
  | eof => rfl
  | fault => exact absurd rfl (hfault _)

theorem lexemes_spaced {gaps : List Bytes} (hgaps : ∀ g ∈ gaps, IsSpacing g) (hk : k ≤ source.length)
    (hfaults : ∀ t ∈ (standing source k).tokens.1, ∀ cause, t.lexeme ≠ .fault cause)
    (hlength : (standing source k).tokens.1.length = gaps.length + 1) {g : Bytes} (hg : Layout g)
    (hrest : source'.drop k' = g ++ (standing source k).spaced source gaps) :
    (standing source' k').tokens.1.map Token.lexeme = (standing source k).tokens.1.map Token.lexeme := by
  -- token by token; what is before the next token in the new source is the piece of layout `g`
  induction gaps generalizing k k' g with
  | nil =>
      rw [spaced, List.append_nil] at hrest
      rw [lexemes_layout hrest hg, lexemes_isLast hk ((isLast_next_iff _).mpr hlength) hfaults]
  | cons gap gaps ih =>
      obtain ⟨hgap, hgaps⟩ := List.forall_mem_cons.mp hgaps
      have hlast : (standing source k).next.1.lexeme.isLast = false := by
        refine Bool.eq_false_iff.mpr fun hl => ?_
        rw [(isLast_next_iff _).mp hl, List.length_cons] at hlength
        omega
      have htokens := tokens_of_not_isLast hlast
      have hscans : Scans source k (standing source k).next := scan_scans hk
      generalize hnext : (standing source k).next = x at hscans
      cases hscans with
      | eof | fault =>
          rw [hnext] at hlast
          cases hlast
      | @token a p q l hsource _ hbare hp hl hread =>
          rw [spaced, text_eq hk hsource hnext, hnext] at hrest
          rw [hnext] at htokens
          have hblank := hgap.2.append ((standing source (k + a.length + p.length)).spaced source gaps)
          obtain ⟨hnext', hrest'⟩ := next_respaced hrest hg hbare hp hread hblank
          have hlast' : (standing source' k').next.1.lexeme.isLast = false := by
            rw [hnext']
            exact hl
          rw [htokens] at hfaults hlength
          rw [htokens, tokens_of_not_isLast hlast', hnext', List.map_cons, List.map_cons]
          refine congrArg (l :: ·) (ih hgaps (end_le hk hsource) ?_ ?_ hgap.1 hrest')
          · exact (List.forall_mem_cons.mp hfaults).2
          · exact Nat.add_right_cancel hlength

theorem lexemes_respaced {gaps : List Bytes} (hgaps : ∀ g ∈ gaps, IsSpacing g)
    (hfaults : ∀ t ∈ (ofSource source none).tokens.1, ∀ cause, t.lexeme ≠ .fault cause)
    (hlength : (ofSource source none).tokens.1.length = gaps.length + 1) :
    (ofSource (respaced source gaps) none).tokens.1.map Token.lexeme =
      (ofSource source none).tokens.1.map Token.lexeme := by
  have hhead : (ofSource source none).tokens.1[0]? = some (standing source 0).next.1 := tokens_head _
  have hrespaced : respaced source gaps =
      source.take (standing source 0).next.1.pos.offset ++ (standing source 0).spaced source gaps := rfl
  have hscans : Scans source 0 (standing source 0).next := scan_scans (Nat.zero_le _)
  generalize (standing source 0).next = x at hscans hhead hrespaced
  cases hscans with
  | @token a p q l hsource ha hbare hp hl hread =>
      have hle : 0 + a.length ≤ source.length := by
        rw [List.drop_zero] at hsource
        simp only [hsource, List.length_append]
        omega
      have hfirst : source.take (Position.ofOffset source (0 + a.length)).offset = a := by
        rw [Position.offset_ofOffset hle, Nat.zero_add, ← List.drop_zero (l := source), hsource, List.take_left]
      rw [ofSource_eq_standing (respaced source gaps)]
      apply lexemes_spaced hgaps (Nat.zero_le _) hfaults hlength ha
      rw [List.drop_zero, hrespaced, hfirst]
  | eof hg =>
      have hgaps : gaps = [] := by
        have hone := (tokens_getElem? hhead).2.mp rfl
        exact List.length_eq_zero_iff.mp (by omega)
      rw [hrespaced, hgaps, Position.offset_ofOffset (Nat.le_refl _), List.take_length, spaced, List.append_nil]
  | fault => exact absurd rfl (hfaults _ (List.mem_of_getElem? hhead) _)

end Scanner

end MiniLua

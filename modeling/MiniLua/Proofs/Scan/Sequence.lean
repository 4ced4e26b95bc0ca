import MiniLua.Proofs.Scan.Tiling

/-!
The tokens of a source one after the other. Each is read where the layout behind the one before it ends, so their places
ascend.
-/

namespace MiniLua

open Text

namespace Position

theorem count_take_le (source : Bytes) {k j : Nat} (h : k ≤ j) :
    (source.take k).count newline ≤ (source.take j).count newline :=
  (List.take_sublist_take_left h).count_le newline

theorem line_ofOffset (source : Bytes) (k : Nat) : (ofOffset source k).line = 1 + (source.take k).count newline := by
  rw [ofOffset, start_after]

theorem line_ofOffset_le (source : Bytes) {k j : Nat} (h : k ≤ j) :
    (ofOffset source k).line ≤ (ofOffset source j).line := by
  rw [line_ofOffset, line_ofOffset]
  exact Nat.add_le_add_left (count_take_le source h) 1

end Position

namespace Scanner

open Scan

variable {source : Bytes} {k : Nat}

/-- The tokens that are read from an offset of the source on. -/
inductive Reads (source : Bytes) : Nat → List Token → Prop
  | last {k o : Nat} {l : Lexeme} (hk : k ≤ o) (ho : o ≤ source.length) (hl : l.isLast = true) :
      Reads source k [⟨l, .ofOffset source o⟩]
  | token {k : Nat} {g p q : Bytes} {l : Lexeme} {ts : List Token} (hrest : source.drop k = g ++ (p ++ q))
      (hg : Layout g) (hread : read (p ++ q) = .lexeme l p.length) (hp : 0 < p.length) (hl : l.isLast = false)
      (hts : Reads source (k + g.length + p.length) ts) :
      Reads source k (⟨l, .ofOffset source (k + g.length)⟩ :: ts)

theorem Scans.last {t : Token} {s : Scanner} (hk : k ≤ source.length) (h : Scans source k (t, s))
    (hl : t.lexeme.isLast = true) : Reads source k [t] := by
  cases h with
  | token _ _ _ _ hl' => cases hl.symm.trans hl'
  | eof => exact .last hk (Nat.le_refl _) hl
  | fault s hcause =>
      have hplace := hcause.place_le
      rw [List.length_drop] at hplace
      exact .last (Nat.le_add_right ..) (by omega) hl

/-- What is read where a scan finds a token that is not the last one. -/
theorem scan_token (hk : k ≤ source.length) (hl : (standing source k).scan.1.lexeme.isLast = false) :
    ∃ g p q l, source.drop k = g ++ (p ++ q) ∧ Layout g ∧ read (p ++ q) = .lexeme l p.length ∧ 0 < p.length ∧
      (standing source k).scan = (⟨l, .ofOffset source (k + g.length)⟩, standing source (k + g.length + p.length)) := by
  obtain ⟨g, r, hrest, hg, hbare⟩ : ∃ g r, source.drop k = g ++ r ∧ Layout g ∧ Bare r := by
    have hscans := scan_scans hk
    generalize (standing source k).scan = found at hscans hl
    cases hscans with
    | token hrest hg hbare => exact ⟨_, _, hrest, hg, hbare⟩
    | eof | fault => cases hl
  have hscan := scan_layout hrest hg hbare
  rw [hscan] at hl ⊢
  cases hread : read r with
  | stop stop =>
      rw [hread] at hl
      cases hl
  | lexeme l n =>
      rw [hread] at hl
      obtain ⟨hn, hr⟩ := read_length_pos hread hl
      obtain ⟨b, r, rfl⟩ := List.exists_cons_of_length_pos hr
      obtain ⟨p, q, heq, rfl, -⟩ := read_decided hread hn
      rw [heq] at hrest hread
      exact ⟨g, p, q, l, hrest, hg, hread, hn, rfl⟩

theorem tokens_reads (hk : k ≤ source.length) : Reads source k (standing source k).tokens.1 := by
  induction hn : source.length - k using Nat.strongRecOn generalizing k with
  | _ n ih =>
    cases hl : (standing source k).next.1.lexeme.isLast with
    | true =>
        rw [tokens_of_isLast hl]
        exact (scan_scans hk).last hk hl
    | false =>
        obtain ⟨g, p, q, l, hrest, hg, hread, hp, hscan⟩ := scan_token hk hl
        have hnext : (standing source k).next = (standing source k).scan := rfl
        have hend := end_le hk hrest
        rw [tokens_of_not_isLast hl]
        rw [hnext, hscan] at hl ⊢
        exact .token hrest hg hread hp hl (ih _ (by omega) hend rfl)

theorem ofSource_reads (source : Bytes) : Reads source 0 (ofSource source none).tokens.1 := tokens_reads (Nat.zero_le _)

/-- Each token lies behind what has been read before it. -/
theorem tile_getElem? {i : Nat} {t : Token} (h : (ofSource source none).tokens.1[i]? = some t) :
    Tile source ((ofSource source none).after i).cursor.pos.offset
      ((ofSource source none).after (i + 1)).cursor.pos.offset t := by
  obtain ⟨j, hj, hafter⟩ : ∃ j, j ≤ source.length ∧ (ofSource source none).after i = standing source j :=
    after_standing (Nat.zero_le _) h
  have hreach : (standing source j).cursor.pos.offset = j := Position.offset_ofOffset hj
  obtain ⟨rfl, -⟩ := tokens_getElem? h
  rw [after_succ, hafter, hreach]
  exact (scan_scans hj).tile hj

namespace Reads

variable {ts : List Token}

/-- The places of the tokens, from the first offset on. -/
theorem place (h : Reads source k ts) {t : Token} (ht : t ∈ ts) :
    ∃ o, k ≤ o ∧ t.pos = .ofOffset source o ∧ o ≤ source.length ∧ (t.lexeme.isLast = false → o < source.length) := by
  induction h with
  | last hk ho hl =>
      obtain rfl := List.mem_singleton.mp ht
      exact ⟨_, hk, rfl, ho, fun h => absurd (hl.symm.trans h) (by simp)⟩
  | @token k g p q l ts hrest hg hread hp hl hts ih =>
      rcases List.mem_cons.mp ht with rfl | ht
      · have hlength := congrArg List.length hrest
        simp only [List.length_drop, List.length_append] at hlength
        exact ⟨_, Nat.le_add_right .., rfl, by omega, fun _ => by omega⟩
      · obtain ⟨o, ho, hpos⟩ := ih ht
        exact ⟨o, by omega, hpos⟩

theorem pairwise_line (h : Reads source k ts) : ts.Pairwise fun t t' => t.pos.line ≤ t'.pos.line := by
  induction h with
  | last => exact List.pairwise_singleton ..
  | token hrest hg hread hp hl hts ih =>
      refine List.pairwise_cons.mpr ⟨fun t ht => ?_, ih⟩
      obtain ⟨o, ho, hpos, -⟩ := hts.place ht
      rw [hpos]
      exact Position.line_ofOffset_le source (by omega)

end Reads

end Scanner

end MiniLua

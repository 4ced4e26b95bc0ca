import MiniLua.Proofs.Scan.Sequence

/-!
Names stand apart: where the scanner finds a name, neither the byte before it nor the byte behind it could belong to a name.
Behind every lexeme that ends in such a byte another lexeme, or layout, starts with a byte that could not.
-/

namespace MiniLua

open Text

namespace Scan

/-- No name reaches the end of a text. -/
def NoNameLast (bs : Bytes) : Prop := ∀ b ∈ bs.getLast?, isNameByte b = false

/-- No name starts a text. -/
def NoNameFirst (bs : Bytes) : Prop := ∀ b ∈ bs.head?, isNameByte b = false

/-- No name goes across the border of two texts. -/
def Apart (a b : Bytes) : Prop := NoNameLast a ∨ NoNameFirst b

theorem NoNameLast.append {a b : Bytes} (ha : NoNameLast a) (hb : NoNameLast b) : NoNameLast (a ++ b) := by
  intro x hx
  rw [List.getLast?_append] at hx
  cases hlast : b.getLast? with
  | none =>
      rw [hlast] at hx
      exact ha x hx
  | some y =>
      rw [hlast] at hx
      cases hx
      exact hb _ hlast

theorem NoNameLast.append_of_ne_nil {b : Bytes} (hb : NoNameLast b) (hne : b ≠ []) (a : Bytes) : NoNameLast (a ++ b) := by
  intro x hx
  rw [List.getLast?_append, List.getLast?_eq_some_getLast hne] at hx
  exact hb x (List.getLast?_eq_some_getLast hne ▸ hx)

theorem NoNameLast.of_suffix {a b : Bytes} (hb : NoNameLast b) (h : a <:+ b) : NoNameLast a := by
  obtain ⟨c, rfl⟩ := h
  intro x hx
  apply hb
  rw [List.getLast?_append, Option.mem_def.mp hx]
  rfl

theorem NoNameFirst.takeWhile {bs : Bytes} (h : NoNameFirst bs) (p : UInt8 → Bool) : NoNameFirst (bs.takeWhile p) := by
  intro b hb
  obtain ⟨c, hc⟩ := List.takeWhile_prefix (l := bs) p
  apply h
  rw [← hc, List.head?_append, Option.mem_def.mp hb]
  rfl

theorem noNameLast_concat (a : Bytes) {b : UInt8} (hb : isNameByte b = false) : NoNameLast (a ++ [b]) := by
  intro x hx
  rw [List.getLast?_concat] at hx
  cases hx
  exact hb

theorem not_isNameByte_of_not_continues {b : UInt8} (h : continuesNumeral b = false) : isNameByte b = false := by
  cases hname : isNameByte b with
  | false => rfl
  | true => exact (continues_of_isNameByte hname).symm.trans h

/-- Layout ends in a blank or in a bracket. -/
theorem Layout.noNameLast {g : Bytes} (h : Layout g) : NoNameLast g := by
  induction h with
  | nil => exact fun _ h => by cases h
  | blank hb hr ih => exact NoNameLast.append (noNameLast_concat [] (not_isNameByte_of_not_continues (not_continues_of_isSpace hb))) ih
  | @line text r ht hr ih =>
      have hline : NoNameLast (dashes ++ text ++ [newline] ++ r) := (noNameLast_concat _ rfl).append ih
      simpa using hline
  | @long level body r hl hb hr ih =>
      have hbracket : NoNameLast (dashes ++ opener level ++ body ++ 0x5d :: List.replicate level 0x3d ++ [0x5d] ++ r) :=
        (noNameLast_concat _ rfl).append ih
      simpa [closer] using hbracket

/-- The last byte of a string is its mark. -/
theorem quotedBody_last {mark : UInt8} {n m : Nat} {bs c : Bytes} (h : quotedBody mark n bs = .ok (c, m)) :
    bs[m - n - 1]? = some mark := by
  fun_induction quotedBody mark n bs generalizing c with
  | case1 | case3 | case4 => cases h
  | case2 n r =>
      cases h
      rw [Nat.add_sub_cancel_left]
      rfl
  | case5 n r out k hescape hmark hline ih =>
      obtain ⟨⟨content, m'⟩, hbody, hp⟩ := map_eq_ok h
      cases hp
      have hlt := lt_of_quotedBody hbody
      have hlast := ih hbody
      rw [List.getElem?_drop] at hlast
      obtain ⟨i, hi⟩ : ∃ i, m - n - 1 = i + 1 := ⟨m - n - 2, by omega⟩
      rw [hi, List.getElem?_cons_succ, ← hlast]
      congr 1
      omega
  | case6 n b r hmark hline hplain ih =>
      obtain ⟨⟨content, m'⟩, hbody, hp⟩ := map_eq_ok h
      cases hp
      have hlt := lt_of_quotedBody hbody
      have hlast := ih hbody
      obtain ⟨i, hi⟩ : ∃ i, m - n - 1 = i + 1 := ⟨m - n - 2, by omega⟩
      rw [hi, List.getElem?_cons_succ, ← hlast]
      congr 1
      omega

variable {p q : Bytes} {l : Lexeme}

theorem bracket_apart {p : Bytes} (h : bracket (0x5b :: (p ++ q)) = .lexeme l (p.length + 1)) : NoNameLast (0x5b :: p) := by
  cases hopening : opening (p ++ q) with
  | long level =>
      obtain ⟨hl, rest, heq⟩ := eq_opener_of_opening hopening
      have hopener : 0x5b :: (p ++ q) = opener level ++ rest := by simp [opener, heq]
      rw [hopener, bracket_opener hl] at h
      cases hcontent : longContent level rest with
      | none =>
          rw [hcontent] at h
          cases h
      | some c =>
          obtain ⟨body, rest, hb, rfl, hc, hn⟩ := longContent_eq_some hcontent
          rw [hcontent] at h
          have hlength : level + 2 + c.2 = p.length + 1 := (Reading.lexeme.inj h).2
          have heq : (0x5b :: p) ++ q = (opener level ++ (body ++ closer level)) ++ rest := by
            rw [List.cons_append, hopener]
            simp only [List.append_assoc]
          have hp := (List.append_inj heq (by
            rw [List.length_cons, ← hlength, hn, List.length_append, List.length_append, length_opener, length_closer])).1
          have hlast : NoNameLast (opener level ++ (body ++ 0x5d :: List.replicate level 0x3d) ++ [0x5d]) :=
            noNameLast_concat _ rfl
          simpa [hp, closer] using hlast
  | broken =>
      rw [bracket, List.drop_one, List.tail_cons, hopening] at h
      cases h
  | plain =>
      rw [bracket, List.drop_one, List.tail_cons, hopening] at h
      have hlength : 1 = p.length + 1 := (Reading.lexeme.inj h).2
      obtain rfl : p = [] := List.eq_nil_of_length_eq_zero (by omega)
      exact noNameLast_concat [] rfl

theorem quotedString_apart {mark : UInt8} (hm : mark = 0x22 ∨ mark = 0x27)
    (h : quotedString mark (p ++ q) = .lexeme l (p.length + 1)) : NoNameLast (mark :: p) := by
  unfold quotedString at h
  split at h
  · next content n hbody =>
    obtain rfl : n = p.length + 1 := (Reading.lexeme.inj h).2
    have hlt := lt_of_quotedBody hbody
    have hlast := quotedBody_last hbody
    rw [Nat.add_sub_cancel, List.getElem?_append_left (by omega), ← List.getLast?_eq_getElem?] at hlast
    intro b hb
    rw [List.getLast?_cons, hlast] at hb
    cases hb
    rcases hm with rfl | rfl <;> rfl
  · cases h

theorem word_apart (h : word (p ++ q) = .lexeme l p.length) :
    p = (p ++ q).takeWhile isNameByte ∧ NoNameFirst q := by
  have hlength : ((p ++ q).takeWhile isNameByte).length = p.length := (Reading.lexeme.inj h).2
  have hsplit := List.takeWhile_append_dropWhile (p := isNameByte) (l := p ++ q)
  obtain ⟨hp, hq⟩ := List.append_inj hsplit hlength
  refine ⟨hp.symm, fun b hb => ?_⟩
  have hhead := List.head?_dropWhile_not isNameByte (p ++ q)
  rw [hq, hb] at hhead
  simpa using hhead

theorem symbol_bytes_notName (s : Symbol) : ∀ b ∈ s.bytes, isNameByte b = false := by
  have hall : s.bytes.all (fun b => isNameByte b == false) = true := by cases s <;> decide
  intro b hb
  simpa using List.all_eq_true.mp hall b hb

/-- A lexeme and what is behind it are not parts of one name. -/
theorem read_apart (h : read (p ++ q) = .lexeme l p.length) (hp : 0 < p.length) : Apart p q := by
  obtain ⟨b, p, rfl⟩ := List.exists_cons_of_length_pos hp
  rw [List.cons_append, read] at h
  -- Strings and symbols end in a byte that no name has; numerals and words take all such bytes that follow.
  split at h
  · next hb =>
    subst hb
    exact .inl (bracket_apart h)
  · split at h
    · next hquote => exact .inl (quotedString_apart hquote h)
    · split at h
      · have hstops := (numeral_bounds h).2
        rw [← List.cons_append, List.drop_left] at hstops
        exact .inr fun b hb => not_isNameByte_of_not_continues (hstops b hb)
      · split at h
        · have hword : word ((b :: p) ++ q) = .lexeme l (b :: p).length := h
          exact .inr (word_apart hword).2
        · split at h
          · next s hs =>
            have hlength := (Reading.lexeme.inj h).2
            obtain ⟨rest, hrest⟩ := (Symbol.leading?_eq_some hs).1
            obtain ⟨hp, -⟩ := List.append_inj hrest hlength
            exact .inl fun b hb => symbol_bytes_notName s b (hp ▸ List.mem_of_getLast? hb)
          · cases h

theorem word_of_name {b : UInt8} {r w : Bytes} {n : Nat} (h : read (b :: r) = .lexeme (.name w) n) :
    word (b :: r) = .lexeme (.name w) n := by
  rw [read] at h
  split at h
  · unfold bracket at h
    repeat' split at h
    all_goals cases h
  · split at h
    · unfold quotedString at h
      split at h <;> cases h
    · split at h
      · cases numeral_isNumber h
      · split at h
        · exact h
        · split at h <;> cases h

/-- A name is read by its bytes. -/
theorem read_name {w : Bytes} (h : read (p ++ q) = .lexeme (.name w) p.length) (hp : 0 < p.length) :
    p = w ∧ (∀ b ∈ w, isNameByte b = true) ∧ NoNameFirst q := by
  obtain ⟨b, p, rfl⟩ := List.exists_cons_of_length_pos hp
  have hword : word ((b :: p) ++ q) = .lexeme (.name w) (b :: p).length := word_of_name h
  obtain ⟨hp, hq⟩ := word_apart hword
  have hw : (b :: p ++ q).takeWhile isNameByte = w := by
    have hl := (Reading.lexeme.inj hword).1
    cases hk : Keyword.ofBytes? ((b :: p ++ q).takeWhile isNameByte) with
    | none =>
        rw [hk] at hl
        exact Lexeme.name.inj hl
    | some k =>
        rw [hk] at hl
        cases hl
  rw [← hw]
  exact ⟨hp, List.all_eq_true.mp List.all_takeWhile, hq⟩

end Scan

namespace Scanner

open Scan

variable {source : Bytes} {k : Nat} {ts : List Token}

/-- A name stands at an offset, and no bytes of a name around it. -/
structure Word (source : Bytes) (o : Nat) (w : Bytes) : Prop where
  ne_nil : w ≠ []
  isName : ∀ b ∈ w, isNameByte b = true
  spelled : ∃ q, source.drop o = w ++ q ∧ NoNameFirst q
  before : NoNameLast (source.take o)

theorem take_drop_split {g r : Bytes} (h : source.drop k = g ++ r) :
    source.take (k + g.length) = source.take k ++ g ∧ source.drop (k + g.length) = r := by
  constructor
  · rw [List.take_add, h, List.take_left]
  · rw [← List.drop_drop, h, List.drop_left]

/-- Where only layout stands before a name, no name reaches up to it. -/
theorem noNameLast_take {g w r : Bytes} (hk : Apart (source.take k) (source.drop k)) (hrest : source.drop k = g ++ (w ++ r))
    (hg : Layout g) (hw : w ≠ []) (hname : ∀ b ∈ w, isNameByte b = true) : NoNameLast (source.take (k + g.length)) := by
  rw [(take_drop_split hrest).1]
  rcases hk with hk | hk
  · exact hk.append hg.noNameLast
  · cases g with
    | cons x g => exact hg.noNameLast.append_of_ne_nil (List.cons_ne_nil x g) _
    | nil =>
        obtain ⟨b, w, rfl⟩ := List.exists_cons_of_ne_nil hw
        have hb := hk b (by rw [hrest]; rfl)
        exact absurd (hname b List.mem_cons_self) (by simp [hb])

theorem apart_behind {g p q : Bytes} {l : Lexeme} (hrest : source.drop k = g ++ (p ++ q))
    (hread : read (p ++ q) = .lexeme l p.length) (hp : 0 < p.length) :
    Apart (source.take (k + g.length + p.length)) (source.drop (k + g.length + p.length)) := by
  obtain ⟨-, hdrop⟩ := take_drop_split hrest
  obtain ⟨htake, hbehind⟩ := take_drop_split hdrop
  rw [htake, hbehind]
  exact (read_apart hread hp).imp_left fun h => h.append_of_ne_nil (List.ne_nil_of_length_pos hp) _

namespace Reads

theorem word (h : Reads source k ts) (hk : Apart (source.take k) (source.drop k)) {t : Token} (ht : t ∈ ts)
    {w : Bytes} (hw : t.lexeme = .name w) : t.pos = .ofOffset source t.pos.offset ∧ Word source t.pos.offset w := by
  induction h with
  | last _ _ hl =>
      obtain rfl := List.mem_singleton.mp ht
      cases hw
      cases hl
  | @token k g p q l ts hrest hg hread hp hl hts ih =>
      rcases List.mem_cons.mp ht with rfl | ht
      · cases hw
        obtain ⟨rfl, hname, hq⟩ := read_name hread hp
        have hlength := congrArg List.length hrest
        simp only [List.length_drop, List.length_append] at hlength
        have hoffset : (Position.ofOffset source (k + g.length)).offset = k + g.length :=
          Position.offset_ofOffset (by omega)
        have hne := List.ne_nil_of_length_pos hp
        refine ⟨by rw [hoffset], hne, hname, ⟨q, ?_, hq⟩, ?_⟩
        · rw [hoffset]
          exact (take_drop_split hrest).2
        · rw [hoffset]
          exact noNameLast_take hk hrest hg hne hname
      · exact ih (apart_behind hrest hread hp) ht

theorem pairwise_word (h : Reads source k ts) :
    ts.Pairwise fun t t' => ∀ w, t.lexeme = .name w → t.pos.offset + w.length ≤ t'.pos.offset := by
  induction h with
  | last => exact List.pairwise_singleton ..
  | @token k g p q l ts hrest hg hread hp hl hts ih =>
      refine List.pairwise_cons.mpr ⟨fun t ht w hw => ?_, ih⟩
      cases hw
      obtain ⟨rfl, -⟩ := read_name hread hp
      obtain ⟨o, ho, hpos, hle, -⟩ := hts.place ht
      rw [hpos, Position.offset_ofOffset hle, Position.offset_ofOffset (by omega)]
      exact ho

end Reads

end Scanner

end MiniLua

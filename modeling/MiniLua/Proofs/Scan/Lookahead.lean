import MiniLua.Proofs.Scan.Layout
import MiniLua.Proofs.Scan.Numerals
import MiniLua.Proofs.Scan.Strings

/-!
How far lexemes are read. A lexeme in front of a blank is the one that its bytes make, whatever follows the blank.
-/

namespace MiniLua

open Text

namespace Symbol

/-- The longer of two symbols; the first if they are of one length. -/
def longer (best : Option Symbol) (s : Symbol) : Option Symbol :=
  match best with
  | some t => if t.bytes.length < s.bytes.length then some s else some t
  | none => some s

theorem foldl_longer (ss : List Symbol) (t : Symbol) :
    ∃ s, ss.foldl longer (some t) = some s ∧ (s = t ∨ s ∈ ss) ∧
      ∀ u, u = t ∨ u ∈ ss → u.bytes.length ≤ s.bytes.length := by
  induction ss generalizing t with
  | nil => exact ⟨t, rfl, .inl rfl, by simp⟩
  | cons s ss ih =>
      rw [List.foldl_cons, longer]
      split
      · next hlt =>
        obtain ⟨best, heq, hmem, hmax⟩ := ih s
        refine ⟨best, heq, .inr (List.mem_cons.mpr hmem), ?_⟩
        rintro u (rfl | hu)
        · exact Nat.le_trans (Nat.le_of_lt hlt) (hmax s (.inl rfl))
        · exact hmax u (List.mem_cons.mp hu)
      · next hge =>
        obtain ⟨best, heq, hmem, hmax⟩ := ih t
        refine ⟨best, heq, hmem.imp_right (List.mem_cons_of_mem s), ?_⟩
        rintro u (rfl | hu)
        · exact hmax u (.inl rfl)
        · rcases List.mem_cons.mp hu with rfl | hu
          · exact Nat.le_trans (Nat.le_of_not_lt hge) (hmax t (.inl rfl))
          · exact hmax u (.inr hu)

theorem mem_all (s : Symbol) : s ∈ all := by cases s <;> decide

/-- The symbol at the head is the longest of all that stand there. -/
theorem leading?_eq_some {bs : Bytes} {s : Symbol} (h : leading? bs = some s) :
    s.bytes <+: bs ∧ ∀ t : Symbol, t.bytes <+: bs → t.bytes.length ≤ s.bytes.length := by
  have hmem (t : Symbol) : t ∈ all.filter (fun u => u.bytes.isPrefixOf bs) ↔ t.bytes <+: bs := by
    rw [List.mem_filter, List.isPrefixOf_iff_prefix]
    exact and_iff_right (mem_all t)
  change (all.filter fun u => u.bytes.isPrefixOf bs).foldl longer none = some s at h
  cases hheads : all.filter (fun u => u.bytes.isPrefixOf bs) with
  | nil =>
      rw [hheads] at h
      cases h
  | cons t ts =>
      rw [hheads] at h hmem
      obtain ⟨best, heq, hbest, hmax⟩ := foldl_longer ts t
      obtain rfl : best = s := Option.some.inj (heq.symm.trans h)
      constructor
      · exact (hmem best).mp (List.mem_cons.mpr hbest)
      · intro u hu
        exact hmax u (List.mem_cons.mp ((hmem u).mpr hu))

theorem leading?_isSome {bs : Bytes} {s : Symbol} (h : s.bytes <+: bs) : ∃ t, leading? bs = some t := by
  have hmem : s ∈ all.filter fun u => u.bytes.isPrefixOf bs :=
    List.mem_filter.mpr ⟨mem_all s, List.isPrefixOf_iff_prefix.mpr h⟩
  change ∃ t, (all.filter fun u => u.bytes.isPrefixOf bs).foldl longer none = some t
  cases hheads : all.filter (fun u => u.bytes.isPrefixOf bs) with
  | nil =>
      rw [hheads] at hmem
      cases hmem
  | cons t ts =>
      obtain ⟨best, heq, _⟩ := foldl_longer ts t
      exact ⟨best, heq⟩

theorem leading?_bytes (s : Symbol) : leading? s.bytes = some s := by cases s <;> decide

theorem bytes_injective {s t : Symbol} (h : s.bytes = t.bytes) : s = t := by
  have hleading := leading?_bytes s
  rw [h, leading?_bytes t] at hleading
  exact (Option.some.inj hleading).symm

theorem isSpace_of_mem_bytes (s : Symbol) : ∀ b ∈ s.bytes, isSpace b = false := by
  have hall : s.bytes.all (!isSpace ·) = true := by cases s <;> decide
  simpa using hall

/-- A symbol in front of a blank is not part of a longer one. -/
theorem leading?_append (s : Symbol) {b : UInt8} (hb : isSpace b = true) (r : Bytes) :
    leading? (s.bytes ++ b :: r) = some s := by
  have hs : s.bytes <+: s.bytes ++ b :: r := List.prefix_append ..
  obtain ⟨t, ht⟩ := leading?_isSome hs
  obtain ⟨hhead, hmax⟩ := leading?_eq_some ht
  have hle : t.bytes.length ≤ s.bytes.length := by
    refine Nat.le_of_not_lt fun hlt => ?_
    have hblank : s.bytes ++ [b] <+: s.bytes ++ b :: r := ⟨r, by simp⟩
    have hlong : s.bytes ++ [b] <+: t.bytes := by
      apply List.prefix_of_prefix_length_le hblank hhead
      rw [List.length_append]
      exact hlt
    have hnone := isSpace_of_mem_bytes t b (hlong.subset (by simp))
    rw [hb] at hnone
    cases hnone
  have heq : t.bytes = s.bytes := by
    apply (List.prefix_of_prefix_length_le hhead hs hle).eq_of_length
    exact Nat.le_antisymm hle (hmax s hs)
  rw [ht, bytes_injective heq]

end Symbol

namespace Scan

def StartsBlank (bs : Bytes) : Prop := ∃ b r, bs = b :: r ∧ isSpace b = true

theorem not_continues_of_isSpace {b : UInt8} (h : isSpace b = true) : continuesNumeral b = false := by
  simp only [isSpace, Bool.or_eq_true, Bool.and_eq_true, beq_iff_eq, decide_eq_true_eq] at h
  simp only [continuesNumeral, isNameByte, isLetter, isDigit, Bool.or_eq_false_iff, Bool.and_eq_false_iff,
    beq_eq_false_iff_ne, decide_eq_false_iff_not]
  grind

theorem StartsBlank.stops {bs : Bytes} (h : StartsBlank bs) : Stops bs := by
  obtain ⟨b, r, rfl, hb⟩ := h
  intro c hc
  exact Option.some.inj hc ▸ not_continues_of_isSpace hb

theorem startsNumeral_symbol (s : Symbol) {q : Bytes} (hq : StartsBlank q) : startsNumeral (s.bytes ++ q) = false := by
  obtain ⟨b, r, rfl, hb⟩ := hq
  have hdigit : isDigit b = false := by
    refine Bool.eq_false_iff.mpr fun hd => ?_
    simpa [continues_of_isDigit hd] using not_continues_of_isSpace hb
  cases s with
  | dot => exact hdigit
  | _ => rfl

theorem first_symbol (s : Symbol) (hs : s ≠ .leftBracket) :
    ∃ c t, s.bytes = c :: t ∧ c ≠ 0x5b ∧ ¬ (c = 0x22 ∨ c = 0x27) ∧ isLetter c = false := by
  cases s with
  | leftBracket => exact absurd rfl hs
  | _ => exact ⟨_, _, rfl, by decide, by decide, by decide⟩

/-! What reads a lexeme is chosen by its first byte, or by the first two. -/

theorem read_quote {mark : UInt8} (hm : mark = 0x22 ∨ mark = 0x27) (r : Bytes) :
    read (mark :: r) = quotedString mark r := by
  rcases hm with rfl | rfl <;> rfl

theorem read_numeral {bs : Bytes} (h : startsNumeral bs = true) : read bs = numeral bs := by
  cases bs with
  | nil => cases h
  | cons b r =>
      have hbracket : b ≠ 0x5b := by
        rintro rfl
        exact absurd h Bool.false_ne_true
      have hquote : ¬ (b = 0x22 ∨ b = 0x27) := by
        rintro (rfl | rfl) <;> exact absurd h Bool.false_ne_true
      rw [read, if_neg hbracket, if_neg hquote, if_pos h]

theorem startsNumeral_cons {b : UInt8} (hb : b ≠ 0x2e) (r : Bytes) : startsNumeral (b :: r) = isDigit b := by
  unfold startsNumeral
  split
  · next heq => exact absurd (List.cons.inj heq).1 hb
  · next heq => rw [(List.cons.inj heq).1]
  · next heq => cases heq

theorem isLetter_apart {b : UInt8} (h : isLetter b = true) :
    b ≠ 0x5b ∧ ¬ (b = 0x22 ∨ b = 0x27) ∧ b ≠ 0x2e ∧ isDigit b = false := by
  simp only [isLetter, Bool.or_eq_true, Bool.and_eq_true, beq_iff_eq, decide_eq_true_eq] at h
  simp only [isDigit, Bool.and_eq_false_iff, decide_eq_false_iff_not]
  grind

theorem read_word {b : UInt8} (hb : isLetter b = true) (r : Bytes) : read (b :: r) = word (b :: r) := by
  obtain ⟨hbracket, hquote, hpoint, hdigit⟩ := isLetter_apart hb
  rw [read, if_neg hbracket, if_neg hquote, startsNumeral_cons hpoint, if_neg (by simp [hdigit]), if_pos hb]

theorem read_symbol {s : Symbol} (hs : s ≠ .leftBracket) {q : Bytes} (hq : StartsBlank q) :
    read (s.bytes ++ q) = .lexeme (.symbol s) s.bytes.length := by
  have hleading : Symbol.leading? (s.bytes ++ q) = some s := by
    obtain ⟨b, r, rfl, hb⟩ := hq
    exact s.leading?_append hb r
  have hnumeral := startsNumeral_symbol s hq
  obtain ⟨c, t, heq, hbracket, hquote, hletter⟩ := first_symbol s hs
  rw [heq, List.cons_append] at hleading hnumeral ⊢
  rw [read, if_neg hbracket, if_neg hquote, if_neg (by simp [hnumeral]), if_neg (by simp [hletter]), hleading]
  dsimp only
  rw [heq]

/-- The lexeme at the head is made by `n` bytes, which make it in front of any blank. -/
def Decided (f : Bytes → Reading) (bs : Bytes) (l : Lexeme) (n : Nat) : Prop :=
  ∃ p q, bs = p ++ q ∧ p.length = n ∧ ∀ q', StartsBlank q' → f (p ++ q') = .lexeme l n

theorem word_decided {bs : Bytes} {l : Lexeme} {n : Nat} (h : word bs = .lexeme l n) : Decided word bs l n := by
  cases h
  refine ⟨bs.takeWhile isNameByte, bs.dropWhile isNameByte, List.takeWhile_append_dropWhile.symm, rfl, ?_⟩
  intro q hq
  have hall : ∀ b ∈ bs.takeWhile isNameByte, isNameByte b = true := List.all_eq_true.mp List.all_takeWhile
  have hend : q.takeWhile isNameByte = [] :=
    takeWhile_append_stops (a := []) (fun _ => continues_of_isNameByte) hq.stops
  rw [word, List.takeWhile_append_of_pos hall, hend, List.append_nil]

theorem numeral_decided {bs : Bytes} {l : Lexeme} {n : Nat} (hn : 0 < n) (h : numeral bs = .lexeme l n) :
    Decided numeral bs l n := by
  obtain ⟨hle, hstops⟩ := numeral_bounds h
  obtain ⟨p, q, rfl, rfl⟩ : ∃ p q, bs = p ++ q ∧ p.length = n :=
    ⟨bs.take n, bs.drop n, (List.take_append_drop n bs).symm, List.length_take_of_le hle⟩
  rw [List.drop_left] at hstops
  exact ⟨p, q, rfl, rfl, fun q' hq' => numeral_append h hn hstops hq'.stops⟩

/-- A long string, once what is behind its opening bracket is known. -/
def longString (level length : Nat) : Option (Bytes × Nat) → Reading
  | some (content, n) => .lexeme (.string content) (level + 2 + n)
  | none => .stop ⟨.unfinishedLongString, 0, length⟩

theorem bracket_opener {level : Nat} (hl : level < window) (r : Bytes) :
    bracket (opener level ++ r) = longString level (opener level ++ r).length (longContent level r) := by
  have hdrop : (opener level ++ r).drop (level + 2) = r := List.drop_left' (length_opener level)
  have hopening : opening ((opener level ++ r).drop 1) = .long level := by
    simpa [opener] using opening_opener hl r
  rw [bracket, hopening]
  dsimp only
  rw [hdrop]
  cases longContent level r <;> rfl

theorem bracket_blank {q : Bytes} (hq : StartsBlank q) : bracket (0x5b :: q) = .lexeme (.symbol .leftBracket) 1 := by
  obtain ⟨b, r, rfl, hb⟩ := hq
  have hsign : b ≠ 0x3d ∧ b ≠ 0x5b := by
    constructor <;> rintro rfl <;> exact absurd hb (by decide)
  have hopening : opening (b :: r) = .plain := by simp [opening, hsign]
  rw [bracket, List.drop_one, List.tail_cons, hopening]

theorem bracket_decided {r : Bytes} {l : Lexeme} {n : Nat} (h : bracket (0x5b :: r) = .lexeme l n) :
    Decided bracket (0x5b :: r) l n := by
  cases hopening : opening r with
  | long level =>
      obtain ⟨hl, rest, rfl⟩ := eq_opener_of_opening hopening
      have heq : 0x5b :: (List.replicate level 0x3d ++ 0x5b :: rest) = opener level ++ rest := by simp [opener]
      rw [heq] at h ⊢
      rw [bracket_opener hl] at h
      cases hcontent : longContent level rest with
      | none =>
          rw [hcontent] at h
          cases h
      | some c =>
          rw [hcontent] at h
          cases h
          obtain ⟨body, rest, hb, rfl, hc, hn⟩ := longContent_eq_some hcontent
          refine ⟨opener level ++ (body ++ closer level), rest, ?_, ?_, ?_⟩
          · simp only [List.append_assoc]
          · rw [hn, List.length_append, List.length_append, length_opener, length_closer]
          · intro q _
            rw [List.append_assoc, List.append_assoc, bracket_opener hl, longContent_enclosed hb, hc, hn]
            rfl
  | broken =>
      rw [bracket, List.drop_one, List.tail_cons, hopening] at h
      cases h
  | plain =>
      rw [bracket, List.drop_one, List.tail_cons, hopening] at h
      cases h
      exact ⟨[0x5b], r, rfl, rfl, fun q hq => bracket_blank hq⟩

theorem quotedString_decided {mark : UInt8} {r : Bytes} {l : Lexeme} {n : Nat}
    (h : quotedString mark r = .lexeme l n) :
    ∃ p q, r = p ++ q ∧ p.length + 1 = n ∧ ∀ q', quotedString mark (p ++ q') = .lexeme l n := by
  unfold quotedString at h
  split at h
  · next content n hbody =>
    cases h
    have hlt := lt_of_quotedBody hbody
    have hle : n - 1 ≤ r.length := (quotedBody_agree hbody rfl).1
    have hlength : (r.take (n - 1)).length = n - 1 := List.length_take_of_le hle
    refine ⟨r.take (n - 1), r.drop (n - 1), (List.take_append_drop _ r).symm, ?_, ?_⟩
    · omega
    · intro q'
      have hagree : Agree (n - 1) r (r.take (n - 1) ++ q') := List.take_left' hlength
      rw [quotedString, (quotedBody_agree hbody hagree).2]
  · cases h

/-- The first bytes of a numeral tell that it is one. -/
theorem startsNumeral_append {p q q' : Bytes} {l : Lexeme} (hp : 0 < p.length) (hs : startsNumeral (p ++ q) = true)
    (h : numeral (p ++ q) = .lexeme l p.length) : startsNumeral (p ++ q') = true := by
  cases p with
  | nil => cases hp
  | cons b p =>
      by_cases hb : b = 0x2e
      · subst hb
        cases p with
        | cons c p => exact hs
        | nil =>
            cases q with
            | nil => exact absurd hs (by decide)
            | cons d q => exact absurd (two_le_of_point hs h) (by simp)
      · rw [List.cons_append, startsNumeral_cons hb] at hs ⊢
        exact hs

theorem Decided.read_of {f : Bytes → Reading} {bs : Bytes} {l : Lexeme} {n : Nat} (h : Decided f bs l n)
    (hf : ∀ p q', p <+: bs → p.length = n → read (p ++ q') = f (p ++ q')) : Decided read bs l n := by
  obtain ⟨p, q, rfl, hlength, hp⟩ := h
  refine ⟨p, q, rfl, hlength, ?_⟩
  intro q' hq'
  rw [hf p q' (List.prefix_append p q) hlength]
  exact hp q' hq'

theorem read_decided {b : UInt8} {r : Bytes} {l : Lexeme} {n : Nat} (h : read (b :: r) = .lexeme l n) (hn : 0 < n) :
    Decided read (b :: r) l n := by
  -- the bytes of the lexeme start with `b`
  have hfirst {p : Bytes} (hp : p <+: b :: r) (hlength : p.length = n) : ∃ t, p = b :: t := by
    rcases List.prefix_cons_iff.mp hp with rfl | ⟨t, rfl, _⟩
    · exact absurd hn (by simp [← hlength])
    · exact ⟨t, rfl⟩
  by_cases hbracket : b = 0x5b
  · subst hbracket
    refine (bracket_decided h).read_of fun p q hp hlength => ?_
    obtain ⟨t, rfl⟩ := hfirst hp hlength
    rfl
  · by_cases hquote : b = 0x22 ∨ b = 0x27
    · rw [read_quote hquote] at h
      obtain ⟨p, q, rfl, hlength, hp⟩ := quotedString_decided h
      refine ⟨b :: p, q, rfl, hlength, fun q' _ => ?_⟩
      rw [List.cons_append, read_quote hquote]
      exact hp q'
    · by_cases hnumeral : startsNumeral (b :: r) = true
      · rw [read_numeral hnumeral] at h
        refine (numeral_decided hn h).read_of fun p q' hp hlength => ?_
        obtain ⟨q, hq⟩ := hp
        subst hlength
        rw [← hq] at h hnumeral
        exact read_numeral (startsNumeral_append hn hnumeral h)
      · by_cases hletter : isLetter b = true
        · rw [read_word hletter] at h
          refine (word_decided h).read_of fun p q hp hlength => ?_
          obtain ⟨t, rfl⟩ := hfirst hp hlength
          exact read_word hletter _
        · rw [read, if_neg hbracket, if_neg hquote, if_neg hnumeral, if_neg hletter] at h
          split at h
          · next s hs =>
            cases h
            obtain ⟨t, ht⟩ := (Symbol.leading?_eq_some hs).1
            refine ⟨s.bytes, t, ht.symm, rfl, fun q hq => read_symbol ?_ hq⟩
            rintro rfl
            exact hbracket (List.cons.inj ht).1.symm
          · cases h

end Scan

end MiniLua

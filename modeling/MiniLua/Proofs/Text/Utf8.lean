import MiniLua.Text.Utf8

/-!
Texts: byte strings that are UTF-8. A byte string is read character by character, and a new one begins at each byte that
continues none. So texts one after the other are a text, a text can be cut before such a byte, and every string of ASCII
is a text. Each character has one encoding.
-/

namespace MiniLua.Text

/-- The encodings of one character, by their length. -/
inductive Encodes : Nat → Bytes → Prop where
  | one {a : UInt8} (ha : a < 0x80) : Encodes a.toNat [a]
  | two {a b : UInt8} (hlow : 0xc2 ≤ a) (hhigh : a ≤ 0xdf) (hb : isContinuation b = true) :
      Encodes (a.toNat % 0x20 * 0x40 + low6 b) [a, b]
  | three {a b c : UInt8} (hlow : 0xe0 ≤ a) (hhigh : a ≤ 0xef) (hb : isSecond a b = true)
      (hc : isContinuation c = true) : Encodes (a.toNat % 0x10 * 0x1000 + low6 b * 0x40 + low6 c) [a, b, c]
  | four {a b c d : UInt8} (hlow : 0xf0 ≤ a) (hhigh : a ≤ 0xf4) (hb : isSecond a b = true)
      (hc : isContinuation c = true) (hd : isContinuation d = true) :
      Encodes (a.toNat % 0x08 * 0x40000 + low6 b * 0x1000 + low6 c * 0x40 + low6 d) [a, b, c, d]

theorem decodeScalar_ascii {a : UInt8} (h : a < 0x80) (r : Bytes) : decodeScalar (a :: r) = some (a.toNat, 1) :=
  if_pos h

theorem isSecond_iff (a b : UInt8) :
    isSecond a b = true ↔ isContinuation b = true ∧ (a = 0xe0 → 0xa0 ≤ b) ∧ (a = 0xed → b ≤ 0x9f) ∧
      (a = 0xf0 → 0x90 ≤ b) ∧ (a = 0xf4 → b ≤ 0x8f) := by
  simp only [isSecond, secondRange, isContinuation]
  grind

namespace Encodes

variable {code : Nat} {e : Bytes}

theorem decodeScalar_append (h : Encodes code e) (rest : Bytes) :
    decodeScalar (e ++ rest) = some (code, e.length) := by
  cases h with
  | one ha => exact decodeScalar_ascii ha rest
  | two hlow hhigh hb => grind [decodeScalar]
  | three hlow hhigh hb hc => grind [decodeScalar]
  | four hlow hhigh hb hc hd => grind [decodeScalar]

/-- An encoding is a byte that continues none, and at most three that do. -/
theorem eq_cons (h : Encodes code e) :
    ∃ lead tail, e = lead :: tail ∧ isContinuation lead = false ∧ tail.length ≤ 3 ∧
      (∀ b ∈ tail, isContinuation b = true) ∧ (lead < 0x80 → code = lead.toNat) := by
  have hlead {a : UInt8} (ha : 0xc2 ≤ a) : isContinuation a = false ∧ ¬ a < 0x80 := by grind [isContinuation]
  have hsecond {a b : UInt8} (hb : isSecond a b = true) : isContinuation b = true := ((isSecond_iff a b).mp hb).1
  cases h with
  | one ha => exact ⟨_, [], rfl, by grind [isContinuation], by simp⟩
  | two hlow hhigh hb =>
      refine ⟨_, _, rfl, ?_⟩
      grind
  | three hlow hhigh hb hc =>
      refine ⟨_, _, rfl, ?_⟩
      grind
  | four hlow hhigh hb hc hd =>
      refine ⟨_, _, rfl, ?_⟩
      grind

/-- An encoding does not reach over a byte that continues none. -/
theorem prefix_of_append {rest a r : Bytes} {b : UInt8} (h : Encodes code e) (hb : isContinuation b = false)
    (ha : a ≠ []) (heq : e ++ rest = a ++ b :: r) : e <+: a := by
  obtain ⟨lead, tail, rfl, -, -, htail, -⟩ := h.eq_cons
  rcases List.append_eq_append_iff.mp heq with ⟨r', rfl, -⟩ | ⟨r', hlead, hr⟩
  · exact List.prefix_append ..
  · cases r' with
    | nil => exact ⟨[], by rw [List.append_nil, hlead, List.append_nil]⟩
    | cons b' r' =>
        obtain ⟨x, a, rfl⟩ := List.exists_cons_of_ne_nil ha
        obtain rfl : b = b' := (List.cons.inj hr).1
        rw [List.cons_append, List.cons.injEq] at hlead
        have hmem : b ∈ tail := hlead.2 ▸ List.mem_append_right a List.mem_cons_self
        cases hb.symm.trans (htail b hmem)

end Encodes

theorem encodes_of_decodeScalar {bs : Bytes} {code width : Nat} (h : decodeScalar bs = some (code, width)) :
    ∃ e rest, bs = e ++ rest ∧ Encodes code e := by
  revert h
  fun_cases decodeScalar bs <;> intro h <;> cases h
  case case2.refl ha => exact ⟨[_], _, rfl, .one ha⟩
  case case3.refl ha b rest hb =>
    simp only [Bool.and_eq_true, decide_eq_true_eq] at ha
    exact ⟨[_, b], rest, rfl, .two ha.1 ha.2 hb⟩
  case case6.refl ha b c rest hb =>
    simp only [Bool.and_eq_true, decide_eq_true_eq] at ha hb
    exact ⟨[_, b, c], rest, rfl, .three ha.1 ha.2 hb.1 hb.2⟩
  case case9.refl ha b c d rest hb =>
    simp only [Bool.and_eq_true, decide_eq_true_eq] at ha hb
    exact ⟨[_, b, c, d], rest, rfl, .four ha.1 ha.2 hb.1.1 hb.1.2 hb.2⟩

theorem runes_nil : runes [] = [] := by rw [runes]

theorem runes_encoding {code : Nat} {e : Bytes} (h : Encodes code e) (rest : Bytes) :
    runes (e ++ rest) = .scalar code :: runes rest := by
  obtain ⟨lead, tail, rfl, -⟩ := h.eq_cons
  have hdecode := h.decodeScalar_append rest
  rw [List.cons_append] at hdecode ⊢
  rw [runes, hdecode]
  simp

theorem runes_ascii {b : UInt8} (hb : b < 0x80) (rest : Bytes) : runes (b :: rest) = .scalar b.toNat :: runes rest :=
  runes_encoding (.one hb) rest

theorem runes_stray {b : UInt8} {rest : Bytes} (h : decodeScalar (b :: rest) = none) :
    runes (b :: rest) = .stray b :: runes rest := by
  rw [runes, h]

/-- Induction along the runes of a byte string. -/
@[elab_as_elim]
theorem runes_induction {P : Bytes → Prop} (bs : Bytes) (nil : P [])
    (scalar : ∀ code e rest, Encodes code e → P rest → P (e ++ rest))
    (stray : ∀ b rest, decodeScalar (b :: rest) = none → P rest → P (b :: rest)) : P bs := by
  -- on the length, as an encoding may take more than one byte
  induction hn : bs.length using Nat.strongRecOn generalizing bs with
  | ind n ih =>
      cases bs with
      | nil => exact nil
      | cons b r =>
          cases hd : decodeScalar (b :: r) with
          | none => exact stray b r hd (ih _ (by rw [← hn]; exact Nat.lt_succ_self _) r rfl)
          | some p =>
              obtain ⟨e, rest, heq, he⟩ := encodes_of_decodeScalar hd
              obtain ⟨lead, tail, rfl, -⟩ := he.eq_cons
              rw [heq] at hn ⊢
              refine scalar _ _ rest he (ih _ ?_ rest rfl)
              simp only [List.length_append, List.length_cons] at hn
              omega

theorem runes_append {as : Bytes} (ha : isUtf8 as) (bs : Bytes) : runes (as ++ bs) = runes as ++ runes bs := by
  induction as using runes_induction with
  | nil => rw [List.nil_append, runes_nil, List.nil_append]
  | scalar code e rest he ih =>
      rw [isUtf8, runes_encoding he] at ha
      rw [List.append_assoc, runes_encoding he, runes_encoding he, ih ha, List.cons_append]
  | stray c rest hc ih =>
      rw [isUtf8, runes_stray hc] at ha
      cases ha

/-- At a byte that continues none a new rune begins, whatever stands before it. -/
theorem runes_append_cons {b : UInt8} (hb : isContinuation b = false) (as bs : Bytes) :
    runes (as ++ b :: bs) = runes as ++ runes (b :: bs) := by
  induction as using runes_induction with
  | nil => rw [List.nil_append, runes_nil, List.nil_append]
  | scalar code e rest he ih => rw [List.append_assoc, runes_encoding he, runes_encoding he, ih, List.cons_append]
  | stray c rest hc ih =>
      -- An encoding at the stray byte would end before `b`, so it would stand there without the rest, too.
      have hnone : decodeScalar (c :: (rest ++ b :: bs)) = none := by
        cases hd : decodeScalar (c :: (rest ++ b :: bs)) with
        | none => rfl
        | some p =>
            obtain ⟨e, r, heq, he⟩ := encodes_of_decodeScalar hd
            obtain ⟨r', hrest⟩ := he.prefix_of_append hb (List.cons_ne_nil c rest) heq.symm
            rw [← hrest, he.decodeScalar_append] at hc
            cases hc
      rw [List.cons_append, runes_stray hnone, ih, runes_stray hc, List.cons_append]

/-- A byte of ASCII is a rune of its own. -/
theorem scalar_mem_runes {b : UInt8} (hb : b < 0x80) {bs : Bytes} (h : b ∈ bs) : .scalar b.toNat ∈ runes bs := by
  obtain ⟨as, cs, rfl⟩ := List.append_of_mem h
  have hlead : isContinuation b = false := by grind [isContinuation]
  rw [runes_append_cons hlead, runes_ascii hb]
  exact List.mem_append_right _ List.mem_cons_self

theorem isUtf8_nil : isUtf8 [] = true := by
  rw [isUtf8, runes_nil]
  rfl

theorem isUtf8_append {as bs : Bytes} (ha : isUtf8 as) (hb : isUtf8 bs) : isUtf8 (as ++ bs) := by
  rw [isUtf8, runes_append ha, List.all_append, Bool.and_eq_true]
  exact ⟨ha, hb⟩

/-- A text can be cut before a byte that continues none. -/
theorem isUtf8_of_append_cons {as bs : Bytes} {b : UInt8} (hb : isContinuation b = false) (h : isUtf8 (as ++ b :: bs)) :
    isUtf8 as := by
  rw [isUtf8, runes_append_cons hb, List.all_append, Bool.and_eq_true] at h
  exact h.1

/-- In a text the character that a byte belongs to starts there or at most three bytes before. -/
theorem exists_lead {bs : Bytes} (h : isUtf8 bs) {n : Nat} (hn : n < bs.length) :
    ∃ k b, k ≤ n ∧ n ≤ k + 3 ∧ bs[k]? = some b ∧ isContinuation b = false := by
  induction bs using runes_induction generalizing n with
  | nil => cases hn
  | scalar code e rest he ih =>
      rw [isUtf8, runes_encoding he] at h
      by_cases hle : e.length ≤ n
      · have hrest : n - e.length < rest.length := by
          rw [List.length_append] at hn
          omega
        obtain ⟨k, b, hkn, hnk, hb, hlead⟩ := ih h hrest
        refine ⟨e.length + k, b, by omega, by omega, ?_, hlead⟩
        rw [List.getElem?_append_right (Nat.le_add_right ..), Nat.add_sub_cancel_left, hb]
      · obtain ⟨lead, tail, rfl, hlead, htail, -⟩ := he.eq_cons
        rw [List.length_cons] at hle
        exact ⟨0, lead, by omega, by omega, rfl, hlead⟩
  | stray c rest hc ih =>
      rw [isUtf8, runes_stray hc] at h
      cases h

theorem isUtf8_flatten {bss : List Bytes} (h : ∀ bs ∈ bss, isUtf8 bs) : isUtf8 bss.flatten := by
  induction bss with
  | nil => exact isUtf8_nil
  | cons bs bss ih => exact isUtf8_append (h bs (.head _)) (ih fun bs' hm => h bs' (.tail _ hm))

theorem isUtf8_ascii {bs : Bytes} (h : ∀ b ∈ bs, b < 0x80) : isUtf8 bs := by
  induction bs with
  | nil => exact isUtf8_nil
  | cons b r ih =>
      rw [isUtf8, runes_ascii (h b (.head _))]
      exact ih fun b' hm => h b' (.tail _ hm)

theorem toNat_continuation (n shift : Nat) : (continuation n shift).toNat = 0x80 + (n >>> shift) % 0x40 := by
  rw [continuation, Nat.toUInt8_eq, UInt8.toNat_ofNat_of_lt' (show _ < 256 by omega)]

theorem isContinuation_continuation (n shift : Nat) : isContinuation (continuation n shift) = true := by
  simp only [isContinuation, Bool.and_eq_true, decide_eq_true_eq, UInt8.le_iff_toNat_le, toNat_continuation]
  exact ⟨Nat.le_add_right .., show _ ≤ 191 by omega⟩

theorem low6_continuation (n shift : Nat) : low6 (continuation n shift) = (n >>> shift) % 0x40 := by
  rw [low6, toNat_continuation]
  omega

theorem isSecond_continuation {a : UInt8} {k : Nat} (ha : a.toNat = k) (n shift : Nat)
    (h : (k = 0xe0 → 0x20 ≤ (n >>> shift) % 0x40) ∧ (k = 0xed → (n >>> shift) % 0x40 < 0x20) ∧
      (k = 0xf0 → 0x10 ≤ (n >>> shift) % 0x40) ∧ (k = 0xf4 → (n >>> shift) % 0x40 < 0x10)) :
    isSecond a (continuation n shift) = true := by
  simp only [isSecond_iff, isContinuation_continuation, ← UInt8.toNat_inj, UInt8.le_iff_toNat_le, toNat_continuation,
    UInt8.reduceToNat, ha, true_and]
  omega

theorem toUInt8_between {low high n : Nat} (hlow : low ≤ n) (hhigh : n ≤ high) (h : high < 256) :
    n.toUInt8.toNat = n ∧ low.toUInt8 ≤ n.toUInt8 ∧ n.toUInt8 ≤ high.toUInt8 := by
  have htoNat {k : Nat} (hk : k < 256) : k.toUInt8.toNat = k := UInt8.toNat_ofNat_of_lt hk
  simp only [UInt8.le_iff_toNat_le]
  rw [htoNat h, htoNat (show n < 256 by omega), htoNat (show low < 256 by omega)]
  exact ⟨rfl, hlow, hhigh⟩

theorem encodes_encodeScalar {n : Nat} (h : n < 0xd800 ∨ 0xdfff < n ∧ n < 0x110000) : Encodes n (encodeScalar n) := by
  have hcont := isContinuation_continuation n
  unfold encodeScalar
  by_cases h1 : n < 0x80
  · obtain ⟨ha, -, hhigh⟩ := toUInt8_between (Nat.zero_le n) (show n ≤ 0x7f by omega) (by decide)
    have he := Encodes.one (a := n.toUInt8) (UInt8.lt_of_le_of_lt hhigh (by decide))
    rw [if_pos h1]
    rwa [ha] at he
  · rw [if_neg h1]
    by_cases h2 : n < 0x800
    · obtain ⟨ha, hlow, hhigh⟩ :=
        toUInt8_between (show 0xc2 ≤ 0xc0 + n / 0x40 by omega) (show _ ≤ 0xdf by omega) (by decide)
      have he := Encodes.two hlow hhigh (hcont 0)
      have hcode : (0xc0 + n / 0x40) % 0x20 * 0x40 + (n >>> 0) % 0x40 = n := by omega
      rw [if_pos h2]
      rwa [ha, low6_continuation, hcode] at he
    · rw [if_neg h2, if_neg (by omega)]
      by_cases h3 : n < 0x10000
      · obtain ⟨ha, hlow, hhigh⟩ :=
          toUInt8_between (show 0xe0 ≤ 0xe0 + n / 0x1000 by omega) (show _ ≤ 0xef by omega) (by decide)
        have he := Encodes.three hlow hhigh (isSecond_continuation ha n 6 (by omega)) (hcont 0)
        have hcode : (0xe0 + n / 0x1000) % 0x10 * 0x1000 + (n >>> 6) % 0x40 * 0x40 + (n >>> 0) % 0x40 = n := by omega
        rw [if_pos h3]
        rwa [ha, low6_continuation, low6_continuation, hcode] at he
      · obtain ⟨ha, hlow, hhigh⟩ :=
          toUInt8_between (show 0xf0 ≤ 0xf0 + n / 0x40000 by omega) (show _ ≤ 0xf4 by omega) (by decide)
        have he := Encodes.four hlow hhigh (isSecond_continuation ha n 12 (by omega)) (hcont 6) (hcont 0)
        have hcode : (0xf0 + n / 0x40000) % 0x08 * 0x40000 + (n >>> 12) % 0x40 * 0x1000 + (n >>> 6) % 0x40 * 0x40 +
            (n >>> 0) % 0x40 = n := by omega
        rw [if_neg h3]
        rwa [ha, low6_continuation, low6_continuation, low6_continuation, hcode] at he

theorem continuation_eq (n shift : Nat) : continuation n shift = .ofNat ((n >>> shift) % 64 + 128) := by
  rw [continuation, Nat.add_comm, Nat.toUInt8]

/-- A character is encoded as the library does it. -/
theorem encodeScalar_toNat (c : Char) : encodeScalar c.toNat = String.utf8EncodeChar c := by
  have hvalid : c.toNat < 0xd800 ∨ 0xdfff < c.toNat ∧ c.toNat < 0x110000 := c.valid
  have hn : c.val.toNat = c.toNat := rfl
  simp only [encodeScalar, String.utf8EncodeChar, hn, continuation_eq, Nat.shiftRight_eq_div_pow,
    ← Nat.lt_succ_iff (n := 127), ← Nat.lt_succ_iff (n := 2047), ← Nat.lt_succ_iff (n := 65535)]
  generalize c.toNat = n at hvalid
  by_cases h1 : n < 128
  · simp [h1]
  · by_cases h2 : n < 2048
    · have hlead : 192 + n / 64 = n / 64 % 32 + 192 := by omega
      simp [h1, h2, hlead]
    · have hscalar : ¬ (55296 ≤ n ∧ n ≤ 57343 ∨ 1114111 < n) := by omega
      by_cases h3 : n < 65536
      · have hlead : 224 + n / 4096 = n / 4096 % 16 + 224 := by omega
        simp [h1, h2, h3, hscalar, hlead]
      · have hlead : 240 + n / 262144 = n / 262144 % 8 + 240 := by omega
        simp [h1, h2, h3, hscalar, hlead]

end MiniLua.Text

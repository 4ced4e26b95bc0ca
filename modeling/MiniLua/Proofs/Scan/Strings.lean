import MiniLua.Proofs.Scan.Brackets
import MiniLua.Proofs.Scan.Extent

/-!
How far quoted strings are read. An escape is decided by its own bytes and the one behind them, a string by its own bytes;
and a string that cannot be read breaks off at an escape, or before its closing quote.
-/

namespace MiniLua.Scan

open Text

/-- Two inputs start with the same `n` bytes, or are the same and shorter. -/
def Agree (n : Nat) (bs bs' : Bytes) : Prop := bs'.take n = bs.take n

namespace Agree

theorem mono {m n : Nat} {bs bs' : Bytes} (h : Agree n bs bs') (hle : m ≤ n) : Agree m bs bs' := by
  have htake := congrArg (List.take m) h
  rwa [List.take_take, List.take_take, Nat.min_eq_left hle] at htake

theorem tail {n : Nat} {b : UInt8} {r bs' : Bytes} (h : Agree (n + 1) (b :: r) bs') :
    ∃ r', bs' = b :: r' ∧ Agree n r r' := by
  cases bs' with
  | nil => cases h
  | cons b' r' =>
      obtain ⟨rfl, hr⟩ := List.cons.inj h
      exact ⟨r', rfl, hr⟩

theorem drop {m n : Nat} {bs bs' : Bytes} (h : Agree (m + n) bs bs') : Agree n (bs.drop m) (bs'.drop m) := by
  have hdrop := congrArg (List.drop m) h
  rwa [List.drop_take, List.drop_take, Nat.add_sub_cancel_left] at hdrop

theorem getElem? {n i : Nat} {bs bs' : Bytes} (h : Agree n bs bs') (hi : i < n) : bs'[i]? = bs[i]? := by
  have hget := congrArg (·[i]?) h
  simpa [List.getElem?_take_of_lt hi] using hget

theorem lineEnd {b : UInt8} {r r' : Bytes} (h : Agree 1 r r') : lineEnd (b :: r') = lineEnd (b :: r) := by
  cases r with
  | nil =>
      have hnil : r' = [] := by simpa using h.getElem? (i := 0)
      rw [hnil]
  | cons c r =>
      obtain ⟨r', rfl, _⟩ := h.tail
      rw [lineEnd_cons_cons, lineEnd_cons_cons]

theorem takeWhile {p : UInt8 → Bool} {r r' : Bytes} (h : Agree ((r.takeWhile p).length + 1) r r') :
    r'.takeWhile p = r.takeWhile p := by
  induction r generalizing r' with
  | nil =>
      have hnil : r' = [] := by simpa using h.getElem? (i := 0)
      rw [hnil]
  | cons b r ih =>
      obtain ⟨r', rfl, hr⟩ := h.tail
      by_cases hb : p b = true
      · rw [List.takeWhile_cons_of_pos hb] at hr
        rw [List.takeWhile_cons_of_pos hb, List.takeWhile_cons_of_pos hb, ih hr]
      · rw [List.takeWhile_cons_of_neg hb, List.takeWhile_cons_of_neg hb]

theorem take {k n : Nat} {bs bs' : Bytes} (h : Agree n bs bs') : Agree n (bs.take k) (bs'.take k) := by
  have htake := congrArg (List.take k) h
  rwa [List.take_take, List.take_take, Nat.min_comm, ← List.take_take, ← List.take_take] at htake

end Agree

theorem codePoint_bounds {value count v n : Nat} {bs : Bytes} (h : codePoint value count bs = .ok (v, n)) :
    count ≤ n ∧ n ≤ count + bs.length := by
  induction bs generalizing value count with
  | nil =>
      cases h
      exact ⟨Nat.le_refl _, Nat.le_refl _⟩
  | cons b r ih =>
      unfold codePoint at h
      split at h
      · dsimp only at h
        split at h
        · cases h
        · obtain ⟨hlow, hhigh⟩ := ih h
          rw [List.length_cons]
          omega
      · cases h
        exact ⟨Nat.le_refl _, Nat.le_add_right ..⟩

theorem codePoint_agree {value count v n : Nat} {bs bs' : Bytes} (h : codePoint value count bs = .ok (v, n))
    (hbs : Agree (n - count + 1) bs bs') : codePoint value count bs' = .ok (v, n) := by
  induction bs generalizing value count bs' with
  | nil =>
      have hnil : bs' = [] := by simpa using hbs.getElem? (i := 0)
      rw [hnil]
      exact h
  | cons b r ih =>
      obtain ⟨r', rfl, hr⟩ := hbs.tail
      unfold codePoint at h ⊢
      split
      · next hb =>
        rw [if_pos hb] at h
        dsimp only at h ⊢
        split at h
        · cases h
        · next hv =>
          have hcount := (codePoint_bounds h).1
          rw [if_neg hv]
          exact ih h (hr.mono (by omega))
      · next hb =>
        rw [if_neg hb] at h
        exact h

theorem braced_agree {bs bs' out : Bytes} {k : Nat} (h : braced bs = .ok (out, k)) (hbs : Agree k bs bs') :
    k ≤ bs.length ∧ braced bs' = .ok (out, k) := by
  unfold braced at h
  split at h
  · next r =>
    split at h
    · cases h
    · cases h
    · next v n hn hpoint =>
      split at h
      · next hclose =>
        cases h
        obtain ⟨r', rfl, hr⟩ := hbs.tail
        have hlt := (List.getElem?_eq_some_iff.mp hclose).1
        refine ⟨Nat.succ_le_succ hlt, ?_⟩
        simp only [braced, codePoint_agree hpoint (hr.mono (Nat.le_refl _)), hr.getElem? (Nat.lt_succ_self n), hclose,
          if_true]
      · cases h
  · cases h

theorem hexPair_agree {bs bs' out : Bytes} {k : Nat} (h : hexPair bs = .ok (out, k)) (hbs : Agree k bs bs') :
    k ≤ bs.length ∧ hexPair bs' = .ok (out, k) := by
  unfold hexPair at h
  split at h
  · next a b r =>
    split at h
    · cases h
    · split at h
      · cases h
      · next ha hb =>
        cases h
        obtain ⟨_, rfl, htail⟩ := hbs.tail
        obtain ⟨_, rfl, _⟩ := htail.tail
        exact ⟨Nat.le_add_left 2 r.length, by simp only [hexPair, if_neg ha, if_neg hb]⟩
  · cases h
  · cases h

theorem shift_agree {f : Bytes → Except (ScanFault × Nat) (Bytes × Nat)} {r r' out : Bytes} {k : Nat}
    (hf : ∀ {out k}, f r = .ok (out, k) → Agree k r r' → k ≤ r.length ∧ f r' = .ok (out, k))
    (h : shift 1 (f r) = .ok (out, k)) (hr : Agree k r r') : k ≤ r.length + 1 ∧ shift 1 (f r') = .ok (out, k) := by
  obtain ⟨m, hm, rfl⟩ := shift_ok h
  obtain ⟨hle, heq⟩ := hf hm (hr.mono (Nat.le_succ m))
  exact ⟨Nat.succ_le_succ hle, by rw [heq]; rfl⟩

theorem lineEnd_ne_zero_iff (b : UInt8) (r : Bytes) : lineEnd (b :: r) ≠ 0 ↔ b = 0x0a ∨ b = 0x0d := by
  cases r with
  | nil => by_cases h : b = 0x0a ∨ b = 0x0d <;> simp [lineEnd_singleton, h]
  | cons c r =>
      rw [lineEnd_cons_cons]
      by_cases h : b = 0x0a ∧ c = 0x0d ∨ b = 0x0d ∧ c = 0x0a
      · simpa [h] using h.imp And.left And.left
      · by_cases hb : b = 0x0a ∨ b = 0x0d <;> simp [h, hb]

/-- An escape is decided by its own bytes and the one behind them. -/
theorem escape_agree {bs bs' out : Bytes} {k : Nat} (h : escape bs = .ok (out, k)) (hbs : Agree (k + 1) bs bs') :
    k ≤ bs.length ∧ escape bs' = .ok (out, k) := by
  cases bs with
  | nil => cases h
  | cons b r =>
      obtain ⟨r', rfl, hr⟩ := hbs.tail
      unfold escape at h ⊢
      dsimp only at h ⊢
      cases hnamed : namedEscape b with
      | some c =>
          rw [hnamed] at h
          cases h
          exact ⟨Nat.le_add_left .., rfl⟩
      | none =>
          rw [hnamed] at h
          dsimp only at h ⊢
          by_cases hend : lineEnd (b :: r) ≠ 0
          · rw [if_pos hend] at h
            cases h
            have hend' := (hr.mono (Nat.one_le_iff_ne_zero.mpr hend)).lineEnd (b := b)
            exact ⟨lineEnd_le _, by rw [hend', if_pos hend]⟩
          · have hend' : ¬ lineEnd (b :: r') ≠ 0 := by rwa [lineEnd_ne_zero_iff] at hend ⊢
            rw [if_neg hend] at h
            rw [if_neg hend']
            by_cases hx : b = 0x78
            · rw [if_pos hx] at h ⊢
              exact shift_agree hexPair_agree h hr
            · rw [if_neg hx] at h ⊢
              by_cases hz : b = 0x7a
              · rw [if_pos hz] at h ⊢
                cases h
                rw [hr.takeWhile]
                exact ⟨Nat.succ_le_succ (List.takeWhile_sublist isSpace).length_le, rfl⟩
              · rw [if_neg hz] at h ⊢
                by_cases hu : b = 0x75
                · rw [if_pos hu] at h ⊢
                  exact shift_agree braced_agree h hr
                · rw [if_neg hu] at h ⊢
                  by_cases hd : isDigit b = true
                  · rw [if_pos hd] at h ⊢
                    split at h
                    · cases h
                    · next hsmall =>
                      cases h
                      rw [hbs.take.takeWhile, if_neg hsmall]
                      exact ⟨((List.takeWhile_sublist isDigit).trans (List.take_sublist 3 (b :: r))).length_le, rfl⟩
                  · rw [if_neg hd] at h
                    cases h

theorem map_eq_ok {ε α β : Type} {x : Except ε α} {f : α → β} {b : β} (h : x.map f = .ok b) :
    ∃ a, x = .ok a ∧ f a = b := by
  cases x with
  | error e => cases h
  | ok a => exact ⟨a, rfl, Except.ok.inj h⟩

/-- A string is decided by its own bytes. -/
theorem quotedBody_agree {mark : UInt8} {n m : Nat} {bs bs' c : Bytes} (h : quotedBody mark n bs = .ok (c, m))
    (hbs : Agree (m - n) bs bs') : m - n ≤ bs.length ∧ quotedBody mark n bs' = .ok (c, m) := by
  fun_induction quotedBody mark n bs generalizing c bs' with
  | case1 | case3 | case4 => cases h
  | case2 n r =>
      cases h
      rw [Nat.add_sub_cancel_left] at hbs
      obtain ⟨r', rfl, _⟩ := hbs.tail
      refine ⟨?_, by rw [quotedBody, if_pos rfl]⟩
      simp
  | case5 n r out k hescape hmark hline ih =>
      obtain ⟨⟨content, m'⟩, hbody, hp⟩ := map_eq_ok h
      cases hp
      have hlt := lt_of_quotedBody hbody
      obtain ⟨r', rfl, hr⟩ := (hbs.mono (m := k + (m - (n + 1 + k)) + 1) (by omega)).tail
      obtain ⟨hlength, hbody'⟩ := ih hbody hr.drop
      obtain ⟨hk, hescape'⟩ := escape_agree hescape (hr.mono (by omega))
      rw [List.length_drop] at hlength
      refine ⟨?_, ?_⟩
      · rw [List.length_cons]
        omega
      · rw [quotedBody, if_neg hmark, if_neg hline, if_pos rfl, hescape']
        dsimp only
        rw [hbody']
        rfl
  | case6 n b r hmark hline hplain ih =>
      obtain ⟨⟨content, m'⟩, hbody, hp⟩ := map_eq_ok h
      cases hp
      have hlt := lt_of_quotedBody hbody
      obtain ⟨r', rfl, hr⟩ := (hbs.mono (m := m - (n + 1) + 1) (by omega)).tail
      obtain ⟨hlength, hbody'⟩ := ih hbody hr
      refine ⟨?_, ?_⟩
      · rw [List.length_cons]
        omega
      · rw [quotedBody, if_neg hmark, if_neg hline, if_neg hplain, hbody']
        rfl

/-- Reading the content of a string gets before `rest`. -/
inductive Within (mark : UInt8) : Bytes → Bytes → Prop
  | here (bs : Bytes) : Within mark bs bs
  | plain {b : UInt8} {r rest : Bytes} (hmark : b ≠ mark) (hline : ¬ (b = 0x0a ∨ b = 0x0d)) (hescape : b ≠ 0x5c)
      (hr : Within mark r rest) : Within mark (b :: r) rest
  | escaped {r rest out : Bytes} {k : Nat} (hk : escape r = .ok (out, k)) (hr : Within mark (r.drop k) rest) :
      Within mark (0x5c :: r) rest

theorem map_eq_error {ε α β : Type} {x : Except ε α} {f : α → β} {e : ε} (h : x.map f = .error e) : x = .error e := by
  cases x with
  | error e' => exact congrArg Except.error (Except.error.inj h)
  | ok a => cases h

/-- A string that cannot be read misses its closing quote, or has a bad escape. -/
theorem quotedBody_error {mark : UInt8} {n : Nat} {bs : Bytes} {stop : Stop} (h : quotedBody mark n bs = .error stop) :
    stop.place = 0 ∨
      ∃ r k, Within mark bs (0x5c :: r) ∧ escape r = .error (stop.cause, k) ∧
        stop.place + (r.length + 1) = n + bs.length := by
  fun_induction quotedBody mark n bs with
  | case1 | case3 =>
      cases h
      exact .inl rfl
  | case2 => cases h
  | case4 n r cause k hescape =>
      cases h
      exact .inr ⟨r, k, .here _, hescape, rfl⟩
  | case5 n r out k hescape hmark hline ih =>
      have hk : k ≤ r.length := (escape_agree hescape rfl).1
      refine (ih (map_eq_error h)).imp_right ?_
      rintro ⟨r', k', hwithin, hescape', hplace⟩
      rw [List.length_drop] at hplace
      refine ⟨r', k', .escaped hescape hwithin, hescape', ?_⟩
      rw [List.length_cons]
      omega
  | case6 n b r hmark hline hplain ih =>
      refine (ih (map_eq_error h)).imp_right ?_
      rintro ⟨r', k', hwithin, hescape', hplace⟩
      refine ⟨r', k', .plain hmark hline hplain hwithin, hescape', ?_⟩
      rw [List.length_cons]
      omega

end MiniLua.Scan

import MiniLua.Scan.LongBracket

/-!
What long brackets enclose: everything before the first closer, with its line ends unified.
-/

namespace MiniLua.Scan

open Text

def opener (level : Nat) : Bytes := 0x5b :: List.replicate level 0x3d ++ [0x5b]

/-- No closer starts before the one that follows the body. -/
def Encloses (level : Nat) (body : Bytes) : Prop :=
  ∀ i < body.length, ¬ closer level <+: (body ++ closer level).drop i

/-- Every line end as LF. -/
def unifyLines (bs : Bytes) : Bytes :=
  match bs with
  | [] => []
  | b :: r =>
    if lineEnd (b :: r) = 0 then b :: unifyLines r
    else newline :: unifyLines (r.drop (lineEnd (b :: r) - 1))
termination_by bs.length
decreasing_by all_goals simp only [List.length_cons, List.length_drop]; omega

theorem length_opener (level : Nat) : (opener level).length = level + 2 := by simp [opener]

theorem length_closer (level : Nat) : (closer level).length = level + 2 := by simp [closer]

theorem lineEnd_singleton (b : UInt8) : lineEnd [b] = if b = 0x0a ∨ b = 0x0d then 1 else 0 := by
  unfold lineEnd
  split <;> simp_all

theorem lineEnd_cons_cons (b c : UInt8) (r : Bytes) :
    lineEnd (b :: c :: r) =
      if b = 0x0a ∧ c = 0x0d ∨ b = 0x0d ∧ c = 0x0a then 2 else if b = 0x0a ∨ b = 0x0d then 1 else 0 := by
  by_cases hb : b = 0x0a
  · subst hb
    by_cases hc : c = 0x0d
    · subst hc
      rfl
    · simp [lineEnd, hc]
  · by_cases hb' : b = 0x0d
    · subst hb'
      by_cases hc : c = 0x0a
      · subst hc
        rfl
      · simp [lineEnd, hc]
    · simp [lineEnd, hb, hb']

theorem lineEnd_le (bs : Bytes) : lineEnd bs ≤ bs.length := by
  unfold lineEnd
  split <;> simp

/-- A bracket is no part of a line end. -/
theorem lineEnd_closer (b : UInt8) (r : Bytes) (level : Nat) (rest : Bytes) :
    lineEnd (b :: r ++ (closer level ++ rest)) = lineEnd (b :: r) := by
  cases r with
  | nil => simp [closer, lineEnd_singleton, lineEnd_cons_cons]
  | cons c r => simp [lineEnd_cons_cons]

theorem bracket_notMem_lineEnd (bs : Bytes) : 0x5d ∉ bs.take (lineEnd bs) := by
  unfold lineEnd
  split <;> simp

theorem not_closer_head {level : Nat} {b : UInt8} {r : Bytes} (h : b ≠ 0x5d) : ¬ closer level <+: b :: r := by
  rintro ⟨t, ht⟩
  simp only [closer, List.cons_append, List.cons.injEq] at ht
  exact h ht.1.symm

theorem encloses_nil (level : Nat) : Encloses level [] := fun i hi => absurd hi (Nat.not_lt_zero i)

theorem encloses_cons {level : Nat} {b : UInt8} {body : Bytes} :
    Encloses level (b :: body) ↔ ¬ closer level <+: b :: body ++ closer level ∧ Encloses level body := by
  constructor
  · intro h
    exact ⟨h 0 (Nat.succ_pos _), fun i hi => h (i + 1) (Nat.succ_lt_succ hi)⟩
  · rintro ⟨hhead, htail⟩ i hi
    cases i with
    | zero => exact hhead
    | succ i => exact htail i (Nat.lt_of_succ_lt_succ hi)

theorem encloses_append {level : Nat} {skipped body : Bytes} (h : 0x5d ∉ skipped) :
    Encloses level (skipped ++ body) ↔ Encloses level body := by
  induction skipped with
  | nil => rfl
  | cons b skipped ih =>
      simp only [List.mem_cons, not_or] at h
      rw [List.cons_append, encloses_cons, ih h.2]
      exact and_iff_right (not_closer_head (Ne.symm h.1))

/-- Whether a closer stands at the head of a body does not depend on what follows the closer behind the body. -/
theorem closer_prefix_append {level : Nat} {body : Bytes} (rest : Bytes) :
    closer level <+: body ++ (closer level ++ rest) ↔ closer level <+: body ++ closer level := by
  rw [← List.append_assoc]
  refine ⟨fun h => ?_, List.prefix_append_of_prefix⟩
  refine List.prefix_of_prefix_length_le h (List.prefix_append _ rest) ?_
  simp only [List.length_append]
  omega

theorem longBody_closed {level : Nat} {bs : Bytes} (h : closer level <+: bs) :
    longBody level bs = some ([], level + 2) := by
  cases bs with
  | nil => exact absurd (List.prefix_nil.mp h) (List.cons_ne_nil _ _)
  | cons b r => rw [longBody, if_pos (List.isPrefixOf_iff_prefix.mpr h)]

theorem longBody_cons {level : Nat} {b : UInt8} {r : Bytes} (h : ¬ closer level <+: b :: r) :
    longBody level (b :: r) =
      if lineEnd (b :: r) = 0 then (longBody level r).map fun p => (b :: p.1, p.2 + 1)
      else (longBody level (r.drop (lineEnd (b :: r) - 1))).map fun p => (newline :: p.1, p.2 + lineEnd (b :: r)) := by
  rw [longBody, if_neg fun hp => h (List.isPrefixOf_iff_prefix.mp hp)]

theorem drop_lineEnd {b : UInt8} {r : Bytes} (h : lineEnd (b :: r) ≠ 0) :
    (b :: r).take (lineEnd (b :: r)) ++ r.drop (lineEnd (b :: r) - 1) = b :: r := by
  obtain ⟨n, hn⟩ := Nat.exists_eq_succ_of_ne_zero h
  rw [hn]
  exact List.take_append_drop (n + 1) (b :: r)

theorem encloses_drop_lineEnd {level : Nat} {b : UInt8} {r : Bytes} (h : lineEnd (b :: r) ≠ 0) :
    Encloses level (b :: r) ↔ Encloses level (r.drop (lineEnd (b :: r) - 1)) := by
  have hiff : Encloses level ((b :: r).take (lineEnd (b :: r)) ++ r.drop (lineEnd (b :: r) - 1)) ↔ _ :=
    encloses_append (bracket_notMem_lineEnd (b :: r))
  rwa [drop_lineEnd h] at hiff

theorem longBody_enclosed {level : Nat} {body : Bytes} (h : Encloses level body) (rest : Bytes) :
    longBody level (body ++ (closer level ++ rest)) = some (unifyLines body, body.length + (level + 2)) := by
  fun_induction unifyLines body with
  | case1 => simpa using longBody_closed (List.prefix_append (closer level) rest)
  | case2 b r hend ih =>
      have hbody := ih (encloses_cons.mp h).2
      have hhead := mt (closer_prefix_append rest).mp (encloses_cons.mp h).1
      rw [List.cons_append] at hhead ⊢
      rw [longBody_cons hhead, ← List.cons_append, lineEnd_closer, if_pos hend, hbody]
      simp only [Option.map_some, List.length_cons, Option.some.injEq, Prod.mk.injEq, true_and]
      omega
  | case3 b r hend ih =>
      have hbody := ih ((encloses_drop_lineEnd hend).mp h)
      have hhead := mt (closer_prefix_append rest).mp (encloses_cons.mp h).1
      have hle := lineEnd_le (b :: r)
      rw [List.length_cons] at hle
      rw [List.cons_append] at hhead ⊢
      rw [longBody_cons hhead, ← List.cons_append, lineEnd_closer, if_neg hend,
        List.drop_append_of_le_length (by omega), hbody]
      simp only [Option.map_some, List.length_cons, List.length_drop, Option.some.injEq, Prod.mk.injEq, true_and]
      omega

/-- Of all closers in a text one is the first. -/
theorem exists_encloses {level : Nat} {bs : Bytes} (h : closer level <:+: bs) :
    ∃ body rest, Encloses level body ∧ bs = body ++ (closer level ++ rest) := by
  obtain ⟨before, rest, rfl⟩ := h
  induction before with
  | nil => exact ⟨[], rest, encloses_nil level, rfl⟩
  | cons b before ih =>
      obtain ⟨body, rest', hbody, heq⟩ := ih
      by_cases hhead : closer level <+: b :: body ++ closer level
      · obtain ⟨rest'', hrest⟩ := (closer_prefix_append rest').mpr hhead
        refine ⟨[], rest'', encloses_nil level, ?_⟩
        rw [List.nil_append, hrest, List.cons_append, List.cons_append, List.cons_append, heq]
      · refine ⟨b :: body, rest', encloses_cons.mpr ⟨hhead, hbody⟩, ?_⟩
        rw [List.cons_append, List.cons_append, List.cons_append, heq]

theorem closer_infix_of_longBody {level n : Nat} {bs c : Bytes} (h : longBody level bs = some (c, n)) :
    closer level <:+: bs := by
  fun_induction longBody level bs generalizing c n with
  | case1 => cases h
  | case2 b r hhead => exact (List.isPrefixOf_iff_prefix.mp hhead).isInfix
  | case3 b r =>
      rename_i ih
      obtain ⟨p, hp, _⟩ := Option.map_eq_some_iff.mp h
      exact (ih hp).trans (List.suffix_cons b r).isInfix
  | case4 b r =>
      rename_i ih
      obtain ⟨p, hp, _⟩ := Option.map_eq_some_iff.mp h
      exact (ih hp).trans ((List.drop_suffix _ r).isInfix.trans (List.suffix_cons b r).isInfix)

theorem drop_lineEnd_closer (body : Bytes) (level : Nat) (rest : Bytes) :
    lineEnd (body ++ (closer level ++ rest)) = lineEnd body := by
  cases body with
  | nil => simp [closer, lineEnd]
  | cons b r => exact lineEnd_closer b r level rest

theorem longContent_enclosed {level : Nat} {body : Bytes} (h : Encloses level body) (rest : Bytes) :
    longContent level (body ++ (closer level ++ rest)) =
      some (unifyLines (body.drop (lineEnd body)), body.length + (level + 2)) := by
  have hle := lineEnd_le body
  have hbody : Encloses level (body.drop (lineEnd body)) := by
    rw [← List.take_append_drop (lineEnd body) body] at h
    exact (encloses_append (bracket_notMem_lineEnd body)).mp h
  rw [longContent, drop_lineEnd_closer, List.drop_append_of_le_length hle, longBody_enclosed hbody]
  simp only [Option.map_some, List.length_drop, Option.some.injEq, Prod.mk.injEq, true_and]
  omega

theorem longContent_eq_none_iff {level : Nat} {bs : Bytes} :
    longContent level bs = none ↔ ¬ closer level <:+: bs := by
  constructor
  · intro h hinfix
    obtain ⟨body, rest, hbody, rfl⟩ := exists_encloses hinfix
    rw [longContent_enclosed hbody rest] at h
    cases h
  · intro h
    rw [longContent, Option.map_eq_none_iff]
    cases hbody : longBody level (bs.drop (lineEnd bs)) with
    | none => rfl
    | some p => exact absurd ((closer_infix_of_longBody hbody).trans (List.drop_suffix _ bs).isInfix) h

/-- Brackets that are closed enclose a body, and are read up to their closer. -/
theorem longContent_eq_some {level n : Nat} {bs c : Bytes} (h : longContent level bs = some (c, n)) :
    ∃ body rest, Encloses level body ∧ bs = body ++ (closer level ++ rest) ∧
      c = unifyLines (body.drop (lineEnd body)) ∧ n = body.length + (level + 2) := by
  have hinfix : closer level <:+: bs := by
    refine Decidable.byContradiction fun hnot => ?_
    rw [longContent_eq_none_iff.mpr hnot] at h
    cases h
  obtain ⟨body, rest, hbody, rfl⟩ := exists_encloses hinfix
  rw [longContent_enclosed hbody rest] at h
  cases h
  exact ⟨body, rest, hbody, rfl, rfl, rfl⟩

theorem opening_opener {level : Nat} (h : level < window) (rest : Bytes) :
    opening (List.replicate level 0x3d ++ 0x5b :: rest) = .long level := by
  simp [opening, h]

theorem eq_opener_of_opening {level : Nat} {bs : Bytes} (h : opening bs = .long level) :
    level < window ∧ ∃ rest, bs = List.replicate level 0x3d ++ 0x5b :: rest := by
  unfold opening at h
  dsimp only at h
  split at h
  · next hlong =>
    cases h
    have hsigns : bs.takeWhile (· == 0x3d) = List.replicate (bs.takeWhile (· == 0x3d)).length 0x3d :=
      List.eq_replicate_of_mem fun b hb => by simpa using List.all_eq_true.mp List.all_takeWhile b hb
    obtain ⟨hlt, hget⟩ := List.getElem?_eq_some_iff.mp hlong.2
    refine ⟨hlong.1, bs.drop ((bs.takeWhile (· == 0x3d)).length + 1), ?_⟩
    rw [← hget, ← List.drop_eq_getElem_cons hlt, ← hsigns]
    exact (List.prefix_iff_eq_append.mp (List.takeWhile_prefix _)).symm
  · split at h <;> cases h

end MiniLua.Scan

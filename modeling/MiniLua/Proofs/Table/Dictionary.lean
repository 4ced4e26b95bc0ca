import MiniLua.Proofs.Value.Equality
import MiniLua.Table

/-!
Dictionaries: finite maps from values to values, as lists of entries with different keys. What a dictionary says does not
depend on the order of its entries.
-/

namespace MiniLua

/-- The largest integer. -/
def maxIndex : Nat := 9223372036854775807

namespace Value

/-- The integer key `i`. -/
def ofIndex (i : Nat) : Value := .int (Int64.ofNat i)

/-- Whether a key is an integer from 1 to `n`. -/
def inRange (n : Nat) : Value → Bool
  | .int i => 1 ≤ i.toInt ∧ i.toInt ≤ n
  | _ => false

theorem toInt_ofNat {i : Nat} (h : i ≤ maxIndex) : (Int64.ofNat i).toInt = i :=
  Int64.toInt_ofNat_of_lt (by simp only [maxIndex] at h; omega)

theorem ofIndex_inj {i j : Nat} (hi : i ≤ maxIndex) (hj : j ≤ maxIndex) : ofIndex i = ofIndex j ↔ i = j := by
  constructor
  · intro h
    have := congrArg Int64.toInt (Value.int.inj h)
    rw [toInt_ofNat hi, toInt_ofNat hj] at this
    omega
  · rintro rfl
    rfl

theorem inRange_ofIndex {i n : Nat} (hi : i ≤ maxIndex) : (ofIndex i).inRange n = true ↔ 1 ≤ i ∧ i ≤ n := by
  simp only [ofIndex, inRange, toInt_ofNat hi, decide_eq_true_eq]
  omega

theorem inRange_iff {k : Value} {n : Nat} (hn : n ≤ maxIndex) : k.inRange n = true ↔ ∃ i < n, k = ofIndex (i + 1) := by
  constructor
  · intro h
    cases k with
    | int j =>
        obtain ⟨h1, hle⟩ : 1 ≤ j.toInt ∧ j.toInt ≤ n := by simpa [inRange] using h
        refine ⟨(j.toInt - 1).toNat, by omega, congrArg Value.int (Int64.toInt.inj ?_)⟩
        rw [toInt_ofNat (by omega)]
        omega
    | nil | bool | float | native | str | table => cases h
  · rintro ⟨i, hi, rfl⟩
    exact (inRange_ofIndex (by omega)).mpr ⟨by omega, by omega⟩

end Value

/-- Entries in the order in which their keys came. -/
abbrev Dict := List Entry

namespace Dict

def hasKey (d : Dict) (k : Value) : Bool := d.any (·.key.equal k)

/-- The value under a key, nil where there is none. -/
def get (k : Value) : Dict → Value
  | [] => .nil
  | e :: d => if e.key.equal k then e.value else get k d

def put (k v : Value) : Dict → Dict
  | [] => [⟨k, v⟩]
  | e :: d => if e.key.equal k then ⟨e.key, v⟩ :: d else e :: put k v d

/-- The largest `n` such that the integers from 1 to `n` are all keys. -/
def border (d : Dict) : Nat := ((List.range d.length).takeWhile fun i => d.hasKey (.ofIndex (i + 1))).length

/-- Updates the integer keys behind `n`, one for each value. -/
def fill (n : Nat) : List Value → Dict → Dict
  | [], d => d
  | v :: vs, d => fill (n + 1) vs (d.put (.ofIndex (n + 1)) v)

/-- No two entries have the same key. -/
def Distinct (d : Dict) : Prop := d.Pairwise fun a b => a.key.equal b.key = false

variable {d d' : Dict} {k v : Value}

theorem hasKey_iff : d.hasKey k = true ↔ ∃ e ∈ d, e.key.equal k = true := List.any_eq_true

theorem hasKey_eq_false : d.hasKey k = false ↔ ∀ e ∈ d, e.key.equal k = false := by
  simp [hasKey, List.any_eq_false]

theorem hasKey_append : hasKey (d ++ d') k = (d.hasKey k || d'.hasKey k) := List.any_append

theorem get_append_left (h : d.hasKey k = true) : get k (d ++ d') = d.get k := by
  induction d with
  | nil => cases h
  | cons e d ih =>
      by_cases he : e.key.equal k = true
      · simp only [List.cons_append, get, if_pos he]
      · simp only [List.cons_append, get, if_neg he]
        exact ih (by simpa [hasKey, he] using h)

theorem get_append_right (h : d.hasKey k = false) : get k (d ++ d') = d'.get k := by
  induction d with
  | nil => rfl
  | cons e d ih =>
      obtain ⟨he, hd⟩ := List.forall_mem_cons.mp (hasKey_eq_false.mp h)
      simp only [List.cons_append, get, he]
      exact ih (hasKey_eq_false.mpr hd)

theorem get_of_hasKey_false (h : d.hasKey k = false) : d.get k = .nil := by
  have hget : get k (d ++ []) = _ := get_append_right h
  rwa [List.append_nil] at hget

theorem put_append_left (h : d.hasKey k = true) : put k v (d ++ d') = d.put k v ++ d' := by
  induction d with
  | nil => cases h
  | cons e d ih =>
      by_cases he : e.key.equal k = true
      · simp only [List.cons_append, put, if_pos he]
      · simp only [List.cons_append, put, if_neg he]
        rw [ih (by simpa [hasKey, he] using h)]

theorem put_append_right (h : d.hasKey k = false) : put k v (d ++ d') = d ++ d'.put k v := by
  induction d with
  | nil => rfl
  | cons e d ih =>
      obtain ⟨he, hd⟩ := List.forall_mem_cons.mp (hasKey_eq_false.mp h)
      simp only [List.cons_append, put, he]
      rw [ih (hasKey_eq_false.mpr hd)]
      rfl

theorem put_of_hasKey_false (h : d.hasKey k = false) : d.put k v = d ++ [⟨k, v⟩] := by
  have hput : put k v (d ++ []) = _ := put_append_right h
  rwa [List.append_nil] at hput

/-- An update makes no other key. -/
theorem key_of_mem_put {e : Entry} (h : e ∈ d.put k v) : (∃ e' ∈ d, e'.key = e.key) ∨ e.key = k := by
  induction d with
  | nil =>
      obtain rfl := List.mem_singleton.mp h
      exact .inr rfl
  | cons a d ih =>
      by_cases ha : a.key.equal k = true
      · rw [put, if_pos ha] at h
        rcases List.mem_cons.mp h with rfl | he
        · exact .inl ⟨a, List.mem_cons_self, rfl⟩
        · exact .inl ⟨e, List.mem_cons_of_mem _ he, rfl⟩
      · rw [put, if_neg ha] at h
        rcases List.mem_cons.mp h with rfl | he
        · exact .inl ⟨e, List.mem_cons_self, rfl⟩
        · rcases ih he with ⟨e', he', hk⟩ | hk
          · exact .inl ⟨e', List.mem_cons_of_mem _ he', hk⟩
          · exact .inr hk

theorem length_put (d : Dict) (k v : Value) :
    (d.put k v).length = if d.hasKey k then d.length else d.length + 1 := by
  induction d with
  | nil => rfl
  | cons e d ih =>
      by_cases he : e.key.equal k = true
      · simp [put, hasKey, he]
      · have hk : hasKey (e :: d) k = hasKey d k := by simp [hasKey, he]
        rw [put, if_neg he, List.length_cons, ih, hk]
        split <;> rfl

/-- An update makes its own key and no other. -/
theorem hasKey_put (d : Dict) (k v k' : Value) : (d.put k v).hasKey k' = (d.hasKey k' || k.equal k') := by
  induction d with
  | nil => simp [put, hasKey]
  | cons e d ih =>
      by_cases he : e.key.equal k = true
      · have hk' : k.equal k' = true → e.key.equal k' = true := Value.equal_trans he
        rw [put, if_pos he]
        cases hk : k.equal k' with
        | false => simp [hasKey]
        | true => simp [hasKey, hk' hk]
      · rw [put, if_neg he]
        simp only [hasKey, List.any_cons] at ih ⊢
        rw [ih, Bool.or_assoc]

/-- An update changes the value of its own key and of no other. -/
theorem get_put (d : Dict) (k v k' : Value) : (d.put k v).get k' = if k.equal k' then v else d.get k' := by
  induction d with
  | nil => rfl
  | cons e d ih =>
      by_cases he : e.key.equal k = true
      · have hek : e.key.equal k' = k.equal k' := by
          rw [Bool.eq_iff_iff]
          rw [Value.equal_comm] at he
          exact ⟨Value.equal_trans he, Value.equal_trans (by rwa [Value.equal_comm])⟩
        rw [put, if_pos he, get, get, hek]
        split <;> rfl
      · rw [put, if_neg he, get, get, ih]
        by_cases hek : e.key.equal k' = true
        · have hk : k.equal k' = false := by
            refine Bool.eq_false_iff.mpr fun hk => he ?_
            rw [Value.equal_comm] at hk
            exact Value.equal_trans hek hk
          simp [hek, hk]
        · simp [hek]

theorem Distinct.put (hd : d.Distinct) : (d.put k v).Distinct := by
  induction d with
  | nil => exact List.pairwise_singleton _ _
  | cons e d ih =>
      obtain ⟨hhead, htail⟩ := List.pairwise_cons.mp hd
      by_cases he : e.key.equal k = true
      · rw [Dict.put, if_pos he]
        exact List.pairwise_cons.mpr ⟨hhead, htail⟩
      · rw [Dict.put, if_neg he]
        refine List.pairwise_cons.mpr ⟨fun a ha => ?_, ih htail⟩
        rcases key_of_mem_put ha with ⟨a', ha', hk⟩ | hk
        · rw [← hk]
          exact hhead a' ha'
        · rw [hk]
          exact Bool.eq_false_iff.mpr he

theorem hasKey_perm (h : d.Perm d') (k : Value) : d.hasKey k = d'.hasKey k := by
  rw [Bool.eq_iff_iff, hasKey_iff, hasKey_iff]
  simp only [h.mem_iff]

theorem Distinct.perm (hd : d.Distinct) (h : d.Perm d') : d'.Distinct :=
  h.pairwise hd fun {a b} hab => by rw [Value.equal_comm]; exact hab

/-- Of two entries with different keys at most one is under a given key. -/
theorem not_equal_both {a b : Entry} (h : a.key.equal b.key = false) (ha : a.key.equal k = true) :
    b.key.equal k = false := by
  refine Bool.eq_false_iff.mpr fun hb => ?_
  rw [Value.equal_comm] at hb
  rw [Value.equal_trans ha hb] at h
  cases h

theorem get_perm (hd : d.Distinct) (h : d.Perm d') : d.get k = d'.get k := by
  induction h with
  | nil => rfl
  | cons e h ih => simp only [get, ih hd.of_cons]
  | swap a b d =>
      have hab := List.rel_of_pairwise_cons hd List.mem_cons_self
      by_cases hb : b.key.equal k = true
      · simp only [get, if_pos hb, not_equal_both hab hb]
        rfl
      · simp only [get, if_neg hb]
  | trans h₁ h₂ ih₁ ih₂ => rw [ih₁ hd, ih₂ (hd.perm h₁)]

theorem put_perm (hd : d.Distinct) (h : d.Perm d') : (d.put k v).Perm (d'.put k v) := by
  induction h with
  | nil => exact .refl _
  | cons e h ih =>
      by_cases he : e.key.equal k = true
      · simp only [put, if_pos he]
        exact h.cons _
      · simp only [put, if_neg he]
        exact (ih hd.of_cons).cons _
  | swap a b d =>
      have hab := List.rel_of_pairwise_cons hd List.mem_cons_self
      by_cases hb : b.key.equal k = true
      · simp only [put, if_pos hb, not_equal_both hab hb]
        exact .swap _ _ _
      · by_cases ha : a.key.equal k = true
        · simp only [put, if_neg hb, if_pos ha]
          exact .swap _ _ _
        · simp only [put, if_neg hb, if_neg ha]
          exact .swap _ _ _
  | trans h₁ h₂ ih₁ ih₂ => exact (ih₁ hd).trans (ih₂ (hd.perm h₁))

end Dict

end MiniLua

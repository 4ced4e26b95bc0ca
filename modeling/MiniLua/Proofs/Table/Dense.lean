import MiniLua.Proofs.Table.Buckets

/-!
The dense part of a table. Whatever moves between the dense part and the buckets, the entries of the whole table change as
those of a dictionary do.
-/

namespace MiniLua

namespace Value

theorem inRange_succ {k : Value} {n : Nat} (hn : n + 1 ≤ maxIndex) :
    k.inRange (n + 1) = true ↔ k.inRange n = true ∨ k = ofIndex (n + 1) := by
  rw [inRange_iff hn, inRange_iff (Nat.le_of_succ_le hn)]
  constructor
  · rintro ⟨i, hi, rfl⟩
    rcases Nat.lt_succ_iff_lt_or_eq.mp hi with hi | rfl
    · exact .inl ⟨i, hi, rfl⟩
    · exact .inr rfl
  · rintro (⟨i, hi, rfl⟩ | rfl)
    · exact ⟨i, Nat.lt_succ_of_lt hi, rfl⟩
    · exact ⟨n, Nat.lt_succ_self n, rfl⟩

end Value

namespace Table

/-- Values under the integer keys from `s` on. -/
def dense (s : Nat) (vs : List Value) : Dict := (vs.zipIdx s).map fun (v, i) => ⟨.ofIndex i, v⟩

theorem entries_eq (t : Table) : t.entries = dense 1 t.array.toList ++ t.mapEntries := rfl

theorem dense_cons (s : Nat) (v : Value) (vs : List Value) :
    dense s (v :: vs) = ⟨.ofIndex s, v⟩ :: dense (s + 1) vs := rfl

theorem dense_concat (s : Nat) (vs : List Value) (v : Value) :
    dense s (vs ++ [v]) = dense s vs ++ [⟨.ofIndex (s + vs.length), v⟩] := by
  simp [dense, List.zipIdx_append]

theorem length_dense (s : Nat) (vs : List Value) : (dense s vs).length = vs.length := by
  simp [dense]

theorem mem_dense {s : Nat} {vs : List Value} {e : Entry} (h : e ∈ dense s vs) :
    ∃ i < vs.length, e.key = .ofIndex (s + i) := by
  induction vs generalizing s with
  | nil => cases h
  | cons v vs ih =>
      rcases List.mem_cons.mp h with rfl | h
      · exact ⟨0, Nat.zero_lt_succ _, rfl⟩
      · obtain ⟨i, hi, he⟩ := ih h
        exact ⟨i + 1, Nat.succ_lt_succ hi, by rw [he, Nat.add_right_comm, Nat.add_assoc]⟩

theorem equal_ofIndex {i j : Nat} (hi : i ≤ maxIndex) (hj : j ≤ maxIndex) :
    (Value.ofIndex i).equal (.ofIndex j) = true ↔ i = j := by
  rw [← Value.ofIndex_inj hi hj]
  exact Value.equal_int

theorem hasKey_dense {s : Nat} {vs : List Value} {i : Nat} (hi : i < vs.length) :
    Dict.hasKey (dense s vs) (.ofIndex (s + i)) = true := by
  induction vs generalizing s i with
  | nil => cases hi
  | cons v vs ih =>
      rw [dense_cons, Dict.hasKey, List.any_cons, Bool.or_eq_true]
      cases i with
      | zero => exact .inl (Value.equal_self rfl)
      | succ i =>
          rw [Nat.add_succ, ← Nat.succ_add]
          exact .inr (ih (Nat.lt_of_succ_lt_succ hi))

theorem hasKey_dense_eq {vs : List Value} (h : vs.length ≤ maxIndex) (k : Value) :
    Dict.hasKey (dense 1 vs) k = k.inRange vs.length := by
  rw [Bool.eq_iff_iff, Value.inRange_iff h]
  constructor
  · intro hk
    obtain ⟨e, he, hek⟩ := Dict.hasKey_iff.mp hk
    obtain ⟨i, hi, hkey⟩ := mem_dense he
    rw [hkey, Value.equal_comm] at hek
    exact ⟨i, hi, by rw [Value.equal_int.mp hek, Nat.add_comm]; rfl⟩
  · rintro ⟨i, hi, rfl⟩
    rw [Nat.add_comm]
    exact hasKey_dense hi

theorem distinct_dense {s : Nat} {vs : List Value} (h : s + vs.length ≤ maxIndex + 1) : Dict.Distinct (dense s vs) := by
  induction vs generalizing s with
  | nil => exact .nil
  | cons v vs ih =>
      rw [List.length_cons] at h
      refine List.pairwise_cons.mpr ⟨fun e he => ?_, ih (by omega)⟩
      obtain ⟨i, hi, hkey⟩ := mem_dense he
      rw [hkey, Bool.eq_false_iff]
      change ¬(Value.ofIndex s).equal (.ofIndex (s + 1 + i)) = true
      rw [equal_ofIndex (by omega) (by omega)]
      omega

theorem get_dense {s : Nat} {vs : List Value} {i : Nat} (hi : i < vs.length) (h : s + vs.length ≤ maxIndex + 1) :
    Dict.get (.ofIndex (s + i)) (dense s vs) = vs.getD i .nil := by
  induction vs generalizing s i with
  | nil => cases hi
  | cons v vs ih =>
      rw [List.length_cons] at h hi
      rw [dense_cons, Dict.get]
      change (if (Value.ofIndex s).equal (.ofIndex (s + i)) = true then v else _) = _
      cases i with
      | zero => exact if_pos (Value.equal_self rfl)
      | succ i =>
          rw [if_neg (by rw [equal_ofIndex (by omega) (by omega)]; omega), Nat.add_succ, ← Nat.succ_add,
            ih (by omega) (by omega)]
          rfl

theorem put_dense {s : Nat} {vs : List Value} {i : Nat} (v : Value) (hi : i < vs.length)
    (h : s + vs.length ≤ maxIndex + 1) : Dict.put (.ofIndex (s + i)) v (dense s vs) = dense s (vs.set i v) := by
  induction vs generalizing s i with
  | nil => cases hi
  | cons w vs ih =>
      rw [List.length_cons] at h hi
      rw [dense_cons, Dict.put]
      change (if (Value.ofIndex s).equal (.ofIndex (s + i)) = true then _ else _) = _
      cases i with
      | zero => exact if_pos (Value.equal_self rfl)
      | succ i =>
          rw [if_neg (by rw [equal_ofIndex (by omega) (by omega)]; omega), Nat.add_succ, ← Nat.succ_add,
            ih (by omega) (by omega)]
          rfl

variable {byteHash : Bytes → UInt64} {t : Table} {k v : Value}

theorem arrayIndex?_cases (h : t.array.size ≤ maxIndex) (k : Value) :
    (t.arrayIndex? k = none ∧ k.inRange t.array.size = false) ∨
      ∃ i < t.array.size, t.arrayIndex? k = some i ∧ k = .ofIndex (1 + i) := by
  cases hk : k.inRange t.array.size with
  | false =>
      refine .inl ⟨?_, rfl⟩
      cases k with
      | int j => exact if_neg (by simpa [Value.inRange] using hk)
      | nil | bool | float | native | str | table => rfl
  | true =>
      obtain ⟨i, hi, rfl⟩ := (Value.inRange_iff h).mp hk
      refine .inr ⟨i, hi, ?_, by rw [Nat.add_comm]⟩
      simp only [Value.ofIndex, arrayIndex?, Value.toInt_ofNat (Nat.le_trans hi h)]
      rw [if_pos (by omega)]
      congr 1
      omega

theorem entries_push (t : Table) (v : Value) : (t.push v).entries.Perm (⟨t.nextKey, v⟩ :: t.entries) := by
  have hdense : dense 1 (t.array.push v).toList = dense 1 t.array.toList ++ [⟨t.nextKey, v⟩] := by
    rw [Array.toList_push, dense_concat, Array.length_toList, Nat.add_comm]
    rfl
  rw [entries_eq, entries_eq]
  change (dense 1 (t.array.push v).toList ++ t.mapEntries).Perm _
  rw [hdense, List.append_assoc]
  exact List.perm_middle

theorem size_push (t : Table) (v : Value) : (t.push v).array.size = t.array.size + 1 := Array.size_push v

namespace Sound

variable {n : Nat}

theorem push (ht : Sound byteHash n t) (v : Value) : Sound byteHash n (t.push v) :=
  ⟨ht.hashed, ht.nonempty, ht.distinct, ht.proper, ht.count, ht.sparse⟩

theorem succ (ht : Sound byteHash n t) (hn : n + 1 ≤ maxIndex)
    (h : Dict.hasKey t.mapEntries (.ofIndex (n + 1)) = false) : Sound byteHash (n + 1) t := by
  refine ⟨ht.hashed, ht.nonempty, ht.distinct, ht.proper, ht.count, fun e he => ?_⟩
  refine Bool.eq_false_iff.mpr fun hr => ?_
  rcases (Value.inRange_succ hn).mp hr with hr | hr
  · rw [ht.sparse e he] at hr
    cases hr
  · have := Dict.hasKey_eq_false.mp h e he
    rw [hr] at this
    cases this.symm.trans (Value.equal_self rfl)

theorem of_succ (ht : Sound byteHash (n + 1) t) (hn : n + 1 ≤ maxIndex) : Sound byteHash n t := by
  refine ⟨ht.hashed, ht.nonempty, ht.distinct, ht.proper, ht.count, fun e he => ?_⟩
  refine Bool.eq_false_iff.mpr fun hr => ?_
  cases (ht.sparse e he).symm.trans ((Value.inRange_succ hn).mpr (.inl hr))

theorem hasKey_dense (ht : Sound byteHash t.array.size t) (h : t.array.size ≤ maxIndex) {e : Entry}
    (he : e ∈ t.mapEntries) : Dict.hasKey (dense 1 t.array.toList) e.key = false := by
  rw [hasKey_dense_eq (by simpa using h), Array.length_toList]
  exact ht.sparse e he

theorem entries_distinct (ht : Sound byteHash t.array.size t) (h : t.array.size ≤ maxIndex) :
    Dict.Distinct t.entries := by
  refine List.pairwise_append.mpr ⟨distinct_dense ?_, ht.distinct, fun a ha e he => ?_⟩
  · rw [Array.length_toList]
    omega
  · exact Dict.hasKey_eq_false.mp (ht.hasKey_dense h he) a ha

end Sound

/-- Looking a key up in the table is looking it up among its entries. -/
theorem get_eq (ht : Sound byteHash t.array.size t) (h : t.array.size ≤ maxIndex) (k : Value) :
    t.get byteHash k = Dict.get k t.entries := by
  have hdense : Dict.hasKey (dense 1 t.array.toList) k = k.inRange t.array.size := by
    rw [hasKey_dense_eq (by simpa using h), Array.length_toList]
  have hfind : ∀ es : List Entry, ((es.find? (·.key.equal k)).map Entry.value).getD .nil = Dict.get k es := by
    intro es
    induction es with
    | nil => rfl
    | cons e es ih =>
        by_cases he : e.key.equal k = true
        · simp [Dict.get, he]
        · simp [Dict.get, he, ih]
  by_cases hk : k.isNil = true
  · rw [get, if_pos hk, Dict.get_of_hasKey_false]
    have hnil : k = .nil := by
      cases k with
      | nil => rfl
      | bool | int | float | native | str | table => cases hk
    subst hnil
    rw [entries_eq, Dict.hasKey_append, hdense]
    refine Dict.hasKey_eq_false.mpr fun e he => Bool.eq_false_iff.mpr fun hek => ?_
    have := (ht.proper e he).1
    rw [Value.equal_nil.mp hek] at this
    cases this
  · rw [get, if_neg hk, entries_eq]
    rcases arrayIndex?_cases h k with ⟨hi, hr⟩ | ⟨i, hlt, hi, rfl⟩
    · rw [hi, Dict.get_append_right (hdense.trans hr), ← ht.get_bucket]
      exact hfind _
    · have hlt' : i < t.array.toList.length := by simpa using hlt
      rw [hi, Dict.get_append_left (hasKey_dense hlt'), get_dense hlt' (by rw [Array.length_toList]; omega)]
      simp

/-- The key that continues the dense part is outside the buckets, or is taken out of them with its value. -/
theorem remove_next (ht : Sound byteHash t.array.size t) (h : t.array.size + 1 ≤ maxIndex) :
    (t.remove byteHash t.nextKey = none ∧ Dict.hasKey t.mapEntries t.nextKey = false ∧
        Sound byteHash (t.array.size + 1) t) ∨
      ∃ v t', t.remove byteHash t.nextKey = some (v, t') ∧ t'.array = t.array ∧
        t.mapEntries.Perm (⟨t.nextKey, v⟩ :: t'.mapEntries) ∧ Sound byteHash (t.array.size + 1) t' := by
  rcases remove_cases ht t.nextKey with ⟨hnone, hkey⟩ | ⟨e, t', hsome, hek, harray, hperm, ht'⟩
  · exact .inl ⟨hnone, hkey, ht.succ h hkey⟩
  · have hekey : e.key = t.nextKey := Value.equal_int.mp hek
    refine .inr ⟨e.value, t', hsome, harray, by rw [← hekey]; exact hperm, ht'.succ h ?_⟩
    refine Dict.hasKey_eq_false.mpr fun a ha => ?_
    exact Dict.not_equal_both (List.rel_of_pairwise_cons (ht.distinct.perm hperm) ha) hek

theorem hasKey_nextKey (h : t.array.size + 1 ≤ maxIndex) :
    Dict.hasKey (dense 1 t.array.toList) t.nextKey = false := by
  rw [hasKey_dense_eq (by simp; omega), Array.length_toList, Bool.eq_false_iff, Ne, nextKey, ← Value.ofIndex,
    Value.inRange_ofIndex h]
  omega

theorem remove_array {t' : Table} (h : t.remove byteHash k = some (v, t')) : t'.array = t.array := by
  unfold remove at h
  split at h
  · cases h
  · dsimp only at h
    split at h
    · obtain ⟨-, rfl⟩ := Prod.mk.inj (Option.some.inj h)
      unfold setBucket
      split <;> rfl
    · cases h

/-- The dense part grows by one value; what the buckets have under its key is given up. -/
def extend (byteHash : Bytes → UInt64) (t : Table) (v : Value) : Table := (t.discard byteHash t.nextKey).push v

theorem size_extend (byteHash : Bytes → UInt64) (t : Table) (v : Value) :
    (t.extend byteHash v).array.size = t.array.size + 1 := by
  rw [extend, size_push, discard]
  cases h : t.remove byteHash t.nextKey with
  | none => rfl
  | some p => exact congrArg (·.size + 1) (remove_array h)

theorem extend_entries (ht : Sound byteHash t.array.size t) (h : t.array.size + 1 ≤ maxIndex) (v : Value) :
    Sound byteHash (t.array.size + 1) (t.extend byteHash v) ∧
      (t.extend byteHash v).entries.Perm (Dict.put t.nextKey v t.entries) := by
  have hdense : Dict.put t.nextKey v t.entries = _ := Dict.put_append_right (hasKey_nextKey h)
  rcases remove_next ht h with ⟨hnone, hkey, ht'⟩ | ⟨w, t', hsome, harray, hperm, ht'⟩
  · have hextend : t.extend byteHash v = t.push v := by rw [extend, discard, hnone]; rfl
    rw [hextend]
    refine ⟨ht'.push v, ?_⟩
    rw [hdense, Dict.put_of_hasKey_false hkey, ← List.append_assoc]
    exact (t.entries_push v).trans (List.perm_append_singleton _ _).symm
  · have hextend : t.extend byteHash v = t'.push v := by rw [extend, discard, hsome]; rfl
    rw [hextend]
    refine ⟨ht'.push v, ?_⟩
    have hput := Dict.put_perm (k := t.nextKey) (v := v) ht.distinct hperm
    rw [Dict.put, if_pos (Value.equal_self rfl)] at hput
    rw [hdense]
    refine (t'.entries_push v).trans (.trans ?_ (hput.append_left _).symm)
    have hnext : t'.nextKey = t.nextKey := by rw [nextKey, nextKey, harray]
    rw [hnext, entries_eq, harray]
    exact List.perm_middle.symm

theorem size_migrateUpTo (n : Nat) (t : Table) : t.array.size ≤ (migrateUpTo byteHash n t).array.size := by
  induction n generalizing t with
  | zero => exact Nat.le_refl _
  | succ n ih =>
      rw [migrateUpTo]
      split
      · next v t' h =>
        have := ih (t'.push v)
        rw [size_push, remove_array h] at this
        exact Nat.le_of_succ_le this
      · exact Nat.le_refl _

/-- A migration leaves the entries as they are and the key that continues the dense part outside the buckets. -/
theorem migrateUpTo_entries {n : Nat} (ht : Sound byteHash t.array.size t) (hn : t.count ≤ n)
    (h : (migrateUpTo byteHash n t).array.size + 1 ≤ maxIndex) :
    let t' := migrateUpTo byteHash n t
    Sound byteHash (t'.array.size + 1) t' ∧ t'.entries.Perm t.entries := by
  induction n generalizing t with
  | zero =>
      refine ⟨ht.succ h ?_, .refl _⟩
      rw [List.eq_nil_of_length_eq_zero (ht.count.symm.trans (Nat.le_zero.mp hn))]
      rfl
  | succ n ih =>
      have hsize := Nat.le_trans (Nat.succ_le_succ (size_migrateUpTo (n + 1) t)) h
      rw [migrateUpTo] at h ⊢
      rcases remove_next ht hsize with ⟨hnone, -, ht'⟩ | ⟨v, t', hsome, harray, hperm, ht'⟩
      · rw [hnone]
        exact ⟨ht', .refl _⟩
      · rw [hsome] at h ⊢
        have hcount : t.count = t'.count + 1 := by rw [ht.count, ht'.count, hperm.length_eq, List.length_cons]
        have hpush : Sound byteHash (t'.push v).array.size (t'.push v) := by
          rw [size_push, harray]
          exact ht'.push v
        have hrest := ih hpush (by change t'.count ≤ n; omega) h
        refine ⟨hrest.1, hrest.2.trans ((t'.entries_push v).trans ?_)⟩
        have hnext : t'.nextKey = t.nextKey := by rw [nextKey, nextKey, harray]
        rw [hnext, entries_eq, entries_eq, harray]
        exact List.perm_middle.symm.trans (hperm.symm.append_left _)

theorem insert_array (t : Table) (k v : Value) : (t.insert byteHash k v).array = t.array := by
  rw [insert_eq]
  unfold setBucket
  split <;> rfl

theorem size_put (t : Table) (k v : Value) : t.array.size ≤ (t.put byteHash k v).array.size := by
  unfold put
  split
  · exact Nat.le_of_eq Array.size_setIfInBounds.symm
  · split
    · next hk =>
      subst hk
      exact Nat.le_trans (Nat.le_of_succ_le (Nat.le_of_eq (size_extend byteHash t v).symm)) (size_migrateUpTo _ _)
    · exact Nat.le_of_eq (congrArg Array.size (insert_array t k v).symm)

/-- An update of a table is an update of its entries. -/
theorem put_entries (ht : Sound byteHash (t.array.size + 1) t) (hk : k.isNil = false ∧ k.isNaN = false)
    (h : (t.put byteHash k v).array.size + 1 ≤ maxIndex) :
    let t' := t.put byteHash k v
    Sound byteHash (t'.array.size + 1) t' ∧ t'.entries.Perm (Dict.put k v t.entries) := by
  have hsize := Nat.le_trans (Nat.succ_le_succ (size_put t k v)) h
  have hloose := ht.of_succ hsize
  intro t'
  rcases arrayIndex?_cases (Nat.le_of_succ_le hsize) k with ⟨hi, hr⟩ | ⟨i, hlt, hi, rfl⟩
  · by_cases hnext : k = t.nextKey
    · subst hnext
      have ht' : t' = migrate byteHash (t.extend byteHash v) := by simp only [t', put, extend, hi, if_pos]
      change t'.array.size + 1 ≤ maxIndex at h
      rw [ht'] at h ⊢
      obtain ⟨hsound, hperm⟩ := extend_entries hloose hsize v
      rw [← size_extend byteHash t v] at hsound
      obtain ⟨hsound', hperm'⟩ := migrateUpTo_entries hsound (Nat.le_refl _) h
      exact ⟨hsound', hperm'.trans hperm⟩
    · have ht' : t' = t.insert byteHash k v := by simp only [t', put, hi, if_neg hnext]
      have hr' : k.inRange (t.array.size + 1) = false := by
        refine Bool.eq_false_iff.mpr fun hin => ?_
        rcases (Value.inRange_succ hsize).mp hin with hin | hin
        · cases hr.symm.trans hin
        · exact hnext hin
      rw [ht', insert_array]
      refine ⟨insert_sound ht hk hr', ?_⟩
      have hdense : Dict.hasKey (dense 1 t.array.toList) k = false := by
        rw [hasKey_dense_eq (by simp; omega), Array.length_toList]
        exact hr
      rw [entries_eq, entries_eq, insert_array, Dict.put_append_right hdense]
      exact (insert_mapEntries ht k v).append_left _
  · have ht' : t' = { t with array := t.array.setIfInBounds i v } := by simp only [t', put, hi]
    have hlt' : i < t.array.toList.length := by simpa using hlt
    rw [ht']
    refine ⟨?_, ?_⟩
    · rw [Array.size_setIfInBounds]
      exact ⟨ht.hashed, ht.nonempty, ht.distinct, ht.proper, ht.count, ht.sparse⟩
    · rw [entries_eq t, Dict.put_append_left (hasKey_dense hlt'), put_dense v hlt' (by simp; omega),
        ← Array.toList_setIfInBounds]
      exact .refl _

theorem fill_perm {d d' : Dict} (n : Nat) (vs : List Value) (hd : d.Distinct) (h : d.Perm d') :
    (Dict.fill n vs d).Perm (Dict.fill n vs d') := by
  induction vs generalizing n d d' with
  | nil => exact h
  | cons v vs ih => exact ih (n + 1) hd.put (Dict.put_perm hd h)

theorem size_extends (byteHash : Bytes → UInt64) (t : Table) (vs : List Value) :
    (vs.foldl (extend byteHash) t).array.size = t.array.size + vs.length := by
  induction vs generalizing t with
  | nil => rfl
  | cons v vs ih =>
      rw [List.foldl_cons, ih, size_extend, List.length_cons]
      omega

theorem size_append (byteHash : Bytes → UInt64) (t : Table) (vs : List Value) :
    t.array.size + vs.length ≤ (t.append byteHash vs).array.size := by
  rw [← size_extends byteHash]
  exact size_migrateUpTo _ _

theorem extends_entries (vs : List Value) (ht : Sound byteHash t.array.size t)
    (h : t.array.size + vs.length ≤ maxIndex) :
    let t' := vs.foldl (extend byteHash) t
    Sound byteHash t'.array.size t' ∧ t'.entries.Perm (Dict.fill t.array.size vs t.entries) := by
  induction vs generalizing t with
  | nil => exact ⟨ht, .refl _⟩
  | cons v vs ih =>
      rw [List.length_cons] at h
      have hsize := size_extend byteHash t v
      obtain ⟨hsound, hperm⟩ := extend_entries ht (by omega) v
      rw [← hsize] at hsound
      obtain ⟨hsound', hperm'⟩ := ih hsound (by omega)
      refine ⟨hsound', hperm'.trans ?_⟩
      rw [hsize]
      exact fill_perm _ vs (hsound.entries_distinct (by omega)) hperm

/-- Appending values updates the integer keys behind the dense part. -/
theorem append_entries (ht : Sound byteHash (t.array.size + 1) t) (vs : List Value)
    (h : (t.append byteHash vs).array.size + 1 ≤ maxIndex) :
    let t' := t.append byteHash vs
    Sound byteHash (t'.array.size + 1) t' ∧ t'.entries.Perm (Dict.fill t.array.size vs t.entries) := by
  have hsize := size_append byteHash t vs
  obtain ⟨hsound, hperm⟩ := extends_entries vs (ht.of_succ (by omega)) (by omega)
  obtain ⟨hsound', hperm'⟩ := migrateUpTo_entries hsound (Nat.le_refl _) h
  exact ⟨hsound', hperm'.trans hperm⟩

end Table

end MiniLua

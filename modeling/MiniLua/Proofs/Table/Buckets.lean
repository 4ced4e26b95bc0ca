import MiniLua.Proofs.Table.Dictionary

/-!
Buckets. The entries outside the dense part of a table are a dictionary that is spread over buckets by a hash; which hash
it is plays no part, as long as keys that are the same go to the same bucket.
-/

namespace MiniLua.Table

open Std (ExtTreeMap)

/-- The entries in all buckets but one. -/
def others (t : Table) (h : UInt64) : List Entry := (t.buckets.erase h).toList.flatMap Prod.snd

theorem mem_flatMap_buckets {b : ExtTreeMap UInt64 (List Entry)} {e : Entry} :
    e ∈ b.toList.flatMap Prod.snd ↔ ∃ h, e ∈ b.getD h [] := by
  simp only [List.mem_flatMap, Prod.exists, ExtTreeMap.mem_toList_iff_getElem?_eq_some, ExtTreeMap.getD_eq_getD_getElem?]
  constructor
  · rintro ⟨h, es, hes, he⟩
    exact ⟨h, by rw [hes]; exact he⟩
  · rintro ⟨h, he⟩
    cases hes : b[h]? with
    | none =>
        rw [hes] at he
        cases he
    | some es =>
        rw [hes] at he
        exact ⟨h, es, hes, he⟩

theorem mem_mapEntries {t : Table} {e : Entry} : e ∈ t.mapEntries ↔ ∃ h, e ∈ t.buckets.getD h [] := mem_flatMap_buckets

theorem mem_others {t : Table} {h : UInt64} {e : Entry} : e ∈ t.others h ↔ ∃ h' ≠ h, e ∈ t.buckets.getD h' [] := by
  rw [others, mem_flatMap_buckets]
  simp only [ExtTreeMap.getD_erase, Std.compare_eq_iff_eq]
  constructor
  · rintro ⟨h', he⟩
    by_cases hh : h = h'
    · rw [if_pos hh] at he
      cases he
    · rw [if_neg hh] at he
      exact ⟨h', Ne.symm hh, he⟩
  · rintro ⟨h', hne, he⟩
    exact ⟨h', by rw [if_neg (Ne.symm hne)]; exact he⟩

/-- The entries in one bucket, and all the others. -/
theorem mapEntries_perm (t : Table) (h : UInt64) : t.mapEntries.Perm (t.buckets.getD h [] ++ t.others h) := by
  have hnodup (b : ExtTreeMap UInt64 (List Entry)) : b.toList.Nodup :=
    b.distinct_keys_toList.imp fun {x y} hxy hne => hxy (by rw [hne]; exact Std.ReflCmp.compare_self)
  rw [ExtTreeMap.getD_eq_getD_getElem?]
  cases hes : t.buckets[h]? with
  | none =>
      have herase : t.buckets.erase h = t.buckets := by
        apply ExtTreeMap.ext_getElem?
        intro k
        rw [ExtTreeMap.getElem?_erase]
        split
        · next hk => rw [← Std.compare_eq_iff_eq.mp hk, hes]
        · rfl
      rw [others, herase]
      exact .refl _
  | some es =>
      have hsplit : t.buckets.toList.Perm ((h, es) :: (t.buckets.erase h).toList) := by
        refine (List.perm_ext_iff_of_nodup (hnodup _) (List.nodup_cons.mpr ⟨?_, hnodup _⟩)).mpr ?_
        · rw [ExtTreeMap.mem_toList_iff_getElem?_eq_some, ExtTreeMap.getElem?_erase_self]
          exact nofun
        · rintro ⟨k, ks⟩
          simp only [List.mem_cons, ExtTreeMap.mem_toList_iff_getElem?_eq_some, ExtTreeMap.getElem?_erase,
            Std.compare_eq_iff_eq]
          by_cases hk : h = k
          · subst hk
            simp [hes, eq_comm]
          · simp [hk, Ne.symm hk]
      exact hsplit.flatMap_right Prod.snd

variable {byteHash : Bytes → UInt64} {t : Table} {k v : Value}

theorem mapEntries_perm_bucket (byteHash : Bytes → UInt64) (t : Table) (k : Value) :
    t.mapEntries.Perm (t.bucket byteHash k ++ t.others (byteHash k.hashed)) := t.mapEntries_perm (byteHash k.hashed)

theorem buckets_setBucket (t : Table) (k : Value) (es : List Entry) (h : UInt64) :
    (t.setBucket byteHash k es).buckets.getD h [] = if byteHash k.hashed = h then es else t.buckets.getD h [] := by
  unfold setBucket
  split
  · next hes =>
    rw [List.isEmpty_iff] at hes
    simp only [ExtTreeMap.getD_erase, Std.compare_eq_iff_eq, hes]
  · simp only [ExtTreeMap.getD_insert, Std.compare_eq_iff_eq]

theorem mapEntries_setBucket (byteHash : Bytes → UInt64) (t : Table) (k : Value) (es : List Entry) :
    (t.setBucket byteHash k es).mapEntries.Perm (es ++ t.others (byteHash k.hashed)) := by
  have hothers : (t.setBucket byteHash k es).others (byteHash k.hashed) = t.others (byteHash k.hashed) := by
    unfold others
    congr 2
    apply ExtTreeMap.ext_getElem?
    intro h
    unfold setBucket
    split <;> simp only [ExtTreeMap.getElem?_erase, ExtTreeMap.getElem?_insert, Std.compare_eq_iff_eq] <;> split <;> rfl
  have := (t.setBucket byteHash k es).mapEntries_perm (byteHash k.hashed)
  rwa [buckets_setBucket, if_pos rfl, hothers] at this

/-- What holds of a table after every operation; `n` is how far the integers are kept out of the buckets. -/
structure Sound (byteHash : Bytes → UInt64) (n : Nat) (t : Table) : Prop where
  hashed : ∀ h, ∀ e ∈ t.buckets.getD h [], byteHash e.key.hashed = h
  nonempty : ∀ h : UInt64, t.buckets[h]? ≠ some []
  distinct : Dict.Distinct t.mapEntries
  proper : ∀ e ∈ t.mapEntries, e.key.isNil = false ∧ e.key.isNaN = false
  count : t.count = t.mapEntries.length
  sparse : ∀ e ∈ t.mapEntries, e.key.inRange n = false

theorem setBucket_nonempty (h : ∀ h : UInt64, t.buckets[h]? ≠ some []) (k : Value) (es : List Entry) (i : UInt64) :
    (t.setBucket byteHash k es).buckets[i]? ≠ some [] := by
  unfold setBucket
  split
  · simp only [ExtTreeMap.getElem?_erase]
    split
    · exact nofun
    · exact h i
  · next hes =>
    simp only [ExtTreeMap.getElem?_insert]
    split
    · intro he
      rw [Option.some.inj he] at hes
      exact hes rfl
    · exact h i

namespace Sound

variable {n : Nat}

/-- Keys that are the same are in the same bucket. -/
theorem hasKey_others (ht : Sound byteHash n t) (k : Value) :
    Dict.hasKey (t.others (byteHash k.hashed)) k = false := by
  rw [Dict.hasKey_eq_false]
  intro e he
  obtain ⟨h, hne, he⟩ := mem_others.mp he
  refine Bool.eq_false_iff.mpr fun hk => hne ?_
  rw [← ht.hashed h e he, Value.hashed_eq_of_equal hk]

theorem hasKey_bucket (ht : Sound byteHash n t) (k : Value) :
    Dict.hasKey (t.bucket byteHash k) k = Dict.hasKey t.mapEntries k := by
  rw [Dict.hasKey_perm (t.mapEntries_perm_bucket byteHash k), Dict.hasKey_append, ht.hasKey_others, Bool.or_false]

theorem get_bucket (ht : Sound byteHash n t) (k : Value) :
    Dict.get k (t.bucket byteHash k) = Dict.get k t.mapEntries := by
  rw [Dict.get_perm ht.distinct (t.mapEntries_perm_bucket byteHash k)]
  cases hk : Dict.hasKey (t.bucket byteHash k) k with
  | true => exact (Dict.get_append_left hk).symm
  | false =>
      rw [Dict.get_of_hasKey_false hk]
      refine (Dict.get_of_hasKey_false ?_).symm
      rw [Dict.hasKey_append, ht.hasKey_others, Bool.or_false]
      exact hk

end Sound

theorem replaceIn_eq_put {es : List Entry} (h : Dict.hasKey es k = true) : replaceIn k v es = Dict.put k v es := by
  induction es with
  | nil => cases h
  | cons e es ih =>
      by_cases he : e.key.equal k = true
      · simp only [replaceIn, Dict.put, if_pos he]
      · simp only [replaceIn, Dict.put, if_neg he]
        rw [ih (by simpa [Dict.hasKey, he] using h)]

/-- An insertion updates the bucket of the key. -/
theorem insert_eq (t : Table) (k v : Value) :
    t.insert byteHash k v =
      { t.setBucket byteHash k (Dict.put k v (t.bucket byteHash k)) with
        count := if Dict.hasKey (t.bucket byteHash k) k then t.count else t.count + 1 } := by
  change (if Dict.hasKey (t.bucket byteHash k) k = true then _ else _) = _
  by_cases hk : Dict.hasKey (t.bucket byteHash k) k = true
  · rw [if_pos hk, if_pos hk, ← replaceIn_eq_put hk]
    unfold setBucket
    split <;> rfl
  · rw [if_neg hk, if_neg hk, Dict.put_of_hasKey_false (Bool.eq_false_iff.mpr hk)]

theorem insert_mapEntries {n : Nat} (ht : Sound byteHash n t) (k v : Value) :
    (t.insert byteHash k v).mapEntries.Perm (Dict.put k v t.mapEntries) := by
  have hset := t.mapEntries_setBucket byteHash k (Dict.put k v (t.bucket byteHash k))
  rw [insert_eq]
  refine hset.trans (.trans ?_ (Dict.put_perm ht.distinct (t.mapEntries_perm_bucket byteHash k)).symm)
  cases hk : Dict.hasKey (t.bucket byteHash k) k with
  | true => rw [Dict.put_append_left hk]
  | false =>
      rw [Dict.put_append_right hk, Dict.put_of_hasKey_false (ht.hasKey_others k), Dict.put_of_hasKey_false hk,
        List.append_assoc]
      exact List.perm_append_comm.append_left _

theorem insert_sound {n : Nat} (ht : Sound byteHash n t) (hk : k.isNil = false ∧ k.isNaN = false)
    (hr : k.inRange n = false) : Sound byteHash n (t.insert byteHash k v) := by
  have hperm := insert_mapEntries ht k v
  have hkey {e : Entry} (he : e ∈ (t.insert byteHash k v).mapEntries) :
      (∃ e' ∈ t.mapEntries, e'.key = e.key) ∨ e.key = k :=
    Dict.key_of_mem_put (hperm.mem_iff.mp he)
  refine ⟨fun h e he => ?_, fun h => ?_, ht.distinct.put.perm hperm.symm, fun e he => ?_, ?_, fun e he => ?_⟩
  · rw [insert_eq] at he
    change e ∈ (t.setBucket byteHash k _).buckets.getD h [] at he
    rw [buckets_setBucket] at he
    split at he
    · next hh =>
      rcases Dict.key_of_mem_put he with ⟨e', he', hkey⟩ | hkey
      · rw [← hkey, ← hh]
        exact ht.hashed _ e' he'
      · rw [hkey, hh]
    · exact ht.hashed h e he
  · rw [insert_eq]
    exact setBucket_nonempty ht.nonempty k _ h
  · rcases hkey he with ⟨e', he', h⟩ | h
    · rw [← h]
      exact ht.proper e' he'
    · rw [h]
      exact hk
  · rw [hperm.length_eq, Dict.length_put, insert_eq, ← ht.hasKey_bucket, ht.count]
  · rcases hkey he with ⟨e', he', h⟩ | h
    · rw [← h]
      exact ht.sparse e' he'
    · rw [h]
      exact hr

theorem find?_perm_eraseP {es : List Entry} {e : Entry} (h : es.find? (·.key.equal k) = some e) :
    e.key.equal k = true ∧ es.Perm (e :: es.eraseP (·.key.equal k)) := by
  obtain ⟨he, before, behind, rfl, hbefore⟩ := List.find?_eq_some_iff_append.mp h
  refine ⟨he, ?_⟩
  rw [List.eraseP_append_right _ fun b hb => by simpa using hbefore b hb, List.eraseP_cons, he]
  exact List.perm_middle

/-- A table whose bucket has lost an entry. -/
theorem shrink_sound {n : Nat} {e : Entry} {es : List Entry} (ht : Sound byteHash n t)
    (h : (t.bucket byteHash k).Perm (e :: es)) :
    let t' := { t.setBucket byteHash k es with count := t.count - 1 }
    t.mapEntries.Perm (e :: t'.mapEntries) ∧ Sound byteHash n t' := by
  intro t'
  have hperm : t.mapEntries.Perm (e :: t'.mapEntries) :=
    ((t.mapEntries_perm_bucket byteHash k).trans (h.append_right _)).trans
      ((t.mapEntries_setBucket byteHash k es).symm.cons e)
  have hmem {e' : Entry} (he' : e' ∈ t'.mapEntries) : e' ∈ t.mapEntries := hperm.mem_iff.mpr (List.mem_cons_of_mem _ he')
  refine ⟨hperm, fun i e' he' => ?_, fun i => ?_, (ht.distinct.perm hperm).of_cons, fun e' he' => ht.proper e' (hmem he'),
    ?_, fun e' he' => ht.sparse e' (hmem he')⟩
  · change e' ∈ (t.setBucket byteHash k es).buckets.getD i [] at he'
    rw [buckets_setBucket] at he'
    split at he'
    · next hi =>
      rw [← hi]
      exact ht.hashed _ e' (h.mem_iff.mpr (List.mem_cons_of_mem _ he'))
    · exact ht.hashed i e' he'
  · exact setBucket_nonempty ht.nonempty k es i
  · change t.count - 1 = _
    rw [ht.count, hperm.length_eq, List.length_cons, Nat.add_sub_cancel]

/-- A removal finds no entry under the key, or takes out the one that is there. -/
theorem remove_cases {n : Nat} (ht : Sound byteHash n t) (k : Value) :
    (t.remove byteHash k = none ∧ Dict.hasKey t.mapEntries k = false) ∨
      ∃ e t', t.remove byteHash k = some (e.value, t') ∧ e.key.equal k = true ∧ t'.array = t.array ∧
        t.mapEntries.Perm (e :: t'.mapEntries) ∧ Sound byteHash n t' := by
  by_cases hcount : t.count = 0
  · refine .inl ⟨by rw [remove, if_pos hcount], ?_⟩
    rw [List.eq_nil_of_length_eq_zero (ht.count.symm.trans hcount)]
    rfl
  · cases hfind : (t.bucket byteHash k).find? (·.key.equal k) with
    | none =>
        refine .inl ⟨by simp only [remove, if_neg hcount, hfind], ?_⟩
        rw [← ht.hasKey_bucket, Dict.hasKey_eq_false]
        simpa [List.find?_eq_none] using hfind
    | some e =>
        obtain ⟨hek, hperm⟩ := find?_perm_eraseP hfind
        obtain ⟨hentries, hsound⟩ := shrink_sound ht hperm
        refine .inr ⟨e, _, by simp only [remove, if_neg hcount, hfind], hek, ?_, hentries, hsound⟩
        unfold setBucket
        split <;> rfl

end MiniLua.Table

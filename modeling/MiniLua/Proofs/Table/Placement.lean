import MiniLua.Proofs.Table.Refinement

/-!
Tables built from a list of entries, some with a key of their own and some only with a position. The values without a key
wait and are moved behind the dense part in groups of fifty, so an entry with a key may get there before them.
-/

namespace MiniLua

/-- An entry of a table constructor. -/
inductive Part where
  | positional (v : Value)
  | keyed (k v : Value)
  deriving DecidableEq

namespace Part

/-- The values without a key. -/
def values : List Part → List Value
  | [] => []
  | .positional v :: parts => v :: values parts
  | .keyed _ _ :: parts => values parts

/-- The entries with a key. -/
def entries : List Part → Dict
  | [] => []
  | .positional _ :: parts => entries parts
  | .keyed k v :: parts => ⟨k, v⟩ :: entries parts

/-- The changes that build the table: an entry with a key is stored at once, the others wait until there are fifty of
them or no more entries come. -/
def changes (waiting : List Value) : List Part → List Op
  | [] => if waiting.isEmpty then [] else [.append waiting]
  | .positional v :: parts =>
    if waiting.length + 1 = 50 then .append (waiting ++ [v]) :: changes [] parts else changes (waiting ++ [v]) parts
  | .keyed k v :: parts => .set k v :: changes waiting parts

/-- The key is not the first index of a group from the group `q` on, among `total` values. -/
def Free (total q : Nat) (k : Value) : Prop := ∀ q', q ≤ q' → 50 * q' < total → k ≠ .ofIndex (50 * q' + 1)

/-- No key is the first index of a group that is still to be moved when the entry is stored; `count` values come before
these entries, and there are `total` values in all. -/
def Clear (total : Nat) : Nat → List Part → Prop
  | _, [] => True
  | count, .positional _ :: parts => Clear total (count + 1) parts
  | count, .keyed k _ :: parts => Free total (count / 50) k ∧ Clear total count parts

end Part

def Op.values : Op → List Value
  | .set _ _ => []
  | .append vs => vs

def Op.entries : Op → Dict
  | .set k v => [⟨k, v⟩]
  | .append _ => []

namespace Dict

/-- The values are under the integers from 1 on, in their order, and the entries under their keys; where both have a key,
either may be there. There is no other key. -/
structure Keeps (vs : List Value) (es d : Dict) : Prop where
  keys : ∀ k, d.hasKey k = true ↔ k.inRange vs.length = true ∨ es.hasKey k = true
  values : ∀ k, d.hasKey k = true →
    (∃ i, k = .ofIndex (i + 1) ∧ vs[i]? = some (d.get k)) ∨ ∃ e ∈ es, e.key.equal k = true ∧ e.value = d.get k

namespace Keeps

variable {vs : List Value} {es d : Dict}

theorem nil : Keeps [] [] [] := by
  refine ⟨fun k => ?_, fun k hk => by cases hk⟩
  cases k with
  | int i =>
      simp only [hasKey, List.any_nil, Bool.false_eq_true, or_false, false_iff, Value.inRange, decide_eq_true_eq,
        List.length_nil]
      omega
  | nil | bool | float | native | str | table => simp [hasKey, Value.inRange]

theorem perm {d' : Dict} (h : Keeps vs es d) (hd : d.Distinct) (hp : d.Perm d') : Keeps vs es d' := by
  refine ⟨fun k => ?_, fun k hk => ?_⟩
  · rw [← hasKey_perm hp]
    exact h.keys k
  · rw [← hasKey_perm hp] at hk
    rw [← get_perm hd hp]
    exact h.values k hk

theorem put (h : Keeps vs es d) (k v : Value) : Keeps vs (es ++ [⟨k, v⟩]) (d.put k v) := by
  refine ⟨fun k' => ?_, fun k' hk' => ?_⟩
  · rw [hasKey_put, hasKey_append, Bool.or_eq_true, Bool.or_eq_true, h.keys k', or_assoc]
    simp [hasKey]
  · rw [hasKey_put, Bool.or_eq_true] at hk'
    rw [get_put]
    cases hk : k.equal k' with
    | true => exact .inr ⟨⟨k, v⟩, List.mem_append_right es List.mem_cons_self, hk, rfl⟩
    | false =>
        rw [hk] at hk'
        rcases h.values k' (hk'.resolve_right Bool.false_ne_true) with hi | ⟨e, he, hek⟩
        · exact .inl hi
        · exact .inr ⟨e, List.mem_append_left _ he, hek⟩

/-- One more value goes to the next integer. -/
theorem concat (h : Keeps vs es d) (hfit : vs.length + 1 ≤ maxIndex) (v : Value) :
    Keeps (vs ++ [v]) es (d.put (.ofIndex (vs.length + 1)) v) := by
  have hnext (k : Value) : (Value.ofIndex (vs.length + 1)).equal k = true ↔ k = .ofIndex (vs.length + 1) := by
    rw [Value.equal_comm]
    exact Value.equal_int
  refine ⟨fun k => ?_, fun k hk => ?_⟩
  · rw [hasKey_put, Bool.or_eq_true, h.keys k, hnext, List.length_append, List.length_singleton,
      Value.inRange_succ hfit]
    exact or_right_comm
  · rw [hasKey_put, Bool.or_eq_true, hnext] at hk
    rw [get_put]
    by_cases hlast : k = .ofIndex (vs.length + 1)
    · rw [if_pos ((hnext k).mpr hlast)]
      exact .inl ⟨vs.length, hlast, List.getElem?_concat_length⟩
    · rw [if_neg (mt (hnext k).mp hlast)]
      rcases h.values k (hk.resolve_right hlast) with ⟨i, hi, hv⟩ | he
      · exact .inl ⟨i, hi, by rw [List.getElem?_append_left (List.getElem?_eq_some_iff.mp hv).1, hv]⟩
      · exact .inr he

theorem fill (h : Keeps vs es d) (us : List Value) (hfit : vs.length + us.length ≤ maxIndex) :
    Keeps (vs ++ us) es (d.fill vs.length us) := by
  induction us generalizing vs d with
  | nil => rwa [List.append_nil]
  | cons u us ih =>
      rw [List.length_cons] at hfit
      have hstep := ih (h.concat (by omega) u) (by rw [List.length_append, List.length_singleton]; omega)
      rwa [List.append_assoc, List.singleton_append, List.length_append, List.length_singleton] at hstep

end Keeps

end Dict

namespace Table

variable (byteHash : Bytes → UInt64)

/-- The values of each group get the indices that they have in the list: when a group is moved, the dense part holds as
many values as have been moved before. -/
def InPlace : Nat → Table → List Op → Prop
  | _, _, [] => True
  | moved, t, .set k v :: ops => InPlace moved (t.put byteHash k v) ops
  | moved, t, .append vs :: ops => t.array.size = moved ∧ InPlace (moved + vs.length) (t.append byteHash vs) ops

variable {byteHash} {t : Table} {vs : List Value} {es d : Dict}

theorem Fits.of_foldl {ops : List Op} (h : (ops.foldl (after byteHash) t).Fits) : t.Fits := by
  induction ops generalizing t with
  | nil => exact h
  | cons op ops ih => exact Nat.lt_of_le_of_lt (size_after byteHash t op) (ih h)

/-- The dense part ends with the values, unless an entry continues it. -/
theorem Refines.size_eq_iff (href : Refines byteHash t d) (hfit : t.Fits) (h : Dict.Keeps vs es d) :
    t.array.size = vs.length ↔ ∀ e ∈ es, e.key ≠ .ofIndex (vs.length + 1) := by
  have hin (i : Nat) (hi : i ≤ t.array.size) : (Value.ofIndex (i + 1)).inRange vs.length = true ↔ i < vs.length := by
    rw [Value.inRange_ofIndex (Nat.le_trans (Nat.succ_le_succ hi) hfit)]
    omega
  have hle : vs.length ≤ t.array.size := by
    refine Nat.le_of_not_lt fun hlt => ?_
    have hkey := (h.keys (.ofIndex (t.array.size + 1))).mpr (.inl ((hin _ (Nat.le_refl _)).mpr hlt))
    rw [href.hasKey_ofIndex hfit (Nat.le_refl _), decide_eq_true_eq] at hkey
    exact Nat.lt_irrefl _ hkey
  have hentry : (∃ e ∈ es, e.key = .ofIndex (vs.length + 1)) ↔ vs.length < t.array.size := by
    have hequal (e : Entry) : e.key.equal (.ofIndex (vs.length + 1)) = true ↔ e.key = .ofIndex (vs.length + 1) :=
      Value.equal_int
    rw [← decide_eq_true_eq (p := vs.length < t.array.size), ← href.hasKey_ofIndex hfit hle, h.keys, hin _ hle,
      Dict.hasKey_iff]
    simp only [hequal, Nat.lt_irrefl, false_or]
  constructor
  · intro hsize e he hkey
    exact absurd (hentry.mp ⟨e, he, hkey⟩) (by omega)
  · intro hfree
    have hnot : ¬vs.length < t.array.size := fun hlt => by
      obtain ⟨e, he, hkey⟩ := hentry.mpr hlt
      exact hfree e he hkey
    omega

/-- A group that is moved behind the values continues them. -/
theorem Refines.keeps_append (href : Refines byteHash t d) (hkeeps : Dict.Keeps vs es d) {us : List Value}
    (hsize : t.array.size = vs.length) (hfit : (t.after byteHash (.append us)).Fits) :
    Dict.Keeps (vs ++ us) es (d.apply (.append us)) := by
  have hfit₀ : t.Fits := Nat.lt_of_le_of_lt (size_after byteHash t (.append us)) hfit
  have hlen : vs.length + us.length ≤ maxIndex := by
    rw [← hsize]
    exact Nat.le_trans (size_append byteHash t us) (Nat.le_of_lt hfit)
  rw [Dict.apply, href.border_eq hfit₀, hsize]
  exact hkeeps.fill us hlen

/-- What a history of changes leaves, if each group is moved to its place. -/
theorem InPlace.keeps {ops : List Op} (h : InPlace byteHash vs.length t ops) (hops : ∀ op ∈ ops, op.Proper)
    (href : Refines byteHash t d) (hkeeps : Dict.Keeps vs es d) (hfit : (ops.foldl (after byteHash) t).Fits) :
    Dict.Keeps (vs ++ ops.flatMap Op.values) (es ++ ops.flatMap Op.entries) (ops.foldl Dict.apply d) := by
  induction ops generalizing t vs es d with
  | nil => simpa using hkeeps
  | cons op ops ih =>
      obtain ⟨hop, hrest⟩ := List.forall_mem_cons.mp hops
      have hfit₁ : (t.after byteHash op).Fits := Fits.of_foldl hfit
      have hfit₀ : t.Fits := Nat.lt_of_le_of_lt (size_after byteHash t op) hfit₁
      have href₁ := href.after hfit₀ hop hfit₁
      cases op with
      | set k v =>
          have := ih h hrest href₁ (hkeeps.put k v) hfit
          simpa [Op.values, Op.entries] using this
      | append us =>
          obtain ⟨hsize, h⟩ := h
          rw [← List.length_append] at h
          have := ih h hrest href₁ (href.keeps_append hkeeps hsize hfit₁) hfit
          simpa [Op.values, Op.entries] using this

end Table

namespace Part

variable {byteHash : Bytes → UInt64} {parts : List Part} {waiting : List Value}

theorem changes_proper (h : ∀ e ∈ entries parts, e.key.isNil = false ∧ e.key.isNaN = false) :
    ∀ op ∈ changes waiting parts, op.Proper := by
  fun_induction changes waiting parts with
  | case1 => exact List.forall_mem_nil _
  | case2 => exact List.forall_mem_singleton.mpr trivial
  | case3 waiting v parts hfull ih => exact List.forall_mem_cons.mpr ⟨trivial, ih h⟩
  | case4 waiting v parts hroom ih => exact ih h
  | case5 waiting k v parts ih =>
      obtain ⟨hk, hrest⟩ := List.forall_mem_cons.mp h
      exact List.forall_mem_cons.mpr ⟨hk, ih hrest⟩

theorem values_changes (waiting : List Value) (parts : List Part) :
    (changes waiting parts).flatMap Op.values = waiting ++ values parts := by
  fun_induction changes waiting parts with
  | case1 waiting h => simp [List.isEmpty_iff.mp h, values]
  | case2 => simp [Op.values, values]
  | case3 waiting v parts hfull ih => simp [Op.values, values, ih]
  | case4 waiting v parts hroom ih => simp [values, ih]
  | case5 waiting k v parts ih => simp [Op.values, values, ih]

theorem entries_changes (waiting : List Value) (parts : List Part) :
    (changes waiting parts).flatMap Op.entries = entries parts := by
  fun_induction changes waiting parts with
  | case1 => rfl
  | case2 => rfl
  | case3 waiting v parts hfull ih => exact ih
  | case4 waiting v parts hroom ih => exact ih
  | case5 waiting k v parts ih => simp [Op.entries, entries, ih]

theorem free_of_le {total q : Nat} (h : total ≤ 50 * q) (k : Value) : Free total q k := by
  intro q' hq hlt
  omega

theorem free_succ_iff {total q : Nat} (h : 50 * q < total) {k : Value} :
    Free total q k ↔ k ≠ .ofIndex (50 * q + 1) ∧ Free total (q + 1) k := by
  constructor
  · intro hfree
    exact ⟨hfree q (Nat.le_refl q) h, fun q' hq hlt => hfree q' (Nat.le_of_succ_le hq) hlt⟩
  · rintro ⟨hne, hfree⟩ q' hq hlt
    rcases Nat.eq_or_lt_of_le hq with rfl | hq
    · exact hne
    · exact hfree q' hq hlt

section

variable {t : Table} {vs : List Value} {es d : Dict} {q total : Nat}

/-- A group is in its place unless an entry has its first index. Nothing is known of what follows a group that is out of
place, but then neither side holds. -/
theorem inPlace_append_iff {us : List Value} {ops : List Op} {R : Prop} (href : t.Refines byteHash d) (hfit : t.Fits)
    (hkeeps : Dict.Keeps vs es d) (hmoved : vs.length = 50 * q) (hgroup : 50 * q < total)
    (hrest : t.array.size = vs.length → ((t.append byteHash us).InPlace byteHash (vs.length + us.length) ops ↔
      (∀ e ∈ es, Free total (q + 1) e.key) ∧ R)) :
    t.InPlace byteHash vs.length (.append us :: ops) ↔ (∀ e ∈ es, Free total q e.key) ∧ R := by
  have hfree (k : Value) : Free total q k ↔ k ≠ .ofIndex (vs.length + 1) ∧ Free total (q + 1) k := by
    rw [free_succ_iff hgroup, hmoved]
  rw [Table.InPlace, and_congr_right hrest, href.size_eq_iff hfit hkeeps]
  simp only [hfree, imp_and, forall_and, and_assoc]

/-- Every group is moved to its place exactly when no key that is stored before it is its first index. -/
theorem inPlace_changes_iff (hproper : ∀ e ∈ entries parts, e.key.isNil = false ∧ e.key.isNaN = false)
    (href : t.Refines byteHash d) (hkeeps : Dict.Keeps vs es d) (hmoved : vs.length = 50 * q)
    (hwaiting : waiting.length < 50) (htotal : total = vs.length + waiting.length + (values parts).length)
    (hfit : ((changes waiting parts).foldl (Table.after byteHash) t).Fits) :
    t.InPlace byteHash vs.length (changes waiting parts) ↔
      (∀ e ∈ es, Free total q e.key) ∧ Clear total (vs.length + waiting.length) parts := by
  have hfit₀ : t.Fits := Table.Fits.of_foldl hfit
  induction parts generalizing t vs es d q waiting with
  | nil =>
      rw [values, List.length_nil, Nat.add_zero] at htotal
      cases waiting with
      | nil =>
          rw [List.length_nil, Nat.add_zero] at htotal
          exact iff_of_true trivial ⟨fun e _ => free_of_le (by omega) e.key, trivial⟩
      | cons w ws =>
          rw [List.length_cons] at hwaiting htotal
          refine inPlace_append_iff href hfit₀ hkeeps hmoved (by omega) fun _ => iff_of_true trivial ?_
          exact ⟨fun e _ => free_of_le (by omega) e.key, trivial⟩
  | cons part parts ih =>
      cases part with
      | keyed k v =>
          obtain ⟨hk, hrest⟩ := List.forall_mem_cons.mp hproper
          have hop : Op.Proper (.set k v) := hk
          have hfit₁ : (t.after byteHash (.set k v)).Fits := Table.Fits.of_foldl hfit
          have hgroup : (vs.length + waiting.length) / 50 = q := by omega
          have hstep := ih hrest (href.after hfit₀ hop hfit₁) (hkeeps.put k v) hmoved hwaiting htotal hfit hfit₁
          rw [List.forall_mem_append, List.forall_mem_singleton, and_assoc] at hstep
          rw [Clear, hgroup]
          exact hstep
      | positional v =>
          rw [values, List.length_cons] at htotal
          have hlen : (waiting ++ [v]).length = waiting.length + 1 := by simp
          by_cases hfull : waiting.length + 1 = 50
          · rw [changes, if_pos hfull] at hfit ⊢
            have hop : Op.Proper (.append (waiting ++ [v])) := trivial
            have hfit₁ : (t.after byteHash (.append (waiting ++ [v]))).Fits := Table.Fits.of_foldl hfit
            refine inPlace_append_iff href hfit₀ hkeeps hmoved (by omega) fun hsize => ?_
            have hkeeps₁ := href.keeps_append hkeeps hsize hfit₁
            have hmoved₁ : (vs ++ (waiting ++ [v])).length = 50 * (q + 1) := by rw [List.length_append]; omega
            have hstep := ih hproper (href.after hfit₀ hop hfit₁) hkeeps₁ hmoved₁ (by decide)
              (by rw [List.length_append, List.length_nil]; omega) hfit hfit₁
            rw [List.length_append, List.length_nil, Nat.add_zero, hlen] at hstep
            rw [hlen]
            exact hstep
          · rw [changes, if_neg hfull] at hfit ⊢
            have hstep := ih hproper href hkeeps hmoved (by omega) (by omega) hfit hfit₀
            rwa [hlen] at hstep

end

/-- The finished table keeps the values at their indices, and every group got there in its turn, exactly when the keys
are clear of the groups. -/
theorem keeps_iff_clear (hproper : ∀ e ∈ entries parts, e.key.isNil = false ∧ e.key.isNaN = false)
    (hfit : ((changes [] parts).foldl (Table.after byteHash) .empty).Fits) :
    (Table.empty.InPlace byteHash 0 (changes [] parts) ∧
      Dict.Keeps (values parts) (entries parts) ((changes [] parts).foldl (Table.after byteHash) .empty).entries) ↔
    Clear (values parts).length 0 parts := by
  have hiff : Table.empty.InPlace byteHash 0 (changes [] parts) ↔ Clear (values parts).length 0 parts := by
    have h := inPlace_changes_iff (q := 0) hproper .empty .nil rfl (by decide) (Nat.zero_add _).symm hfit
    rwa [and_iff_right (List.forall_mem_nil _)] at h
  refine ⟨fun h => hiff.mp h.1, fun hclear => ⟨hiff.mpr hclear, ?_⟩⟩
  have hops : ∀ op ∈ changes [] parts, op.Proper := changes_proper hproper
  have hkeeps := Table.InPlace.keeps (hiff.mpr hclear) hops .empty .nil hfit
  rw [List.nil_append, List.nil_append, values_changes, entries_changes, List.nil_append] at hkeeps
  have href := Table.Refines.foldl hops (fun _ => .empty) hfit
  exact hkeeps.perm (href.presents hfit).distinct href.perm.symm

end Part

end MiniLua

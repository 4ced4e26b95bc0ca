import MiniLua.Proofs.Compile.Generation

/-!
The pool of constants, filled by one request after the other. It never holds a constant twice, every constant stays where
it is, and a request fails only when it asks a full pool for a new constant.
-/

namespace MiniLua.Chunk

/-- Constants are told apart by all their bits. -/
theorem sameConstant_iff {v w : Value} : sameConstant v w = true ↔ v = w := by
  refine ⟨eq_of_sameConstant, ?_⟩
  rintro rfl
  cases v with
  | float x => exact beq_self_eq_true x.bits
  | nil | bool | int | native | str | table => simp [sameConstant, Value.equal]

/-- What becomes of a request for the constant `v`. -/
inductive Requested (c : Chunk) (v : Value) : Option (Nat × Chunk) → Prop
  | found {k : Nat} (hk : c.constants[k]? = some v) : Requested c v (some (k, c))
  | added (hv : v ∉ c.constants) (hsize : c.constants.size < maxConstants) :
      Requested c v (some (c.constants.size, { c with constants := c.constants.push v }))
  | full (hv : v ∉ c.constants) (hsize : maxConstants ≤ c.constants.size) : Requested c v none

theorem addConstant_requested (c : Chunk) (v : Value) : Requested c v (c.addConstant v) := by
  unfold addConstant
  split
  · next k hk =>
    obtain ⟨hlt, hsame, -⟩ := Array.findIdx?_eq_some_iff_getElem.mp hk
    refine .found ?_
    rw [Array.getElem?_eq_getElem hlt, sameConstant_iff.mp hsame]
  · next hnone =>
    have hv : v ∉ c.constants := fun hmem => by
      have hdiffers := Array.findIdx?_eq_none_iff.mp hnone v hmem
      rw [sameConstant_iff.mpr rfl] at hdiffers
      cases hdiffers
    split
    · next hsize => exact .added hv hsize
    · next hsize => exact .full hv (Nat.le_of_not_lt hsize)

/-- The chunk after a request for a constant; one that fails leaves it alone. -/
def request (c : Chunk) (v : Value) : Chunk := ((c.addConstant v).map Prod.snd).getD c

def requestAll (c : Chunk) (vs : List Value) : Chunk := vs.foldl request c

theorem request_cases (c : Chunk) (v : Value) :
    c.request v = c ∨ v ∉ c.constants ∧ c.constants.size < maxConstants ∧
      c.request v = { c with constants := c.constants.push v } := by
  unfold request
  have hrequested := addConstant_requested c v
  generalize c.addConstant v = outcome at hrequested ⊢
  cases hrequested with
  | found | full => exact .inl rfl
  | added hv hsize => exact .inr ⟨hv, hsize, rfl⟩

/-- The constants fit their indices, and no two are the same. -/
structure Interned (c : Chunk) : Prop where
  size_le : c.constants.size ≤ maxConstants
  nodup : c.constants.toList.Nodup

theorem Interned.index_unique {c : Chunk} (h : Interned c) {i j : Nat} {v : Value} (hi : c.constants[i]? = some v)
    (hj : c.constants[j]? = some v) : i = j := by
  rw [← Array.getElem?_toList] at hi hj
  have hlt := (List.getElem?_eq_some_iff.mp hi).1
  exact (List.getElem?_inj hlt h.nodup).mp (hi.trans hj.symm)

theorem Interned.request {c : Chunk} (h : Interned c) (v : Value) : Interned (c.request v) := by
  rcases request_cases c v with hsame | ⟨hv, hsize, hpush⟩
  · rw [hsame]
    exact h
  · rw [hpush]
    refine ⟨?_, ?_⟩
    · rw [Array.size_push]
      exact hsize
    · rw [Array.toList_push, List.nodup_append]
      refine ⟨h.nodup, List.pairwise_singleton _ v, fun w hw w' hw' => ?_⟩
      rintro rfl
      obtain rfl := List.mem_singleton.mp hw'
      exact hv (Array.mem_toList_iff.mp hw)

theorem Interned.requestAll {c : Chunk} (h : Interned c) (vs : List Value) : Interned (c.requestAll vs) := by
  induction vs generalizing c with
  | nil => exact h
  | cons v vs ih => exact ih (h.request v)

theorem prefix_request (c : Chunk) (v : Value) : c.constants.toList <+: (c.request v).constants.toList := by
  rcases request_cases c v with hsame | ⟨-, -, hpush⟩
  · exact hsame.symm ▸ List.prefix_rfl
  · rw [hpush, Array.toList_push]
    exact List.prefix_append ..

theorem prefix_requestAll (c : Chunk) (vs : List Value) : c.constants.toList <+: (c.requestAll vs).constants.toList := by
  induction vs generalizing c with
  | nil => exact List.prefix_rfl
  | cons v vs ih => exact (prefix_request c v).trans (ih (c.request v))

theorem interned_start (name : Bytes) : Interned { name } := ⟨Nat.zero_le _, List.nodup_nil⟩

theorem addConstant_eq_some {c c' : Chunk} {v : Value} {k : Nat} (h : c.addConstant v = some (k, c')) :
    c' = c.request v ∧ c'.constants[k]? = some v := by
  have hrequest : c.request v = c' := by rw [request, h]; rfl
  exact ⟨hrequest.symm, (addConstant_some h).1⟩

theorem addConstant_eq_none_iff {c : Chunk} {v : Value} :
    c.addConstant v = none ↔ maxConstants ≤ c.constants.size ∧ v ∉ c.constants := by
  have hrequested := addConstant_requested c v
  generalize c.addConstant v = outcome at hrequested ⊢
  cases hrequested with
  | found hk => simp [Array.mem_of_getElem? hk]
  | added hv hsize => simp [Nat.not_le.mpr hsize]
  | full hv hsize => simp [hv, hsize]

/-- After any requests for constants of an empty chunk: the pool has at most 256 constants, no two the same, all of which
stay where they are whatever is requested later. The next request gives the index of the only constant that is the same
as the value asked for, unless the pool is full and has none like it. -/
theorem requestAll_interned (name : Bytes) (vs : List Value) (v : Value) :
    let c := requestAll { name } vs
    c.constants.size ≤ 256 ∧
    (∀ (i j : Nat) w w', c.constants[i]? = some w → c.constants[j]? = some w' → sameConstant w w' = true → i = j) ∧
    (∀ ws, c.constants.toList <+: (c.requestAll ws).constants.toList) ∧
    (∀ k c', c.addConstant v = some (k, c') → c' = c.request v ∧ c'.constants[k]? = some v ∧
      ∀ (j : Nat) w, c'.constants[j]? = some w → sameConstant w v = true → j = k) ∧
    (c.addConstant v = none ↔ c.constants.size = 256 ∧ ∀ w ∈ c.constants, sameConstant w v = false) ∧
    (c.addConstant v = none → c.request v = c) := by
  intro c
  have hc : Interned c := (interned_start name).requestAll vs
  refine ⟨hc.size_le, ?_, prefix_requestAll c, ?_, ?_, ?_⟩
  · intro i j w w' hi hj hsame
    rw [← sameConstant_iff.mp hsame] at hj
    exact hc.index_unique hi hj
  · intro k c' h
    obtain ⟨rfl, hk⟩ := addConstant_eq_some h
    refine ⟨rfl, hk, fun j w hj hsame => ?_⟩
    rw [sameConstant_iff.mp hsame] at hj
    exact (hc.request v).index_unique hj hk
  · rw [addConstant_eq_none_iff]
    refine and_congr ⟨Nat.le_antisymm hc.size_le, fun h => Nat.le_of_eq h.symm⟩ ⟨fun hv w hw => ?_, fun h hv => ?_⟩
    · refine Bool.eq_false_iff.mpr fun hsame => hv ?_
      rwa [← sameConstant_iff.mp hsame]
    · cases (sameConstant_iff.mpr rfl).symm.trans (h v hv)
  · intro h
    rw [request, h]
    rfl

-- Both zeros, and a NaN that is asked for twice.
example :
    (requestAll { name := [] } [.float ⟨0⟩, .float ⟨0x8000000000000000⟩, .float ⟨0x7ff8000000000001⟩,
      .float ⟨0x7ff8000000000001⟩, .int 0]).constants.size = 4 := by decide +kernel

end MiniLua.Chunk

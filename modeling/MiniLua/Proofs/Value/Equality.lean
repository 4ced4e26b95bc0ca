import MiniLua.Value.Basic

/-!
Sameness of values is an equivalence on all values but NaN, and a byte hash is taken of the same bytes for values that
are the same.
-/

namespace MiniLua

namespace Binary64

theorem sameNumber_iff {x y : Binary64} :
    x.sameNumber y = true ↔ x.isNaN = false ∧ y.isNaN = false ∧ (x = y ∨ x.isZero = true ∧ y.isZero = true) := by
  cases x; cases y
  simp [sameNumber, and_assoc]

theorem sameNumber_comm (x y : Binary64) : x.sameNumber y = y.sameNumber x := by
  rw [Bool.eq_iff_iff, sameNumber_iff, sameNumber_iff]
  constructor
  · rintro ⟨hx, hy, rfl | ⟨hx', hy'⟩⟩
    · exact ⟨hy, hx, .inl rfl⟩
    · exact ⟨hy, hx, .inr ⟨hy', hx'⟩⟩
  · rintro ⟨hy, hx, rfl | ⟨hy', hx'⟩⟩
    · exact ⟨hx, hy, .inl rfl⟩
    · exact ⟨hx, hy, .inr ⟨hx', hy'⟩⟩

theorem sameNumber_trans {x y z : Binary64} (h : x.sameNumber y = true) (h' : y.sameNumber z = true) :
    x.sameNumber z = true := by
  obtain ⟨hx, -, hxy⟩ := sameNumber_iff.mp h
  obtain ⟨-, hz, hyz⟩ := sameNumber_iff.mp h'
  refine sameNumber_iff.mpr ⟨hx, hz, ?_⟩
  rcases hxy with rfl | ⟨hx', hy'⟩
  · exact hyz
  · rcases hyz with rfl | ⟨-, hz'⟩
    · exact .inr ⟨hx', hy'⟩
    · exact .inr ⟨hx', hz'⟩

end Binary64

namespace Value

theorem equal_comm (a b : Value) : a.equal b = b.equal a := by
  cases a <;> cases b <;> simp only [equal, Binary64.sameNumber_comm] <;> exact Bool.beq_comm

theorem equal_trans {a b c : Value} (h : a.equal b = true) (h' : b.equal c = true) : a.equal c = true := by
  cases a <;> cases b <;> simp only [equal, reduceCtorEq] at h <;> cases c <;> simp only [equal, reduceCtorEq] at h' ⊢
  case float.float.float => exact Binary64.sameNumber_trans h h'
  all_goals
    rw [beq_iff_eq] at h h' ⊢
    exact h.trans h'

theorem equal_self {a : Value} (h : a.isNaN = false) : a.equal a = true := by
  cases a with
  | float x => exact Binary64.sameNumber_iff.mpr ⟨h, h, .inl rfl⟩
  | nil | bool | int | native | str | table => simp [equal]

/-- An integer is the same as itself only. -/
theorem equal_int {a : Value} {i : Int64} : a.equal (.int i) = true ↔ a = .int i := by
  cases a <;> simp [equal]

theorem equal_nil {a : Value} : a.equal .nil = true ↔ a = .nil := by
  cases a <;> simp [equal]

theorem hashed_eq_of_equal {a b : Value} (h : a.equal b = true) : a.hashed = b.hashed := by
  cases a <;> cases b <;> simp only [equal, reduceCtorEq, beq_iff_eq] at h
  case float.float x y =>
    obtain ⟨-, -, rfl | ⟨hx, hy⟩⟩ := Binary64.sameNumber_iff.mp h
    · rfl
    · simp [hashed, hx, hy, kind]
  case nil.nil => rfl
  case str.str => exact h
  all_goals
    subst h
    rfl

theorem equal_self_iff {a : Value} : a.equal a = true ↔ a.isNaN = false := by
  refine ⟨fun h => ?_, equal_self⟩
  cases a with
  | float x => exact (Binary64.sameNumber_iff.mp h).1
  | nil | bool | int | native | str | table => rfl

theorem hash_of_not_nil {a : Value} (h : a.isNil = false) (byteHash : Bytes → UInt64) :
    a.hash byteHash = .ok (byteHash a.hashed) := by
  rw [hash, h]
  rfl

theorem ofBytes_equal_iff {a b : Bytes} : (ofBytes a).equal (ofBytes b) = true ↔ a = b := by
  simp only [ofBytes, equal, Str.bytes_ofBytes, beq_iff_eq]

/-- The layout of a string goes by its length alone. -/
theorem sizeClass_ofBytes (a : Bytes) :
    (ofBytes a).sizeClass = if a.length ≤ 14 then 0 else if a.length ≤ 47 then 1 else 2 := by
  change Str.sizeClass ⟨Str.Layout.ofBytes a, _⟩ = _
  unfold Str.sizeClass Str.Layout.ofBytes Str.shortMax Str.midMax
  by_cases hshort : a.length ≤ 14
  · simp only [dif_pos hshort, if_pos hshort]
  · by_cases hmid : a.length ≤ 47
    · simp only [dif_neg hshort, dif_pos hmid, if_neg hshort, if_pos hmid]
    · simp only [dif_neg hshort, dif_neg hmid, if_neg hshort, if_neg hmid]

/-- Sameness is an equivalence but for NaN, values that are the same have the same hash, and neither depends on the
layout in which a string is stored. -/
theorem equal_and_hash_agree (byteHash : Bytes → UInt64) :
    (∀ v w : Value, v.equal w = w.equal v) ∧
    (∀ u v w : Value, u.equal v = true → v.equal w = true → u.equal w = true) ∧
    (∀ v : Value, v.equal v = true ↔ v.isNaN = false) ∧
    (∀ v w : Value, v.isNil = false → w.isNil = false → v.equal w = true →
      ∃ h, v.hash byteHash = .ok h ∧ w.hash byteHash = .ok h) ∧
    (∀ a : Bytes, (ofBytes a).toBytes = .ok a ∧
      (ofBytes a).sizeClass = if a.length ≤ 14 then 0 else if a.length ≤ 47 then 1 else 2) ∧
    ∀ a b : Bytes, (ofBytes a).equal (ofBytes b) = true ↔ a = b := by
  refine ⟨equal_comm, fun u v w => equal_trans, fun v => equal_self_iff, fun v w hv hw h => ?_, fun a => ⟨?_, ?_⟩,
    fun a b => ofBytes_equal_iff⟩
  · refine ⟨byteHash v.hashed, hash_of_not_nil hv byteHash, ?_⟩
    rw [hash_of_not_nil hw, hashed_eq_of_equal h]
  · exact congrArg Except.ok (Str.bytes_ofBytes a)
  · exact sizeClass_ofBytes a

/-- The two zeros have different bits, and two strings of one content are stored in the middle layout. -/
theorem equal_and_hash_agree_zeros :
    let byteHash (bs : Bytes) : UInt64 := bs.foldl (fun h b => h * 31 + b.toUInt64) 7
    let zero : Value := .float .zero
    let minusZero : Value := .float Binary64.zero.neg
    let name := Text.utf8 "fifteen letters"
    (zero ≠ minusZero ∧ ∃ h, zero.hash byteHash = .ok h ∧ minusZero.hash byteHash = .ok h) ∧
      (ofBytes name).sizeClass = 1 ∧ (ofBytes name).toBytes = .ok name := by
  intro byteHash zero minusZero name
  obtain ⟨-, -, -, hhash, hbytes, -⟩ := equal_and_hash_agree byteHash
  refine ⟨⟨by decide, hhash zero minusZero rfl rfl (by decide)⟩, (hbytes name).2.trans (by decide), (hbytes name).1⟩

end Value

end MiniLua

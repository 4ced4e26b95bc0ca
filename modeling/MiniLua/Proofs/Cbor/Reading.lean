import MiniLua.Cbor.Reader

/-!
What is written is read back. An item is readable if its canonical form is read as that item, whatever stands behind it;
arrays and maps of readable items are readable within the limits on nesting and on the number of elements.
-/

namespace MiniLua.Cbor

/-- The first number that the head of an item cannot hold. -/
def argumentLimit : Nat := 0x10000000000000000

theorem bigEndianBytes_succ (w n : Nat) :
    bigEndianBytes (w + 1) n = (n >>> (8 * w)).toUInt8 :: bigEndianBytes w n := by
  simp [bigEndianBytes, List.range_succ]

@[simp] theorem length_bigEndianBytes (w n : Nat) : (bigEndianBytes w n).length = w := by
  simp [bigEndianBytes]

theorem bigEndian_bigEndianBytes {w n : Nat} (h : n < 1 <<< (8 * w)) : bigEndian (bigEndianBytes w n) = n := by
  -- Reading the lower digits behind the upper ones gives the number back, whatever the upper ones are.
  have hfold : (bigEndianBytes w n).foldl (fun n b => n * 256 + b.toNat) (n >>> (8 * w)) = n := by
    clear h
    induction w with
    | zero => rfl
    | succ w ih =>
        have hdigit : n >>> (8 * (w + 1)) * 256 + (n >>> (8 * w)).toUInt8.toNat = n >>> (8 * w) := by
          rw [Nat.mul_add, Nat.shiftRight_add, Nat.shiftRight_eq_div_pow (n >>> (8 * w)), Nat.toUInt8_eq,
            UInt8.toNat_ofNat']
          omega
        rw [bigEndianBytes_succ, List.foldl_cons, hdigit, ih]
  have hzero : n >>> (8 * w) = 0 := by
    rw [Nat.shiftRight_eq_div_pow, Nat.div_eq_of_lt]
    rwa [Nat.one_shiftLeft] at h
  rwa [hzero] at hfold

theorem toNat_initial {major info : Nat} (hm : major < 8) (hi : info < 32) :
    (major * 32 + info).toUInt8.toNat / 32 = major ∧ (major * 32 + info).toUInt8.toNat % 32 = info := by
  rw [Nat.toUInt8_eq, UInt8.toNat_ofNat']
  omega

/-- A small argument stands in the first byte. -/
theorem readHead_small {major n : Nat} (hm : major < 8) (hn : n < 24) (r : Bytes) :
    readHead (head major n ++ r) = some (⟨major, n, n⟩, r) := by
  obtain ⟨hmajor, hinfo⟩ := toNat_initial hm (Nat.lt_trans hn (by decide : 24 < 32))
  simp only [head, if_pos hn, List.singleton_append, readHead, hmajor, hinfo]

/-- An argument that stands behind the first byte. -/
theorem readHead_wide {major k n : Nat} (hm : major < 7) (hk : k < 4) (hn : n < 1 <<< (8 * 1 <<< k)) (r : Bytes) :
    readHead ((major * 32 + (24 + k)).toUInt8 :: bigEndianBytes (1 <<< k) n ++ r) =
      some (⟨major, 24 + k, n⟩, r) := by
  obtain ⟨hmajor, hinfo⟩ := toNat_initial (Nat.lt_succ_of_lt hm) (by omega : 24 + k < 32)
  have hlength := length_bigEndianBytes (1 <<< k) n
  simp only [List.cons_append, readHead, hmajor, hinfo]
  rw [if_neg (by omega), if_pos (by omega), Nat.add_sub_cancel_left, List.take_left' hlength, List.drop_left' hlength,
    hlength, bigEndian_bigEndianBytes hn, if_neg (by omega)]

/-- The head of an item of definite length. -/
theorem readHead_head {major n : Nat} (hm : major < 7) (hn : n < argumentLimit) (r : Bytes) :
    ∃ info, info ≠ 31 ∧ readHead (head major n ++ r) = some (⟨major, info, n⟩, r) := by
  by_cases h : n < 24
  · exact ⟨n, by omega, readHead_small (Nat.lt_succ_of_lt hm) h r⟩
  · have hwide {k : Nat} (hk : k < 4) (hn : n < 1 <<< (8 * 1 <<< k))
        (hhead : head major n = (major * 32 + (24 + k)).toUInt8 :: bigEndianBytes (1 <<< k) n) :
        ∃ info, info ≠ 31 ∧ readHead (head major n ++ r) = some (⟨major, info, n⟩, r) := by
      rw [hhead]
      exact ⟨24 + k, by omega, readHead_wide hm hk hn r⟩
    by_cases h1 : n < 0x100
    · exact hwide (k := 0) (by decide) h1 (by simp only [head, if_neg h, if_pos h1]; rfl)
    · by_cases h2 : n < 0x10000
      · exact hwide (k := 1) (by decide) h2 (by simp only [head, if_neg h, if_neg h1, if_pos h2]; rfl)
      · by_cases h4 : n < 0x100000000
        · exact hwide (k := 2) (by decide) h4 (by simp only [head, if_neg h, if_neg h1, if_neg h2, if_pos h4]; rfl)
        · exact hwide (k := 3) (by decide) hn (by simp only [head, if_neg h, if_neg h1, if_neg h2, if_neg h4]; rfl)

theorem length_head_pos (major n : Nat) : 0 < (head major n).length := by
  unfold head
  dsimp only
  repeat' split
  all_goals exact Nat.zero_lt_succ _

theorem length_encode_pos (i : Item) : 0 < i.encode.length := by
  cases i with
  | float => exact Nat.zero_lt_succ _
  | uint | nint | simple => exact length_head_pos _ _
  | bytes | text | array | map | tag =>
      rw [Item.encode, List.length_append]
      exact Nat.add_pos_left (length_head_pos _ _) _

/-- Read at this depth of nesting, the canonical form of the item gives the item, whatever stands behind it. -/
def Readable (depth : Nat) (i : Item) : Prop :=
  ∀ fuel r, 2 * i.encode.length ≤ fuel → item fuel depth (i.encode ++ r) = some (i, r)

variable {depth n : Nat}

/-- Reading an item takes one step at least. -/
theorem Readable.of_succ {i : Item}
    (h : ∀ fuel r, 2 * i.encode.length ≤ fuel + 1 → item (fuel + 1) depth (i.encode ++ r) = some (i, r)) :
    Readable depth i := by
  intro fuel r hf
  have hpos := length_encode_pos i
  obtain ⟨fuel, rfl⟩ := Nat.exists_eq_add_of_le' (show 1 ≤ fuel by omega)
  exact h fuel r hf

theorem readable_uint (hn : n < argumentLimit) : Readable depth (.uint n) := by
  refine .of_succ fun fuel r _ => ?_
  obtain ⟨info, -, hread⟩ := readHead_head (by decide : 0 < 7) hn r
  simp only [Item.encode, item, hread, Option.bind_eq_bind, Option.bind_some]
  rfl

theorem readable_nint (hn : n < argumentLimit) : Readable depth (.nint n) := by
  refine .of_succ fun fuel r _ => ?_
  obtain ⟨info, -, hread⟩ := readHead_head (by decide : 1 < 7) hn r
  simp only [Item.encode, item, hread, Option.bind_eq_bind, Option.bind_some]
  rfl

theorem readable_simple (hn : n < 24) : Readable depth (.simple n) := by
  refine .of_succ fun fuel r _ => ?_
  simp only [Item.encode, item, readHead_small (by decide : 7 < 8) hn r, Option.bind_eq_bind, Option.bind_some]
  rw [if_neg (by omega)]
  rfl

theorem takeExactly_append (bs r : Bytes) : takeExactly bs.length (bs ++ r) = some (bs, r) := by
  simp [takeExactly]

theorem readable_bytes {content : Bytes} (hn : content.length < argumentLimit) : Readable depth (.bytes content) := by
  refine .of_succ fun fuel r _ => ?_
  obtain ⟨info, hinfo, hread⟩ := readHead_head (by decide : 2 < 7) hn (content ++ r)
  simp only [Item.encode, item, List.append_assoc, hread, Option.bind_eq_bind, Option.bind_some, if_neg hinfo,
    takeExactly_append]
  rfl

theorem readable_text {content : Bytes} (hn : content.length < argumentLimit) : Readable depth (.text [content]) := by
  refine .of_succ fun fuel r _ => ?_
  obtain ⟨info, hinfo, hread⟩ := readHead_head (by decide : 3 < 7) hn (content ++ r)
  simp only [Item.encode, item, List.flatten_singleton, List.append_assoc, hread, Option.bind_eq_bind, Option.bind_some,
    if_neg hinfo, takeExactly_append]
  rfl

/-- Readable items are read one after the other, and then what stands behind them. -/
theorem items_encodeAll {is : List Item} {fuel : Nat} (h : ∀ i ∈ is, Readable depth i)
    (hf : 2 * (encodeAll is).length + 1 ≤ fuel) (m : Nat) (r : Bytes) :
    items fuel depth (is.length + m) (encodeAll is ++ r) =
      (items (fuel - is.length) depth m r).map fun (js, r') => (is ++ js, r') := by
  induction is generalizing fuel with
  | nil =>
      rw [List.length_nil, Nat.zero_add, Nat.sub_zero]
      simp [encodeAll]
  | cons i is ih =>
      obtain ⟨hi, his⟩ := List.forall_mem_cons.mp h
      have hpos := length_encode_pos i
      rw [encodeAll, List.length_append] at hf
      obtain ⟨fuel, rfl⟩ := Nat.exists_eq_add_of_le' (show 1 ≤ fuel by omega)
      rw [List.length_cons, Nat.add_right_comm, items, encodeAll, List.append_assoc, hi fuel _ (by omega)]
      simp only [Option.bind_eq_bind, Option.bind_some]
      rw [ih his (by omega), Nat.add_sub_add_right]
      cases items (fuel - is.length) depth m r <;> rfl

/-- Readable items and nothing more. -/
theorem items_eq {is : List Item} {fuel : Nat} (h : ∀ i ∈ is, Readable depth i)
    (hf : 2 * (encodeAll is).length + 1 ≤ fuel) (r : Bytes) :
    items fuel depth is.length (encodeAll is ++ r) = some (is, r) := by
  have hitems := items_encodeAll h hf 0 r
  rw [Nat.add_zero] at hitems
  simpa [items] using hitems

theorem maxElements_lt : maxElements < argumentLimit := by decide

theorem readable_array {is : List Item} (hd : depth < maxDepth) (hn : is.length ≤ maxElements)
    (h : ∀ i ∈ is, Readable (depth + 1) i) : Readable depth (.array is) := by
  refine .of_succ fun fuel r hf => ?_
  obtain ⟨info, hinfo, hread⟩ := readHead_head (by decide : 4 < 7) (Nat.lt_of_le_of_lt hn maxElements_lt)
    (encodeAll is ++ r)
  have hpos := length_head_pos 4 is.length
  rw [Item.encode, List.length_append] at hf
  simp only [Item.encode, item, List.append_assoc, hread, Option.bind_eq_bind, Option.bind_some, if_neg hinfo]
  rw [if_neg (by omega), items_eq h (by omega)]
  rfl

theorem readable_map {is : List Item} (hd : depth < maxDepth) (heven : is.length % 2 = 0)
    (hn : is.length / 2 ≤ maxElements) (h : ∀ i ∈ is, Readable (depth + 1) i) : Readable depth (.map is) := by
  refine .of_succ fun fuel r hf => ?_
  obtain ⟨info, hinfo, hread⟩ := readHead_head (by decide : 5 < 7) (Nat.lt_of_le_of_lt hn maxElements_lt)
    (encodeAll is ++ r)
  have hpos := length_head_pos 5 (is.length / 2)
  rw [Item.encode, List.length_append] at hf
  simp only [Item.encode, item, List.append_assoc, hread, Option.bind_eq_bind, Option.bind_some, if_neg hinfo]
  rw [if_neg (by omega), Nat.mul_div_cancel' (Nat.dvd_of_mod_eq_zero heven), items_eq h (by omega)]
  rfl

/-- A readable item is all that its canonical form consists of. -/
theorem read_encode {i : Item} (h : Readable 0 i) : read i.encode = some i := by
  have hitem := h (2 * i.encode.length + 2) [] (Nat.le_add_right _ _)
  rw [List.append_nil] at hitem
  rw [read, hitem]

/-- An array of too many elements is not read. -/
theorem item_array_none {is : List Item} (hn : maxElements < is.length) (hlimit : is.length < argumentLimit) (fuel : Nat)
    (r : Bytes) : item fuel depth ((Item.array is).encode ++ r) = none := by
  cases fuel with
  | zero => rw [item]
  | succ fuel =>
      obtain ⟨info, -, hread⟩ := readHead_head (by decide : 4 < 7) hlimit (encodeAll is ++ r)
      simp only [Item.encode, item, List.append_assoc, hread, Option.bind_eq_bind, Option.bind_some]
      rw [if_pos (.inr hn)]

theorem encodeAll_append (is js : List Item) : encodeAll (is ++ js) = encodeAll is ++ encodeAll js := by
  induction is with
  | nil => rfl
  | cons i is ih => rw [List.cons_append, encodeAll, encodeAll, ih, List.append_assoc]

/-- A map is not read if one of its items is not, and those before it are. -/
theorem read_map_none {before behind : List Item} {i : Item} (h : ∀ j ∈ before, Readable 1 j)
    (hi : ∀ fuel r, item fuel 1 (i.encode ++ r) = none)
    (heven : (before ++ i :: behind).length % 2 = 0) (hn : (before ++ i :: behind).length / 2 ≤ maxElements) :
    read (Item.map (before ++ i :: behind)).encode = none := by
  have hitems {fuel : Nat} (hf : 2 * (encodeAll before).length + 1 ≤ fuel) :
      items fuel 1 (before ++ i :: behind).length (encodeAll (before ++ i :: behind)) = none := by
    rw [encodeAll_append, List.length_append, items_encodeAll h hf, List.length_cons, encodeAll]
    cases fuel - before.length with
    | zero => rw [items, Option.map_none]; exact Nat.succ_ne_zero _
    | succ fuel => simp only [items, hi, Option.bind_eq_bind, Option.bind_none, Option.map_none]
  obtain ⟨info, hinfo, hread⟩ := readHead_head (by decide : 5 < 7) (Nat.lt_of_le_of_lt hn maxElements_lt)
    (encodeAll (before ++ i :: behind))
  unfold read
  rw [Item.encode, item, hread]
  simp only [Option.bind_eq_bind, Option.bind_some, if_neg hinfo]
  rw [if_neg (by simp only [maxDepth]; omega), Nat.mul_div_cancel' (Nat.dvd_of_mod_eq_zero heven), hitems]
  · rfl
  · simp only [encodeAll_append, List.length_append]
    omega

end MiniLua.Cbor

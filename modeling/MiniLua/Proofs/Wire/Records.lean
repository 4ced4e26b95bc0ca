import MiniLua.Proofs.Cbor.Reading
import MiniLua.Wire.Unpack

/-!
Records on the wire. A record is read back from its item: a field that was left out reads as zero, and the item itself
is within the limits of the reader.
-/

namespace MiniLua.Wire

open Cbor Text

theorem byte?_uint (b : UInt8) : byte? (.uint b.toNat) = some b := by
  have hb := b.toNat_lt
  simp only [byte?, inRange, integer?, untag, Option.bind_eq_bind, Option.bind_some, Option.pure_def]
  rw [if_pos (by omega), Option.map_some, UInt8.ofInt, Int.emod_eq_of_lt (by omega) (by omega), Int.toNat_natCast,
    UInt8.ofNat_toNat]

theorem word?_uint (w : UInt64) : word? (.uint w.toNat) = some w := by
  have hw := w.toNat_lt
  simp only [word?, inRange, integer?, untag, Option.bind_eq_bind, Option.bind_some, Option.pure_def]
  rw [if_pos (by omega), Option.map_some, UInt64.ofInt, Int.emod_eq_of_lt (by omega) (by omega), Int.toNat_natCast,
    UInt64.ofNat_toNat]

theorem integer?_ofInt (i : Int) : integer? (.ofInt i) = some i := by cases i <;> rfl

theorem int64?_ofInt (i : Int64) : int64? (.ofInt i.toInt) = some i := by
  simp only [int64?, inRange, integer?_ofInt, Option.bind_eq_bind, Option.bind_some, Option.pure_def]
  rw [if_pos ⟨Int64.minValue_le_toInt i, Int64.toInt_le i⟩, Option.map_some, Int64.ofInt_toInt]

theorem bool?_ofBool (b : Bool) : bool? (.ofBool b) = some b := by cases b <;> rfl

theorem text?_text (s : Bytes) : text? (.text [s]) = if isUtf8 s then some s else none := by
  simp [text?, untag]

theorem list?_array {α : Type} {element : Item → Option α} {item : α → Item} {xs : List α}
    (h : ∀ x ∈ xs, element (item x) = some x) : list? element (.array (xs.map item)) = some xs := by
  change (xs.map item).mapM element = some xs
  induction xs with
  | nil => rfl
  | cons x xs ih =>
      obtain ⟨hx, hxs⟩ := List.forall_mem_cons.mp h
      rw [List.map_cons, List.mapM_cons, hx, ih hxs]
      rfl

/-- What a field that may be left out adds to the fields that are read. -/
def entry (isZero : Bool) (key : Nat) (value : Item) : List (Int64 × Item) :=
  if isZero then [] else [(.ofNat key, value)]

theorem required_eq (key : Nat) (value : Item) : required key value = unlessZero false key value := rfl

theorem pairUp_unlessZero (isZero : Bool) (key : Nat) (value : Item) (rest : List Item) :
    pairUp (unlessZero isZero key value ++ rest) = (pairUp rest).map (entry isZero key value ++ ·) := by
  cases isZero with
  | true => simp [unlessZero, entry]
  | false =>
      change (pairUp rest).bind (fun fs => some ((Int64.ofNat key, value) :: fs)) = _
      cases pairUp rest <;> rfl

theorem pairUp_last (isZero : Bool) (key : Nat) (value : Item) :
    pairUp (unlessZero isZero key value) = some (entry isZero key value ++ []) := by
  cases isZero <;> rfl

theorem record?_map (is : List Item) : record? (.map is) = pairUp is := rfl

theorem fieldOf_entry (isZero : Bool) (key : Nat) (value : Item) (fs : List (Int64 × Item)) (k : Int64) :
    fieldOf (entry isZero key value ++ fs) k =
      if k = .ofNat key ∧ isZero = false then value else fieldOf fs k := by
  cases isZero with
  | true => simp [entry]
  | false =>
      by_cases hk : k = .ofNat key
      · simp [entry, fieldOf, hk]
      · simp [entry, fieldOf, List.lookup_cons, hk, beq_eq_false_iff_ne.mpr hk]

theorem fieldOf_nil (k : Int64) : fieldOf [] k = .null := rfl

/-- A field that was left out reads as zero. -/
theorem read_unless {α : Type} {read : Item → Option α} {isZero : Bool} {value : Item} {a zero : α}
    (hvalue : read value = some a) (hnull : read .null = some zero) (hzero : isZero = true → a = zero) :
    read (if isZero = false then value else .null) = some a := by
  cases isZero with
  | true => rw [if_neg nofun, hnull, hzero rfl]
  | false => rw [if_pos rfl, hvalue]

theorem byte?_field (b : UInt8) : byte? (if (b == 0) = false then .uint b.toNat else .null) = some b :=
  read_unless (byte?_uint b) rfl eq_of_beq

theorem int64?_field (i : Int64) : int64? (if (i == 0) = false then .ofInt i.toInt else .null) = some i :=
  read_unless (int64?_ofInt i) rfl eq_of_beq

theorem constant?_item (k : PackedConstant) : constant? k.item = some k := by
  have hbool : bool? (if (!k.bool) = false then .ofBool k.bool else .null) = some k.bool :=
    read_unless (bool?_ofBool k.bool) rfl (by simp)
  have hbits : word? (if (k.floatBits == 0) = false then .uint k.floatBits.toNat else .null) = some k.floatBits :=
    read_unless (word?_uint k.floatBits) rfl eq_of_beq
  have hbytes : bytes? (if k.bytes.isEmpty = false then .bytes k.bytes else .null) = some k.bytes :=
    read_unless rfl rfl List.isEmpty_iff.mp
  simp +decide only [constant?, PackedConstant.item, record?_map, required_eq, intField, List.append_assoc,
    pairUp_unlessZero, pairUp_last, Option.map_some, Option.bind_eq_bind, Option.bind_some, fieldOf_entry, fieldOf_nil,
    false_and, true_and, if_true, if_false, byte?_uint, hbool, int64?_field, hbits, hbytes]
  rfl

theorem instruction?_item (i : Instruction) : instruction? (instructionItem i) = some i := by
  simp +decide only [instruction?, instructionItem, record?_map, required_eq, byteField, intField, List.append_assoc,
    pairUp_unlessZero, pairUp_last, Option.map_some, Option.bind_eq_bind, Option.bind_some, fieldOf_entry, fieldOf_nil,
    false_and, true_and, if_true, if_false, byte?_uint, byte?_field, int64?_field]
  rfl

theorem local?_item {l : LocalInfo} (h : isUtf8 l.name = true) : local? (localItem l) = some l := by
  simp +decide only [local?, localItem, record?_map, required_eq, intField, List.append_assoc,
    pairUp_unlessZero, pairUp_last, Option.map_some, Option.bind_eq_bind, Option.bind_some, fieldOf_entry, fieldOf_nil,
    false_and, true_and, if_true, if_false, text?_text, h, int64?_ofInt, int64?_field]
  rfl

/-- A package is read back if its name is a text. -/
theorem Package.ofItem?_item {version : UInt8} {name : Bytes} {constants : List PackedConstant}
    {code : List Instruction} {locals : List LocalInfo} (h : ∀ l ∈ locals, isUtf8 l.name = true) :
    let p : Package := ⟨version, name, some constants, some code, locals⟩
    Package.ofItem? p.item = if isUtf8 name then some p else none := by
  intro p
  have hconstants : list? constant? (listItem PackedConstant.item p.constants) = some constants :=
    list?_array fun k _ => constant?_item k
  have hcode : list? instruction? (listItem instructionItem p.code) = some code :=
    list?_array fun i _ => instruction?_item i
  have hlocals : list? local? (if p.locals.isEmpty = false then .array (p.locals.map localItem) else .null) =
      some locals :=
    read_unless (list?_array fun l hl => local?_item (h l hl)) rfl List.isEmpty_iff.mp
  simp +decide only [Package.ofItem?, Package.item, record?_map, required_eq, List.append_assoc, pairUp_unlessZero,
    pairUp_last, Option.map_some, Option.bind_eq_bind, Option.bind_some, fieldOf_entry, fieldOf_nil, false_and, true_and,
    if_true, if_false, byte?_uint, text?_text, hconstants, hcode, hlocals]
  cases hname : isUtf8 p.name with
  | true => rfl
  | false => rfl

theorem readable_byte (depth : Nat) (b : UInt8) : Readable depth (.uint b.toNat) :=
  readable_uint (Nat.lt_trans b.toNat_lt (by decide))

theorem readable_int (depth : Nat) (i : Int64) : Readable depth (.ofInt i.toInt) := by
  have hlow := i.le_toInt
  have hhigh := i.toInt_lt
  generalize i.toInt = n at hlow hhigh
  cases n with
  | ofNat n =>
      refine readable_uint (show n < 0x10000000000000000 from ?_)
      rw [Int.ofNat_eq_natCast] at hhigh
      omega
  | negSucc n =>
      refine readable_nint (show n < 0x10000000000000000 from ?_)
      rw [Int.negSucc_eq] at hlow
      omega

theorem readable_bool (depth : Nat) (b : Bool) : Readable depth (.ofBool b) := by
  cases b <;> exact readable_simple (by decide)

/-- The body of a record of at most `n` fields, all of them readable. -/
structure ReadableFields (depth n : Nat) (is : List Item) : Prop where
  even : is.length % 2 = 0
  length_le : is.length ≤ 2 * n
  readable : ∀ i ∈ is, Readable depth i

namespace ReadableFields

variable {depth m n : Nat} {is js : List Item} {value : Item}

theorem optional (isZero : Bool) (key : Nat) (hk : key < argumentLimit) (hv : Readable depth value) :
    ReadableFields depth 1 (unlessZero isZero key value) := by
  cases isZero with
  | true => exact ⟨rfl, Nat.zero_le _, List.forall_mem_nil _⟩
  | false =>
      exact ⟨Nat.mod_self 2, Nat.le_refl _, List.forall_mem_cons.mpr ⟨readable_uint hk, List.forall_mem_singleton.mpr hv⟩⟩

theorem always (key : Nat) (hk : key < argumentLimit) (hv : Readable depth value) : ReadableFields depth 1 (required key value) :=
  optional false key hk hv

theorem byte (key : Nat) (hk : key < argumentLimit) (b : UInt8) : ReadableFields depth 1 (byteField key b) :=
  optional _ key hk (readable_byte depth b)

theorem int (key : Nat) (hk : key < argumentLimit) (i : Int64) : ReadableFields depth 1 (intField key i) :=
  optional _ key hk (readable_int depth i)

theorem append (h : ReadableFields depth m is) (h' : ReadableFields depth n js) :
    ReadableFields depth (m + n) (is ++ js) := by
  have := h.even
  have := h'.even
  have := h.length_le
  have := h'.length_le
  refine ⟨?_, ?_, List.forall_mem_append.mpr ⟨h.readable, h'.readable⟩⟩
  all_goals
    rw [List.length_append]
    omega

theorem map (h : ReadableFields (depth + 1) n is) (hd : depth < maxDepth) (hn : n ≤ maxElements) :
    Readable depth (.map is) := by
  have := h.length_le
  exact readable_map hd h.even (by omega) h.readable

end ReadableFields

variable {depth : Nat}

theorem readable_constant {k : PackedConstant} (hd : depth < maxDepth) (hk : k.bytes.length < argumentLimit) :
    Readable depth k.item := by
  have hbits : Readable (depth + 1) (.uint k.floatBits.toNat) := readable_uint k.floatBits.toNat_lt
  have hfields := ((((ReadableFields.always 1 (by decide) (readable_byte (depth + 1) k.kind)).append
    (.optional (!k.bool) 2 (by decide) (readable_bool _ k.bool))).append (.int 3 (by decide) k.int)).append
    (.optional (k.floatBits == 0) 4 (by decide) hbits)).append
    (.optional k.bytes.isEmpty 5 (by decide) (readable_bytes hk))
  exact hfields.map hd (by decide)

theorem readable_instruction (hd : depth < maxDepth) (i : Instruction) : Readable depth (instructionItem i) := by
  have hfields := ((((ReadableFields.always 1 (by decide) (readable_byte (depth + 1) i.op)).append
    (.byte 2 (by decide) i.a)).append (.byte 3 (by decide) i.b)).append (.byte 4 (by decide) i.c)).append
    (.int 5 (by decide) i.int)
  exact hfields.map hd (by decide)

theorem readable_local {l : LocalInfo} (hd : depth < maxDepth) (hl : l.name.length < argumentLimit) :
    Readable depth (localItem l) := by
  have hfields := (((ReadableFields.always 1 (by decide) (readable_text hl)).append
    (.always 2 (by decide) (readable_int (depth + 1) l.slot))).append (.int 3 (by decide) l.line)).append
    (.int 4 (by decide) l.column)
  exact hfields.map hd (by decide)

theorem readable_list {α : Type} {item : α → Item} {xs : List α} (hd : depth < maxDepth)
    (hn : xs.length ≤ maxElements) (h : ∀ x ∈ xs, Readable (depth + 1) (item x)) :
    Readable depth (.array (xs.map item)) :=
  readable_array hd (by rwa [List.length_map]) (List.forall_mem_map.mpr h)

end MiniLua.Wire

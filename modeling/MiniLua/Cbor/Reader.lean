import MiniLua.Cbor.Item

/-!
Reading CBOR. Any well-formed item is read, also with long heads and indefinite lengths, within limits on nesting and on
the number of elements.
-/

namespace MiniLua.Cbor

def maxDepth : Nat := 32

def maxElements : Nat := 131072

/-- Major type, additional information and argument at the head of an item. -/
structure Head where
  major : Nat
  info : Nat
  value : Nat

def readHead : Bytes → Option (Head × Bytes)
  | [] => none
  | b :: r =>
    let major := b.toNat / 32
    let info := b.toNat % 32
    if info < 24 then some (⟨major, info, info⟩, r)
    else if info < 28 then
      let width := 1 <<< (info - 24)
      let digits := r.take width
      let value := bigEndian digits
      if digits.length < width ∨ (major = 7 ∧ info = 24 ∧ value < 32) then none
      else some (⟨major, info, value⟩, r.drop width)
    else if info = 31 ∧ 2 ≤ major ∧ major ≤ 5 then some (⟨major, info, 0⟩, r)
    else none

def takeExactly (n : Nat) (bs : Bytes) : Option (Bytes × Bytes) :=
  let taken := bs.take n
  if taken.length < n then none else some (taken, bs.drop n)

/-- Pieces of a string of indefinite length, each a string of definite length and of the same major type. -/
def pieces (major : Nat) : Nat → Bytes → Option (List Bytes × Bytes)
  | 0, _ => none
  | fuel + 1, bs =>
    if bs.head? = some 0xff then some ([], bs.tail)
    else do
      let (h, r) ← readHead bs
      if h.major ≠ major ∨ h.info = 31 then none
      let (piece, r) ← takeExactly h.value r
      let (rest, r) ← pieces major fuel r
      return (piece :: rest, r)

mutual

def item : Nat → Nat → Bytes → Option (Item × Bytes)
  | 0, _, _ => none
  | fuel + 1, depth, bs => do
    let (h, r) ← readHead bs
    match h.major with
    | 0 => return (.uint h.value, r)
    | 1 => return (.nint h.value, r)
    | 2 =>
      if h.info = 31 then
        let (ps, r) ← pieces 2 (r.length + 1) r
        return (.bytes ps.flatten, r)
      else
        let (content, r) ← takeExactly h.value r
        return (.bytes content, r)
    | 3 =>
      if h.info = 31 then
        let (ps, r) ← pieces 3 (r.length + 1) r
        return (.text ps, r)
      else
        let (content, r) ← takeExactly h.value r
        return (.text [content], r)
    | 4 =>
      if maxDepth < depth + 1 ∨ maxElements < h.value then none
      else if h.info = 31 then
        let (is, r) ← itemsToBreak fuel (depth + 1) r
        if maxElements < is.length then none else return (.array is, r)
      else
        let (is, r) ← items fuel (depth + 1) h.value r
        return (.array is, r)
    | 5 =>
      if maxDepth < depth + 1 ∨ maxElements < h.value then none
      else if h.info = 31 then
        let (is, r) ← itemsToBreak fuel (depth + 1) r
        if 2 * maxElements < is.length ∨ is.length % 2 = 1 then none else return (.map is, r)
      else
        let (is, r) ← items fuel (depth + 1) (2 * h.value) r
        return (.map is, r)
    | 6 =>
      let nested := (r.head?.map fun b => b.toNat / 32 == 6).getD false
      if nested ∧ maxDepth < depth + 1 then none
      else
        let (content, r) ← item fuel (if nested then depth + 1 else depth) r
        return (.tag h.value content, r)
    | _ =>
      if 25 ≤ h.info then return (.float (1 <<< (h.info - 24)) h.value, r) else return (.simple h.value, r)

def items : Nat → Nat → Nat → Bytes → Option (List Item × Bytes)
  | _, _, 0, bs => some ([], bs)
  | 0, _, _, _ => none
  | fuel + 1, depth, n + 1, bs => do
    let (i, r) ← item fuel depth bs
    let (is, r) ← items fuel depth n r
    return (i :: is, r)

def itemsToBreak : Nat → Nat → Bytes → Option (List Item × Bytes)
  | 0, _, _ => none
  | fuel + 1, depth, bs =>
    if bs.head? = some 0xff then some ([], bs.tail)
    else do
      let (i, r) ← item fuel depth bs
      let (is, r) ← itemsToBreak fuel depth r
      return (i :: is, r)

end

/-- The one item that a byte string consists of. -/
def read (bs : Bytes) : Option Item :=
  match item (2 * bs.length + 2) 0 bs with
  | some (i, []) => some i
  | _ => none

end MiniLua.Cbor

import MiniLua.Text.Bytes

/-!
CBOR data items and their canonical form: shortest heads and definite lengths.
-/

namespace MiniLua.Cbor

inductive Item where
  | uint (n : Nat)
  /-- The number `-1 - n`. -/
  | nint (n : Nat)
  | bytes (content : Bytes)
  /-- A text in pieces; a text of definite length is one piece. -/
  | text (pieces : List Bytes)
  | array (items : List Item)
  /-- Keys and values in turn. -/
  | map (items : List Item)
  | tag (number : Nat) (content : Item)
  | simple (n : Nat)
  | float (width bits : Nat)

namespace Item

def null : Item := simple 22

def ofBool (b : Bool) : Item := simple (if b then 21 else 20)

def ofInt (i : Int) : Item :=
  match i with
  | .ofNat n => uint n
  | .negSucc n => nint n

end Item

def bigEndian (bs : Bytes) : Nat := bs.foldl (fun n b => n * 256 + b.toNat) 0

def bigEndianBytes (width n : Nat) : Bytes := (List.range width).reverse.map fun i => (n >>> (8 * i)).toUInt8

/-- A major type and an argument, in the shortest form. -/
def head (major n : Nat) : Bytes :=
  let first (info : Nat) : UInt8 := (major * 32 + info).toUInt8
  if n < 24 then [first n]
  else if n < 0x100 then first 24 :: bigEndianBytes 1 n
  else if n < 0x10000 then first 25 :: bigEndianBytes 2 n
  else if n < 0x100000000 then first 26 :: bigEndianBytes 4 n
  else first 27 :: bigEndianBytes 8 n

mutual

def Item.encode : Item → Bytes
  | .uint n => head 0 n
  | .nint n => head 1 n
  | .bytes content => head 2 content.length ++ content
  | .text pieces => head 3 pieces.flatten.length ++ pieces.flatten
  | .array items => head 4 items.length ++ encodeAll items
  | .map items => head 5 (items.length / 2) ++ encodeAll items
  | .tag number content => head 6 number ++ content.encode
  | .simple n => head 7 n
  | .float width bits => (7 * 32 + 24 + width.log2).toUInt8 :: bigEndianBytes width bits

def encodeAll : List Item → Bytes
  | [] => []
  | i :: rest => i.encode ++ encodeAll rest

end

end MiniLua.Cbor

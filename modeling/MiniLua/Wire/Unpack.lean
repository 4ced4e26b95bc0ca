import MiniLua.Cbor.Reader
import MiniLua.Text.Utf8
import MiniLua.Wire.Package

/-!
Records read back from data items. Tags are passed over, null stands for the zero value of any field, unknown fields are
skipped, and of two fields with one key the first counts.
-/

namespace MiniLua.Wire

open Cbor Text

/-- The tags for dates and large numbers say what they may hold. -/
def tagHolds (number : Nat) (content : Item) : Bool :=
  match number, content with
  | 0, .text _ => true
  | 1, .uint _ | 1, .nint _ | 1, .float .. => true
  | 2, .bytes _ | 3, .bytes _ => true
  | n, _ => 4 ≤ n

/-- The item inside its tags; large numbers keep theirs. -/
def untag : Item → Option Item
  | .tag number content =>
    if !tagHolds number content then none
    else if number = 2 ∨ number = 3 then some (.tag number content)
    else untag content
  | i => some i

def isNull (n : Nat) : Bool := n == 22 || n == 23

/-- An integer item; simple values without a meaning of their own count as numbers. -/
def integer? (i : Item) : Option Int := do
  match ← untag i with
  | .uint n => return n
  | .nint n => return .negSucc n
  | .simple n => if isNull n then return 0 else if n = 20 ∨ n = 21 then none else return n
  | .tag 2 (.bytes content) => return bigEndian content
  | .tag 3 (.bytes content) => return .negSucc (bigEndian content)
  | _ => none

def inRange (low high : Int) (i : Item) : Option Int := do
  let n ← integer? i
  if low ≤ n ∧ n ≤ high then return n else none

def byte? (i : Item) : Option UInt8 := (inRange 0 255 i).map UInt8.ofInt

def word? (i : Item) : Option UInt64 := (inRange 0 0xffffffffffffffff i).map UInt64.ofInt

def int64? (i : Item) : Option Int64 := (inRange Int64.minValue.toInt Int64.maxValue.toInt i).map Int64.ofInt

def bool? (i : Item) : Option Bool := do
  match ← untag i with
  | .simple n => if isNull n then return false else if n = 20 ∨ n = 21 then return n == 21 else none
  | _ => none

def text? (i : Item) : Option Bytes := do
  match ← untag i with
  | .text ps => if ps.all isUtf8 then return ps.flatten else none
  | .simple n => if isNull n then return [] else none
  | _ => none

def list? {α : Type} (element : Item → Option α) (i : Item) : Option (List α) := do
  match ← untag i with
  | .array is => is.mapM element
  | .simple n => if isNull n then return [] else none
  | _ => none

/-- A byte string, also written as an array of numbers. -/
def bytes? (i : Item) : Option Bytes := do
  match ← untag i with
  | .bytes content | .tag _ (.bytes content) => return content
  | i => list? byte? i

/-- Field number of a key: an integer, or a text that spells a digit. Other texts name no field, and other keys and
integers below the range of 64 bits are not allowed. -/
def key? : Item → Option Int64
  | .uint n => some (.ofNat n)
  | .nint n => if n < 0x8000000000000000 then some (-1 - .ofNat n) else none
  | .text ps =>
    if !ps.all isUtf8 then none
    else match ps.flatten with
      | [d] => some (if isDigit d then .ofNat (hexValue d) else -1)
      | _ => some (-1)
  | _ => none

def pairUp : List Item → Option (List (Int64 × Item))
  | k :: v :: rest => do
    let key ← key? k
    return (key, v) :: (← pairUp rest)
  | _ => some []

def record? (i : Item) : Option (List (Int64 × Item)) := do
  match ← untag i with
  | .map is => pairUp is
  | .simple n => if isNull n then return [] else none
  | _ => none

/-- The value of a field; one that is missing reads as null. -/
def fieldOf (fields : List (Int64 × Item)) (key : Int64) : Item := (fields.lookup key).getD .null

def constant? (i : Item) : Option PackedConstant := do
  let fs ← record? i
  return {
    kind := ← byte? (fieldOf fs 1)
    bool := ← bool? (fieldOf fs 2)
    int := ← int64? (fieldOf fs 3)
    floatBits := ← word? (fieldOf fs 4)
    bytes := ← bytes? (fieldOf fs 5) }

def instruction? (i : Item) : Option Instruction := do
  let fs ← record? i
  return {
    op := ← byte? (fieldOf fs 1)
    a := ← byte? (fieldOf fs 2)
    b := ← byte? (fieldOf fs 3)
    c := ← byte? (fieldOf fs 4)
    int := ← int64? (fieldOf fs 5) }

def local? (i : Item) : Option LocalInfo := do
  let fs ← record? i
  return {
    name := ← text? (fieldOf fs 1)
    slot := ← int64? (fieldOf fs 2)
    line := ← int64? (fieldOf fs 3)
    column := ← int64? (fieldOf fs 4) }

def Package.ofItem? (i : Item) : Option Package := do
  let fs ← record? i
  return {
    version := ← byte? (fieldOf fs 1)
    name := ← text? (fieldOf fs 2)
    constants := some (← list? constant? (fieldOf fs 3))
    code := some (← list? instruction? (fieldOf fs 4))
    locals := ← list? local? (fieldOf fs 5) }

def Package.decode? (bs : Bytes) : Option Package := (read bs).bind Package.ofItem?

end MiniLua.Wire

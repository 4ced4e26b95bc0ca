import Std.Data.ExtTreeMap
import MiniLua.Value.Basic

/-!
Tables: a dense part for the integer keys 1, 2, ... and buckets for all other keys, chosen by a byte hash. A key that
continues the dense part moves there from its bucket. The operations take the byte hash as a parameter.
-/

namespace MiniLua

structure Entry where
  key : Value
  value : Value
  deriving DecidableEq

structure Table where
  array : Array Value
  buckets : Std.ExtTreeMap UInt64 (List Entry)
  /-- Number of entries in all buckets. -/
  count : Nat

inductive KeyFault where
  | nil
  | nan
  deriving DecidableEq, Repr

def KeyFault.message : KeyFault → Bytes
  | .nil => Text.utf8 "table index is nil"
  | .nan => Text.utf8 "table index is NaN"

namespace Table

def empty : Table := ⟨#[], ∅, 0⟩

instance : Inhabited Table := ⟨empty⟩

/-- Where an integer key in the dense part sits. -/
def arrayIndex? (t : Table) : Value → Option Nat
  | .int i => if 1 ≤ i.toInt ∧ i.toInt ≤ t.array.size then some (i.toInt - 1).toNat else none
  | _ => none

/-- The integer key that continues the dense part. -/
def nextKey (t : Table) : Value := .int (Int64.ofNat (t.array.size + 1))

def push (t : Table) (v : Value) : Table := { t with array := t.array.push v }

variable (byteHash : Bytes → UInt64)

def bucket (t : Table) (key : Value) : List Entry := t.buckets.getD (byteHash key.hashed) []

def setBucket (t : Table) (key : Value) (entries : List Entry) : Table :=
  if entries.isEmpty then { t with buckets := t.buckets.erase (byteHash key.hashed) }
  else { t with buckets := t.buckets.insert (byteHash key.hashed) entries }

def get (t : Table) (key : Value) : Value :=
  if key.isNil then .nil
  else match t.arrayIndex? key with
    | some i => t.array.getD i .nil
    | none => (((t.bucket byteHash key).find? (·.key.equal key)).map Entry.value).getD .nil

/-- Replaces the value of the entry under `key`. -/
def replaceIn (key value : Value) : List Entry → List Entry
  | [] => []
  | e :: r => if e.key.equal key then ⟨e.key, value⟩ :: r else e :: replaceIn key value r

def insert (t : Table) (key value : Value) : Table :=
  let entries := t.bucket byteHash key
  if entries.any (·.key.equal key) then t.setBucket byteHash key (replaceIn key value entries)
  else { t.setBucket byteHash key (entries ++ [⟨key, value⟩]) with count := t.count + 1 }

/-- Takes the entry under `key` out of its bucket. -/
def remove (t : Table) (key : Value) : Option (Value × Table) :=
  if t.count = 0 then none
  else
    let entries := t.bucket byteHash key
    match entries.find? (·.key.equal key) with
    | some e =>
      some (e.value, { t.setBucket byteHash key (entries.eraseP (·.key.equal key)) with count := t.count - 1 })
    | none => none

def discard (t : Table) (key : Value) : Table := ((t.remove byteHash key).map Prod.snd).getD t

/-- Moves up to `n` entries that continue the dense part out of their buckets. -/
def migrateUpTo : Nat → Table → Table
  | 0, t => t
  | n + 1, t =>
    match t.remove byteHash t.nextKey with
    | some (v, t') => migrateUpTo n (t'.push v)
    | none => t

def migrate (t : Table) : Table := migrateUpTo byteHash t.count t

def checkKey (key : Value) : Except KeyFault Unit :=
  if key.isNil then .error .nil else if key.isNaN then .error .nan else .ok ()

/-- Stores a value under a key that is neither nil nor NaN. -/
def put (t : Table) (key value : Value) : Table :=
  match t.arrayIndex? key with
  | some i => { t with array := t.array.setIfInBounds i value }
  | none =>
    if key = t.nextKey then migrate byteHash ((t.discard byteHash key).push value) else t.insert byteHash key value

def set (t : Table) (key value : Value) : Except KeyFault Table := do
  checkKey key
  return t.put byteHash key value

/-- Adds values at the end of the dense part. -/
def append (t : Table) (values : List Value) : Table :=
  migrate byteHash (values.foldl (fun t v => (t.discard byteHash t.nextKey).push v) t)

/-- Entries outside the dense part. -/
def mapEntries (t : Table) : List Entry := t.buckets.toList.flatMap Prod.snd

/-- All entries, the dense part first in order. -/
def entries (t : Table) : List Entry :=
  (t.array.toList.zipIdx 1).map (fun (v, i) => ⟨.int (Int64.ofNat i), v⟩) ++ t.mapEntries

def walkList {σ : Type} (visit : σ → Entry → Bool × σ) : List Entry → σ → σ
  | [], s => s
  | e :: r, s =>
    let (goOn, s') := visit s e
    if goOn then walkList visit r s' else s'

/-- Visits the entries one after the other until a visit says to stop. -/
def walk {σ : Type} (t : Table) (visit : σ → Entry → Bool × σ) (s : σ) : σ := walkList visit t.entries s

end Table

end MiniLua

import MiniLua.Charset.Kanji
import MiniLua.Charset.Page
import MiniLua.Text.Utf8

/-!
Charsets and how a text in one of them reads. What belongs to no character reads as U+FFFD.
-/

namespace MiniLua

open Text

inductive ByteOrder where
  | big
  | little
  deriving DecidableEq, Repr

inductive Charset where
  | utf8Checked
  /-- One byte for each character: bytes below `first` stand for themselves, the others for `characters`. -/
  | page (first : Nat) (characters : String)
  | utf16 (order : ByteOrder)
  /-- UTF-16 in the order that a mark at the start gives. -/
  | marked
  | shiftJis
  deriving DecidableEq, Repr

namespace Charset

def unknown : Nat := 0xfffd

def readPage (first : Nat) (characters : String) (b : UInt8) : Nat :=
  if b.toNat < first then b.toNat
  else match characters.toList[b.toNat - first]? with
    | some c => c.toNat
    | none => unknown

def unitOf (order : ByteOrder) (a b : UInt8) : Nat :=
  match order with
  | .big => a.toNat * 0x100 + b.toNat
  | .little => b.toNat * 0x100 + a.toNat

/-- Pairs of bytes; a last byte alone is unknown. -/
def units (order : ByteOrder) : Bytes → List Nat
  | a :: b :: r => unitOf order a b :: units order r
  | [_] => [unknown]
  | [] => []

def isSurrogate (u : Nat) : Bool := 0xd800 ≤ u && u ≤ 0xdfff

def isLowSurrogate (u : Nat) : Bool := 0xdc00 ≤ u && u ≤ 0xdfff

def isHighSurrogate (u : Nat) : Bool := 0xd800 ≤ u && u ≤ 0xdbff

/-- A low surrogate is read together with a surrogate before it, also where the two are no pair. -/
def readUnits : List Nat → List Nat
  | [] => []
  | [u] => [if isSurrogate u then unknown else u]
  | u :: v :: r =>
    if !isSurrogate u then u :: readUnits (v :: r)
    else if !isLowSurrogate v then unknown :: readUnits (v :: r)
    else if isHighSurrogate u then (0x10000 + (u - 0xd800) * 0x400 + (v - 0xdc00)) :: readUnits r
    else unknown :: readUnits r

def readMarked : Bytes → List Nat
  | 0xfe :: 0xff :: r => readUnits (units .big r)
  | 0xff :: 0xfe :: r => readUnits (units .little r)
  | bs => readUnits (units .big bs)

def isLead (b : UInt8) : Bool := (0x81 ≤ b && b < 0xa0) || (0xe0 ≤ b && b < 0xfd)

/-- The character of a lead byte and a trail byte: two rows share a lead byte. -/
def readPair (lead trail : UInt8) : Nat :=
  let row := 2 * (lead.toNat - if lead < 0xa0 then 0x81 else 0xc1)
  if trail < 0x7f then kanji row (trail.toNat - 0x40)
  else if trail < 0x9f then kanji row (trail.toNat - 0x41)
  else if trail < 0xfd then kanji (row + 1) (trail.toNat - 0x9f)
  else unknown

def readSingle (b : UInt8) : Nat :=
  if b ≤ 0x80 then b.toNat
  else if 0xa1 ≤ b && b < 0xe0 then b.toNat - 0xa1 + 0xff61
  else unknown

/-- A trail byte that is an ASCII character out of place is read again. -/
def readShiftJis : Bytes → List Nat
  | [] => []
  | [b] => [if isLead b then unknown else readSingle b]
  | b :: c :: r =>
    if !isLead b then readSingle b :: readShiftJis (c :: r)
    else if c < 0x40 || c == 0x7f then unknown :: readShiftJis (c :: r)
    else readPair b c :: readShiftJis r

/-- The code points of a text. -/
def read (cs : Charset) (bs : Bytes) : List Nat :=
  match cs with
  | .utf8Checked => (runes bs).map Rune.code
  | .page first characters => bs.map (readPage first characters)
  | .utf16 order => readUnits (units order bs)
  | .marked => readMarked bs
  | .shiftJis => readShiftJis bs

/-- The text in UTF-8. -/
def decode (cs : Charset) (bs : Bytes) : Bytes := (cs.read bs).flatMap encodeScalar

end Charset

end MiniLua

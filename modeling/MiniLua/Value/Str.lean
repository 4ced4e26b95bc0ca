import MiniLua.Text.Bytes

/-!
String values. A string is stored in the smallest of three layouts that holds it: a short cell, a middle cell, or the
bytes as they are. The layout is chosen by the length alone, so equal contents are equal strings.
-/

namespace MiniLua

namespace Str

def shortMax : Nat := 14

def midMax : Nat := 47

inductive Layout where
  | short (length : Fin (shortMax + 1)) (cell : Vector UInt8 shortMax)
  | mid (length : Fin (midMax + 1)) (cell : Vector UInt8 midMax)
  | long (bytes : Bytes)
  deriving DecidableEq

namespace Layout

def bytes : Layout → Bytes
  | short length cell => cell.toList.take length
  | mid length cell => cell.toList.take length
  | long bytes => bytes

/-- A cell of the given size that starts with `bs`, filled up with zeros. -/
def cellOf (size : Nat) (bs : Bytes) : Vector UInt8 size := Vector.ofFn fun i => bs.getD i 0

def ofBytes (bs : Bytes) : Layout :=
  if h : bs.length ≤ shortMax then short ⟨bs.length, by omega⟩ (cellOf shortMax bs)
  else if h : bs.length ≤ midMax then mid ⟨bs.length, by omega⟩ (cellOf midMax bs)
  else long bs

theorem take_cellOf {size : Nat} {bs : Bytes} (h : bs.length ≤ size) :
    (cellOf size bs).toList.take bs.length = bs := by
  apply List.ext_getElem
  · simp [cellOf, h]
  · intro i h₁ h₂
    simp [cellOf, List.getD_eq_getElem?_getD, h₂]

@[simp] theorem bytes_ofBytes (bs : Bytes) : (ofBytes bs).bytes = bs := by
  unfold ofBytes
  split
  · exact take_cellOf ‹_›
  · split
    · exact take_cellOf ‹_›
    · rfl

end Layout

end Str

structure Str where
  layout : Str.Layout
  canonical : Str.Layout.ofBytes layout.bytes = layout
  deriving DecidableEq

namespace Str

def ofBytes (bs : Bytes) : Str := ⟨Layout.ofBytes bs, by rw [Layout.bytes_ofBytes]⟩

def bytes (s : Str) : Bytes := s.layout.bytes

@[simp] theorem bytes_ofBytes (bs : Bytes) : (ofBytes bs).bytes = bs := Layout.bytes_ofBytes bs

theorem ext_bytes {s t : Str} (h : s.bytes = t.bytes) : s = t := by
  obtain ⟨s, hs⟩ := s
  obtain ⟨t, ht⟩ := t
  have : s = t := by rw [← hs, ← ht]; exact congrArg _ h
  subst this
  rfl

@[simp] theorem ofBytes_bytes (s : Str) : ofBytes s.bytes = s := ext_bytes (bytes_ofBytes _)

/-- Which layout is in use: 0 short, 1 middle, 2 long. -/
def sizeClass (s : Str) : Nat :=
  match s.layout with
  | .short .. => 0
  | .mid .. => 1
  | .long _ => 2

end Str

end MiniLua

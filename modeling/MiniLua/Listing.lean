import MiniLua.Chunk
import MiniLua.Position
import MiniLua.Text.Quoted

/-!
Listings: the text of instructions and chunks, one line for each constant, local and instruction.
-/

namespace MiniLua

open Text

def Instruction.text (i : Instruction) : Bytes :=
  let shown := i.shownOperands.flatMap fun p => space :: decimal p.2.toNat
  let int := if i.hasInt then space :: integer i.int.toInt else []
  trimRight (· == space) (padRight 16 (opName i.op) ++ shown ++ int)

namespace Listing

/-- Back from `n` to the start of a character. -/
def cutBefore (bs : Bytes) : Nat → Nat
  | 0 => 0
  | n + 1 => if (bs[n + 1]?.map isContinuation).getD false then cutBefore bs n else n + 1

/-- A string longer than forty bytes is cut before the character at byte 37. -/
def abridge (bs : Bytes) : Bytes :=
  if 40 < bs.length then bs.take (cutBefore bs 37) ++ utf8 "..." else bs

def constant (v : Value) : Bytes :=
  match v with
  | .str s => quote (abridge s.bytes)
  | _ => v.display

def note (c : Chunk) (p : OperandKind × UInt8) : Option Bytes :=
  if p.1 = .const then
    some (match c.constants[p.2.toNat]? with
      | some v => constant v
      | none => utf8 "<bad constant " ++ decimal p.2.toNat ++ utf8 ">")
  else none

/-- The constants an instruction refers to. -/
def notes (c : Chunk) (i : Instruction) : Bytes := joinWith [space] (i.shownOperands.filterMap (note c))

def constantLine (index : Nat) (v : Value) : Bytes :=
  utf8 ";   [" ++ padLeft space 3 (decimal index) ++ utf8 "] " ++ constant v

def localLine (l : LocalInfo) : Bytes :=
  utf8 ";   " ++ padRight 12 l.name ++ utf8 " slot=" ++ integer l.slot.toInt ++ utf8 " line " ++
    writePlace l.line.toInt l.column.toInt

def codeLine (c : Chunk) (index : Nat) (i : Instruction) : Bytes :=
  let note := notes c i
  padLeft 0x30 4 (decimal index) ++ utf8 "  " ++
    (if note.isEmpty then i.text else padRight 30 i.text ++ utf8 " ; " ++ note)

def numbered {α : Type} (line : Nat → α → Bytes) (xs : Array α) : List Bytes :=
  xs.toList.zipIdx.map fun (x, i) => line i x

def lines (c : Chunk) : List Bytes :=
  (if c.name.isEmpty then [] else [utf8 "; === " ++ c.name ++ utf8 " ==="]) ++
    (utf8 "; Constants (" ++ decimal c.constants.size ++ utf8 "):") :: numbered constantLine c.constants ++
    (if c.locals.isEmpty then [] else utf8 "; Locals:" :: c.locals.toList.map localLine) ++
    utf8 "; Code:" :: numbered (codeLine c) c.code

end Listing

def Chunk.listing (c : Chunk) : Bytes := (Listing.lines c).flatMap (· ++ [newline])

end MiniLua

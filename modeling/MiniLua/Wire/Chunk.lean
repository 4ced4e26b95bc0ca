import MiniLua.Sha256
import MiniLua.Wire.Unpack

/-!
Chunks on the wire: writing, reading back, and the digest that names a chunk by its content.
-/

namespace MiniLua.Wire

open Text

inductive WireFault where
  | malformed
  | version (found : UInt8)
  | unknownKind (index : Nat) (kind : UInt8)
  | notPortable (index : Nat) (kind : Kind)
  deriving DecidableEq, Repr

def WireFault.message : WireFault → Bytes
  | .malformed => utf8 "dist: unmarshal chunk"
  | .version found => utf8 "dist: unsupported chunk version " ++ decimal found.toNat
  | .unknownKind index kind =>
    utf8 "dist: constant " ++ decimal index ++ utf8 ": unknown constant kind " ++ decimal kind.toNat
  | .notPortable index kind =>
    utf8 "dist: constant " ++ decimal index ++ utf8 ": cannot encode " ++ kind.name ++ utf8 " value"

/-- Tables and functions are not portable. -/
def packConstant : Value → Except Kind PackedConstant
  | .nil => .ok { kind := 0 }
  | .bool b => .ok { kind := 1, bool := b }
  | .int i => .ok { kind := 2, int := i }
  | .float x => .ok { kind := 3, floatBits := x.bits }
  | .str s => .ok { kind := 4, bytes := s.bytes }
  | .table _ => .error .table
  | .native _ => .error .function

/-- The value of a packed constant, or its kind if there is no such kind. -/
def unpackConstant (k : PackedConstant) : Except UInt8 Value :=
  if k.kind = 0 then .ok .nil
  else if k.kind = 1 then .ok (.bool k.bool)
  else if k.kind = 2 then .ok (.int k.int)
  else if k.kind = 3 then .ok (.float ⟨k.floatBits⟩)
  else if k.kind = 4 then .ok (.ofBytes k.bytes)
  else .error k.kind

/-- Maps a list; the first element that fails is reported with its index. -/
def mapIndexed {α β ε : Type} (f : α → Except ε β) (fault : Nat → ε → WireFault) :
    Nat → List α → Except WireFault (List β)
  | _, [] => .ok []
  | i, x :: rest =>
    match f x with
    | .ok y => (mapIndexed f fault (i + 1) rest).map (y :: ·)
    | .error e => .error (fault i e)

def pack (c : Chunk) : Except WireFault Package :=
  (mapIndexed packConstant .notPortable 0 c.constants.toList).map fun constants =>
    ⟨formatVersion, c.name, some constants, some c.code.toList, c.locals.toList⟩

def unpack (p : Package) : Except WireFault Chunk :=
  if p.version ≠ formatVersion then .error (.version p.version)
  else (mapIndexed unpackConstant .unknownKind 0 (p.constants.getD [])).map fun constants =>
    ⟨p.name, constants.toArray, (p.code.getD []).toArray, p.locals.toArray⟩

def encode (c : Chunk) : Except WireFault Bytes := (pack c).map Package.encode

def decode (bs : Bytes) : Except WireFault Chunk :=
  match Package.decode? bs with
  | some p => unpack p
  | none => .error .malformed

def digest (c : Chunk) : Except WireFault Bytes := (encode c).map Sha256.digest

end MiniLua.Wire

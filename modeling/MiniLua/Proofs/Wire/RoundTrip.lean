import MiniLua.Proofs.Wire.Records
import MiniLua.Wire.Chunk

/-!
Chunks on the wire. A chunk of constants that can be written, with names that are texts and within the limits of the
reader, is read back as it was; so what is written tells chunks apart.
-/

namespace MiniLua

open Cbor Text

/-- Whether a constant can be written. -/
def Value.isPortable : Value → Bool
  | .table _ | .native _ => false
  | _ => true

/-- Length of a string; 0 for other values. -/
def Value.byteLength : Value → Nat
  | .str s => s.bytes.length
  | _ => 0

namespace Chunk

/-- What the wire format asks of constants and locals. -/
structure Packable (c : Chunk) : Prop where
  constants : ∀ v ∈ c.constants, v.isPortable = true
  localNames : ∀ l ∈ c.locals, isUtf8 l.name = true
  constants_le : c.constants.size ≤ maxElements
  locals_le : c.locals.size ≤ maxElements

/-- What the wire format asks of a chunk. -/
structure Portable (c : Chunk) : Prop extends Packable c where
  name : isUtf8 c.name = true
  code_le : c.code.size ≤ maxElements

/-- All lengths are numbers of 64 bits. -/
structure Sized (c : Chunk) : Prop where
  name : c.name.length < argumentLimit
  constants : ∀ v ∈ c.constants, v.byteLength < argumentLimit
  localNames : ∀ l ∈ c.locals, l.name.length < argumentLimit
  code : c.code.size < argumentLimit

end Chunk

namespace Wire

theorem packConstant_portable {v : Value} (h : v.isPortable = true) :
    ∃ k, packConstant v = .ok k ∧ unpackConstant k = .ok v ∧ k.bytes.length = v.byteLength := by
  cases v with
  | table | native => cases h
  | nil | bool | int | float => exact ⟨_, rfl, rfl, rfl⟩
  | str s =>
      refine ⟨_, rfl, ?_, rfl⟩
      change Except.ok (Value.str (Str.ofBytes s.bytes)) = _
      rw [Str.ofBytes_bytes]

/-- A list whose elements are mapped there and back. -/
theorem mapIndexed_inverse {α β ε ε' : Type} {f : α → Except ε β} {g : β → Except ε' α} {Q : β → Prop} {xs : List α}
    (h : ∀ x ∈ xs, ∃ y, f x = .ok y ∧ g y = .ok x ∧ Q y) (fault : Nat → ε → WireFault) (fault' : Nat → ε' → WireFault)
    (i j : Nat) : ∃ ys, mapIndexed f fault i xs = .ok ys ∧ mapIndexed g fault' j ys = .ok xs ∧
      ys.length = xs.length ∧ ∀ y ∈ ys, Q y := by
  induction xs generalizing i j with
  | nil => exact ⟨[], rfl, rfl, rfl, List.forall_mem_nil _⟩
  | cons x xs ih =>
      obtain ⟨hx, hxs⟩ := List.forall_mem_cons.mp h
      obtain ⟨y, hf, hg, hy⟩ := hx
      obtain ⟨ys, hfs, hgs, hlength, hys⟩ := ih hxs (i + 1) (j + 1)
      refine ⟨y :: ys, ?_, ?_, congrArg (· + 1) hlength, List.forall_mem_cons.mpr ⟨hy, hys⟩⟩
      · simp only [mapIndexed, hf, hfs, Except.map]
      · simp only [mapIndexed, hg, hgs, Except.map]

variable {c : Chunk}

/-- The portable form of a chunk, from which the chunk comes back. -/
theorem pack_packable (h : c.Packable) (hs : c.Sized) :
    ∃ ks, let p : Package := ⟨formatVersion, c.name, some ks, some c.code.toList, c.locals.toList⟩
      pack c = .ok p ∧ unpack p = .ok c ∧ ks.length ≤ maxElements ∧ ∀ k ∈ ks, k.bytes.length < argumentLimit := by
  have hvalues : ∀ v ∈ c.constants.toList, ∃ k, packConstant v = .ok k ∧ unpackConstant k = .ok v ∧
      k.bytes.length < argumentLimit := fun v hv => by
    have hv := Array.mem_toList_iff.mp hv
    obtain ⟨k, hpack, hunpack, hlength⟩ := packConstant_portable (h.constants v hv)
    exact ⟨k, hpack, hunpack, hlength ▸ hs.constants v hv⟩
  obtain ⟨ks, hpack, hunpack, hlength, hks⟩ := mapIndexed_inverse hvalues .notPortable .unknownKind 0 0
  refine ⟨ks, ?_, ?_, hlength ▸ h.constants_le, hks⟩
  · simp only [pack, hpack, Except.map]
  · simp only [unpack, Option.getD_some, hunpack, Except.map]
    rfl

/-- The items before the code of a package. -/
theorem readable_package {name : Bytes} {ks : List PackedConstant} (hname : name.length < argumentLimit)
    (hn : ks.length ≤ maxElements) (hks : ∀ k ∈ ks, k.bytes.length < argumentLimit) :
    ReadableFields 1 3 (required 1 (.uint formatVersion.toNat) ++ required 2 (.text [name]) ++
      required 3 (listItem PackedConstant.item (some ks))) := by
  have hconstants : Readable 1 (listItem PackedConstant.item (some ks)) :=
    readable_list (by decide) hn fun k hk => readable_constant (by decide) (hks k hk)
  exact ((ReadableFields.always 1 (by decide) (readable_byte 1 formatVersion)).append
    (.always 2 (by decide) (readable_text hname))).append (.always 3 (by decide) hconstants)

/-- A chunk within the limits of the reader is read back if its name is a text, and refused otherwise. -/
theorem decode_packable (h : c.Packable) (hs : c.Sized) (hcode : c.code.size ≤ maxElements) :
    ∃ bs, encode c = .ok bs ∧ decode bs = if isUtf8 c.name then .ok c else .error .malformed := by
  obtain ⟨ks, hpack, hunpack, hn, hks⟩ := pack_packable h hs
  have hitems : Readable 1 (listItem instructionItem (some c.code.toList)) :=
    readable_list (by decide) hcode fun i _ => readable_instruction (by decide) i
  have hlocals : Readable 1 (.array (c.locals.toList.map localItem)) :=
    readable_list (by decide) h.locals_le fun l hl =>
      readable_local (by decide) (hs.localNames l (Array.mem_toList_iff.mp hl))
  have hfields := ((readable_package hs.name hn hks).append
    (.always 4 (by decide) hitems)).append (.optional c.locals.toList.isEmpty 5 (by decide) hlocals)
  have hitem : Readable 0 (Package.item ⟨formatVersion, c.name, some ks, some c.code.toList, c.locals.toList⟩) :=
    hfields.map (by decide) (by decide)
  refine ⟨_, by rw [encode, hpack]; rfl, ?_⟩
  unfold decode Package.decode? Package.encode
  rw [read_encode hitem, Option.bind_some,
    Package.ofItem?_item fun l hl => h.localNames l (Array.mem_toList_iff.mp hl)]
  cases isUtf8 c.name with
  | true => exact hunpack
  | false => rfl

theorem decode_portable (h : c.Portable) (hs : c.Sized) : ∃ bs, encode c = .ok bs ∧ decode bs = .ok c := by
  obtain ⟨bs, hencode, hdecode⟩ := decode_packable h.toPackable hs h.code_le
  exact ⟨bs, hencode, by rw [hdecode, h.name]; rfl⟩

/-- A chunk that meets the wire format is read back from what is written of it, and no other such chunk is written in the
same way. -/
theorem decode_encode (h : c.Portable) (hs : c.Sized) :
    ∃ bs, encode c = .ok bs ∧ decode bs = .ok c ∧
      ∀ c' : Chunk, c'.Portable → c'.Sized → encode c' = .ok bs → c' = c := by
  obtain ⟨bs, hencode, hdecode⟩ := decode_portable h hs
  refine ⟨bs, hencode, hdecode, fun c' h' hs' hencode' => ?_⟩
  obtain ⟨bs', hencode'', hdecode'⟩ := decode_portable h' hs'
  obtain rfl := Except.ok.inj (hencode'.symm.trans hencode'')
  exact Except.ok.inj (hdecode'.symm.trans hdecode)

theorem eq_ok_of_toOption {ε α : Type} {x : Except ε α} {a : α} (h : x.toOption = some a) : x = .ok a := by
  cases x with
  | error e => cases h
  | ok b => exact congrArg Except.ok (Option.some.inj h)

/-- Constants of every kind: both zeros, a NaN with a payload, the least integer, strings that are empty, no text or
long; and a local without a place. -/
def assorted : Chunk where
  name := utf8 "ß.lua"
  constants := #[.nil, .bool true, .bool false, .int Int64.minValue, .int 0, .float ⟨0x8000000000000000⟩, .float ⟨0⟩,
    .float ⟨0xfff8000000000123⟩, .ofBytes [], .ofBytes [0xff, 0x00], .ofBytes (List.replicate 300 0x61)]
  code := #[{ op := 0xff, a := 1, c := 200, int := -1 }, { op := 0 }]
  locals := #[⟨[], -1, 0, 0⟩, ⟨utf8 "x", 3, 1, Int64.maxValue⟩]

theorem decode_encode_assorted :
    assorted.Portable ∧ assorted.Sized ∧ ∃ bs, encode assorted = .ok bs ∧ decode bs = .ok assorted := by
  have hportable : assorted.Portable :=
    ⟨⟨by decide +kernel, by decide +kernel, by decide +kernel, by decide +kernel⟩, by decide +kernel, by decide +kernel⟩
  have hsized : assorted.Sized := ⟨by decide +kernel, by decide +kernel, by decide +kernel, by decide +kernel⟩
  obtain ⟨bs, hencode, hdecode, -⟩ := decode_encode hportable hsized
  exact ⟨hportable, hsized, bs, hencode, hdecode⟩

end Wire

end MiniLua

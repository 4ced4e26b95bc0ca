import MiniLua.Proofs.Compile.Extent

/-!
Compiled programs on the wire. All of them can be written. They are read back just if the name of the chunk is a text and
the code is within the limit for arrays, neither of which the compiler sees to.
-/

namespace MiniLua.Wire

open Cbor Text

variable {c : Chunk}

theorem append_required (before behind : List Item) (key : Nat) (value : Item) :
    before ++ required key value ++ behind = before ++ [.uint key] ++ value :: behind := by
  simp [required]

/-- Code that is too long is written but not read. -/
theorem decode_long (h : c.Packable) (hs : c.Sized) (hcode : maxElements < c.code.size) :
    ∃ bs, encode c = .ok bs ∧ decode bs = .error .malformed := by
  obtain ⟨ks, hpack, -, hn, hks⟩ := pack_packable h hs
  have hfields := readable_package hs.name hn hks
  have hbefore := List.forall_mem_append.mpr
    ⟨hfields.readable, List.forall_mem_singleton.mpr (readable_uint (by decide : 4 < argumentLimit))⟩
  have hnone (fuel : Nat) (r : Bytes) :
      item fuel 1 ((listItem instructionItem (some c.code.toList)).encode ++ r) = none :=
    item_array_none (by simpa using hcode) (by simpa using hs.code) fuel r
  refine ⟨_, by rw [encode, hpack]; rfl, ?_⟩
  unfold decode Package.decode? Package.encode Package.item
  rw [append_required, read_map_none hbefore hnone]
  · rfl
  all_goals
    simp only [required, unlessZero]
    split <;> simp [maxElements]

/-- Every compiled program can be written. It is read back unchanged if the name it was given is a text and the code is
within the limit for arrays, and refused otherwise. -/
theorem decode_compile {source name : Bytes} (h : Chunk.compile source name = .ok c)
    (hsource : 2 * source.length < argumentLimit) (hname : name.length < argumentLimit) :
    ∃ bs, encode c = .ok bs ∧
      decode bs = if isUtf8 name = true ∧ c.code.size ≤ maxElements then .ok c else .error .malformed := by
  obtain ⟨rfl, hpackable, hconstants, hlocals, hcode⟩ := Chunk.compile_fits h
  have hsized : c.Sized := {
    name := hname
    constants := fun v hv => Nat.lt_of_le_of_lt (hconstants v hv) (by omega)
    localNames := fun l hl => Nat.lt_of_le_of_lt (hlocals l hl) (by omega)
    code := Nat.lt_of_le_of_lt hcode hsource }
  by_cases hle : c.code.size ≤ maxElements
  · simpa only [hle, and_true] using decode_packable hpackable hsized hle
  · simpa only [hle, and_false, if_false] using decode_long hpackable hsized (Nat.lt_of_not_le hle)

/-- A program under a name that is a text. -/
theorem decode_compile_print :
    let source := utf8 "local t = {1, x = 2} print(t.x, \"y\", -3)"
    let name := utf8 "ß.lua"
    2 * source.length < argumentLimit ∧ name.length < argumentLimit ∧
      ∃ c bs, Chunk.compile source name = .ok c ∧ encode c = .ok bs ∧ decode bs = .ok c := by
  intro source name
  have hsource : 2 * source.length < argumentLimit := by decide +kernel
  have hname : name.length < argumentLimit := by decide +kernel
  refine ⟨hsource, hname, ?_⟩
  have hok : (Chunk.compile source name).toOption.any (·.code.size ≤ maxElements) = true := by decide +kernel
  cases h : Chunk.compile source name with
  | error f =>
      rw [h] at hok
      cases hok
  | ok c =>
      obtain ⟨bs, hencode, hdecode⟩ := decode_compile h hsource hname
      rw [h] at hok
      have hle : c.code.size ≤ maxElements := of_decide_eq_true hok
      exact ⟨c, bs, rfl, hencode, hdecode.trans (if_pos ⟨by decide +kernel, hle⟩)⟩

/-- A program under a name in another charset is written and then refused. -/
theorem decode_compile_stray :
    let name : Bytes := [0x63, 0x61, 0x66, 0xe9, 0x2e, 0x6c, 0x75, 0x61]
    let c : Chunk := {
      name
      constants := #[.ofBytes (utf8 "print")]
      code := #[{ op := 16 }, { op := 2, a := 1, int := 1 }, { op := 48, b := 1 }] }
    Chunk.compile (utf8 "print(1)") name = .ok c ∧ ∃ bs, encode c = .ok bs ∧ decode bs = .error .malformed := by
  intro name c
  have hcompile : Chunk.compile (utf8 "print(1)") name = .ok c := eq_ok_of_toOption (by decide +kernel)
  have hsized : c.Sized := ⟨by decide +kernel, by decide +kernel, by decide +kernel, by decide +kernel⟩
  have hname : isUtf8 c.name = false := by decide +kernel
  obtain ⟨-, hpackable, -⟩ := Chunk.compile_fits hcompile
  obtain ⟨bs, hencode, hdecode⟩ := decode_packable hpackable hsized (by decide +kernel)
  rw [hname] at hdecode
  exact ⟨hcompile, bs, hencode, hdecode⟩

end MiniLua.Wire

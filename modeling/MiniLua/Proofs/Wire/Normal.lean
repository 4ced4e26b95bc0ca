import MiniLua.Proofs.Cbor.Limits
import MiniLua.Proofs.Text.Utf8
import MiniLua.Proofs.Wire.RoundTrip

/-!
Reading normalises. However a chunk is spelled, what is read can be written again, and what is then written is the one
normal spelling of the chunk.
-/

namespace MiniLua.Wire

open Cbor Text

theorem untag_bounded {i j : Item} (hi : Bounded i) (h : untag i = some j) : Bounded j := by
  fun_induction untag i with
  | case1 => cases h
  | case2 number content =>
      obtain rfl := Option.some.inj h
      exact hi
  | case3 number content _ _ ih =>
      cases hi with
      | tag hcontent => exact ih hcontent h
  | case4 =>
      obtain rfl := Option.some.inj h
      exact hi

variable {α : Type} {i : Item}

theorem bind_untag {next : Item → Option α} {x : α} (hi : Bounded i) (h : (untag i).bind next = some x) :
    ∃ j, Bounded j ∧ next j = some x := by
  obtain ⟨j, huntag, hx⟩ := Option.bind_eq_some_iff.mp h
  exact ⟨j, untag_bounded hi huntag, hx⟩

/-- A text that is read is UTF-8, also if it comes in pieces. -/
theorem text?_some {s : Bytes} (hi : Bounded i) (h : text? i = some s) : isUtf8 s = true ∧ s.length < argumentLimit := by
  obtain ⟨j, hj, h⟩ := bind_untag hi h
  split at h
  · next pieces =>
    cases hj with
    | text hlength =>
        split at h
        · next hpieces =>
          obtain rfl := Option.some.inj h
          exact ⟨isUtf8_flatten (List.all_eq_true.mp hpieces), hlength⟩
        · cases h
  · split at h
    · obtain rfl := Option.some.inj h
      exact ⟨isUtf8_nil, by decide⟩
    · cases h
  · cases h

theorem mapM_some {element : Item → Option α} {is : List Item} {xs : List α} (h : is.mapM element = some xs) :
    xs.length = is.length ∧ ∀ x ∈ xs, ∃ i ∈ is, element i = some x := by
  induction is generalizing xs with
  | nil =>
      obtain rfl := Option.some.inj h
      exact ⟨rfl, List.forall_mem_nil _⟩
  | cons i is ih =>
      rw [List.mapM_cons] at h
      obtain ⟨y, hy, h⟩ := Option.bind_eq_some_iff.mp h
      obtain ⟨ys, hys, h⟩ := Option.bind_eq_some_iff.mp h
      obtain rfl := Option.some.inj h
      obtain ⟨hlength, hmem⟩ := ih hys
      refine ⟨congrArg (· + 1) hlength, List.forall_mem_cons.mpr ⟨⟨i, .head _, hy⟩, fun x hx => ?_⟩⟩
      obtain ⟨j, hj, hx⟩ := hmem x hx
      exact ⟨j, .tail _ hj, hx⟩

theorem list?_some {element : Item → Option α} {P : α → Prop} {xs : List α}
    (helement : ∀ j x, Bounded j → element j = some x → P x) (hi : Bounded i) (h : list? element i = some xs) :
    xs.length ≤ maxElements ∧ ∀ x ∈ xs, P x := by
  obtain ⟨j, hj, h⟩ := bind_untag hi h
  split at h
  · next is =>
    cases hj with
    | array hn his =>
        obtain ⟨hlength, hxs⟩ := mapM_some h
        refine ⟨hlength ▸ hn, fun x hx => ?_⟩
        obtain ⟨j, hj, hjx⟩ := hxs x hx
        exact helement j x (his j hj) hjx
  · split at h
    · obtain rfl := Option.some.inj h
      exact ⟨Nat.zero_le _, List.forall_mem_nil _⟩
    · cases h
  · cases h

theorem bytes?_some {content : Bytes} (hi : Bounded i) (h : bytes? i = some content) :
    content.length < argumentLimit := by
  obtain ⟨j, hj, h⟩ := bind_untag hi h
  split at h
  · obtain rfl := Option.some.inj h
    cases hj with
    | bytes hlength => exact hlength
  · obtain rfl := Option.some.inj h
    cases hj with
    | tag hbytes =>
        cases hbytes with
        | bytes hlength => exact hlength
  · have hnumbers := list?_some (fun _ _ _ _ => trivial) hj h
    exact Nat.lt_of_le_of_lt hnumbers.1 maxElements_lt

theorem pairUp_bounded {is : List Item} {fs : List (Int64 × Item)} (his : ∀ i ∈ is, Bounded i)
    (h : pairUp is = some fs) : ∀ f ∈ fs, Bounded f.2 := by
  fun_induction pairUp is generalizing fs with
  | case1 k v rest ih =>
      obtain ⟨key, -, h⟩ := Option.bind_eq_some_iff.mp h
      obtain ⟨more, hmore, h⟩ := Option.bind_eq_some_iff.mp h
      obtain rfl := Option.some.inj h
      obtain ⟨-, hv, hrest⟩ : Bounded k ∧ Bounded v ∧ ∀ i ∈ rest, Bounded i := by
        simpa only [List.forall_mem_cons] using his
      exact List.forall_mem_cons.mpr ⟨hv, ih hrest hmore⟩
  | case2 =>
      obtain rfl := Option.some.inj h
      exact List.forall_mem_nil _

theorem record?_some {fs : List (Int64 × Item)} (hi : Bounded i) (h : record? i = some fs) (key : Int64) :
    Bounded (fieldOf fs key) := by
  have hfields : ∀ f ∈ fs, Bounded f.2 := by
    obtain ⟨j, hj, h⟩ := bind_untag hi h
    split at h
    · cases hj with
      | map his => exact pairUp_bounded his h
    · split at h
      · obtain rfl := Option.some.inj h
        exact List.forall_mem_nil _
      · cases h
    · cases h
  unfold fieldOf
  cases hlookup : fs.lookup key with
  | none => exact .simple 22
  | some v =>
      obtain ⟨before, behind, rfl, -⟩ := List.lookup_eq_some_iff.mp hlookup
      exact hfields (key, v) (List.mem_append_right before (.head _))

theorem constant?_some {k : PackedConstant} (hi : Bounded i) (h : constant? i = some k) :
    k.bytes.length < argumentLimit := by
  simp only [constant?, Option.bind_eq_bind, Option.bind_eq_some_iff] at h
  obtain ⟨fs, hfs, kind, -, bool, -, int, -, floatBits, -, content, hcontent, h⟩ := h
  obtain rfl := Option.some.inj h
  exact bytes?_some (record?_some hi hfs 5) hcontent

theorem local?_some {l : LocalInfo} (hi : Bounded i) (h : local? i = some l) :
    isUtf8 l.name = true ∧ l.name.length < argumentLimit := by
  simp only [local?, Option.bind_eq_bind, Option.bind_eq_some_iff] at h
  obtain ⟨fs, hfs, name, hname, slot, -, line, -, column, -, h⟩ := h
  obtain rfl := Option.some.inj h
  exact text?_some (record?_some hi hfs 1) hname

/-- A package within the limits of the reader. -/
structure Package.Limited (p : Package) : Prop where
  name : isUtf8 p.name = true ∧ p.name.length < argumentLimit
  constants_le : (p.constants.getD []).length ≤ maxElements
  constants : ∀ k ∈ p.constants.getD [], k.bytes.length < argumentLimit
  code_le : (p.code.getD []).length ≤ maxElements
  locals_le : p.locals.length ≤ maxElements
  locals : ∀ l ∈ p.locals, isUtf8 l.name = true ∧ l.name.length < argumentLimit

theorem Package.limited_of_decode? {bs : Bytes} {p : Package} (hbs : bs.length < argumentLimit)
    (h : Package.decode? bs = some p) : p.Limited := by
  obtain ⟨i, hread, h⟩ := Option.bind_eq_some_iff.mp h
  have hi := read_bounded hread hbs
  simp only [Package.ofItem?, Option.bind_eq_bind, Option.bind_eq_some_iff] at h
  obtain ⟨fs, hfs, version, -, name, hname, ks, hks, code, hcode, ls, hls, h⟩ := h
  obtain rfl := Option.some.inj h
  have hfield := record?_some hi hfs
  obtain ⟨hks_le, hks⟩ := list?_some (fun _ _ => constant?_some) (hfield 3) hks
  obtain ⟨hcode_le, -⟩ := list?_some (fun _ _ _ _ => trivial) (hfield 4) hcode
  obtain ⟨hls_le, hls⟩ := list?_some (fun _ _ => local?_some) (hfield 5) hls
  exact ⟨text?_some (hfield 2) hname, hks_le, hks, hcode_le, hls_le, hls⟩

theorem mapIndexed_ok {β ε : Type} {f : α → Except ε β} {fault : Nat → ε → WireFault} {n : Nat} {xs : List α}
    {ys : List β} (h : mapIndexed f fault n xs = .ok ys) :
    ys.length = xs.length ∧ ∀ y ∈ ys, ∃ x ∈ xs, f x = .ok y := by
  induction xs generalizing n ys with
  | nil =>
      obtain rfl := Except.ok.inj h
      exact ⟨rfl, List.forall_mem_nil _⟩
  | cons x xs ih =>
      rw [mapIndexed] at h
      split at h
      · next y hy =>
        cases hrest : mapIndexed f fault (n + 1) xs with
        | error e =>
            rw [hrest] at h
            cases h
        | ok ys =>
            rw [hrest] at h
            obtain rfl := Except.ok.inj h
            obtain ⟨hlength, hys⟩ := ih hrest
            refine ⟨congrArg (· + 1) hlength, List.forall_mem_cons.mpr ⟨⟨x, .head _, hy⟩, fun z hz => ?_⟩⟩
            obtain ⟨x', hx', hz⟩ := hys z hz
            exact ⟨x', .tail _ hx', hz⟩
      · cases h

/-- Fields that do not belong to the kind of a constant leave no trace. -/
theorem unpackConstant_ok {k : PackedConstant} {v : Value} (h : unpackConstant k = .ok v) :
    v.isPortable = true ∧ v.byteLength ≤ k.bytes.length := by
  unfold unpackConstant at h
  repeat' split at h
  all_goals cases h
  all_goals exact ⟨rfl, by simp [Value.byteLength, Value.ofBytes]⟩

theorem unpack_portable {p : Package} {c : Chunk} (hp : p.Limited) (h : unpack p = .ok c) : c.Portable ∧ c.Sized := by
  unfold unpack at h
  split at h
  · cases h
  · cases hvs : mapIndexed unpackConstant .unknownKind 0 (p.constants.getD []) with
    | error e =>
        rw [hvs] at h
        cases h
    | ok vs =>
        rw [hvs] at h
        obtain rfl := Except.ok.inj h
        obtain ⟨hlength, hconstants⟩ := mapIndexed_ok hvs
        have hvalues : ∀ v ∈ vs, v.isPortable = true ∧ v.byteLength < argumentLimit := fun v hv => by
          obtain ⟨k, hk, hkv⟩ := hconstants v hv
          obtain ⟨hportable, hle⟩ := unpackConstant_ok hkv
          exact ⟨hportable, Nat.lt_of_le_of_lt hle (hp.constants k hk)⟩
        constructor
        · exact {
            constants := fun v hv => (hvalues v (List.mem_toArray.mp hv)).1
            localNames := fun l hl => (hp.locals l (List.mem_toArray.mp hl)).1
            constants_le := Nat.le_trans (Nat.le_of_eq hlength) hp.constants_le
            locals_le := hp.locals_le
            name := hp.name.1
            code_le := hp.code_le }
        · exact {
            name := hp.name.2
            constants := fun v hv => (hvalues v (List.mem_toArray.mp hv)).2
            localNames := fun l hl => (hp.locals l (List.mem_toArray.mp hl)).2
            code := Nat.lt_of_le_of_lt hp.code_le maxElements_lt }

/-- A chunk that is read meets the wire format. -/
theorem portable_of_decode {bs : Bytes} {c : Chunk} (hbs : bs.length < argumentLimit) (h : decode bs = .ok c) :
    c.Portable ∧ c.Sized := by
  unfold decode at h
  split at h
  · next hp => exact unpack_portable (Package.limited_of_decode? hbs hp) h
  · cases h

/-- The spelling of a chunk that writing uses, from any other. -/
def normalize (bs : Bytes) : Except WireFault Bytes := (decode bs).bind encode

/-- Every spelling of a chunk has a normal form. It spells the same chunk, it is its own normal form, and two spellings
have one normal form, and with it one digest, just if they spell one chunk. -/
theorem normalize_decode {bs : Bytes} {c : Chunk} (hbs : bs.length < argumentLimit) (h : decode bs = .ok c) :
    ∃ normal, encode c = .ok normal ∧ decode normal = .ok c ∧ normalize normal = .ok normal ∧
      (∀ bs', decode bs' = .ok c →
        normalize bs' = .ok normal ∧ (decode bs').bind digest = .ok (Sha256.digest normal)) ∧
      (∀ bs', bs'.length < argumentLimit → normalize bs' = .ok normal → decode bs' = .ok c) := by
  obtain ⟨hportable, hsized⟩ := portable_of_decode hbs h
  obtain ⟨normal, hencode, hdecode⟩ := decode_portable hportable hsized
  have hnormal {bs' : Bytes} (h' : decode bs' = .ok c) : normalize bs' = .ok normal := by
    rw [normalize, h']
    exact hencode
  refine ⟨normal, hencode, hdecode, hnormal hdecode, fun bs' h' => ⟨hnormal h', ?_⟩, fun bs' hbs' h' => ?_⟩
  · rw [h']
    change digest c = _
    rw [digest, hencode]
    rfl
  · cases hc' : decode bs' with
    | error e =>
        rw [normalize, hc'] at h'
        cases h'
    | ok c' =>
        obtain ⟨hportable', hsized'⟩ := portable_of_decode hbs' hc'
        obtain ⟨normal', hencode', hdecode'⟩ := decode_portable hportable' hsized'
        rw [normalize, hc'] at h'
        obtain rfl := Except.ok.inj (hencode'.symm.trans h')
        exact hdecode'.symm.trans hdecode

/-- A map of indefinite length with a text for a key, a long head, a tag, a name in pieces, an unknown field, a constant with
fields of other kinds, null for the code and a second name. -/
def devious : Bytes :=
  [0xbf, 0x61, 0x31, 0x18, 0x02, 0x02, 0x7f, 0x61, 0x61, 0x60, 0x61, 0x62, 0xff, 0x18, 0x63, 0x81, 0x80, 0x03, 0xc9, 0x81,
    0xa4, 0x01, 0x02, 0x02, 0xf5, 0x03, 0x38, 0x00, 0x05, 0x41, 0xff, 0x04, 0xf6, 0x02, 0x61, 0x7a, 0xff]

/-- It spells a chunk with the one constant -1. -/
theorem normalize_decode_devious :
    let c : Chunk := ⟨utf8 "ab", #[.int (-1)], #[], #[]⟩
    let normal : Bytes := [0xa4, 1, 2, 2, 0x62, 0x61, 0x62, 3, 0x81, 0xa2, 1, 2, 3, 0x20, 4, 0x80]
    devious.length < argumentLimit ∧ decode devious = .ok c ∧ normalize devious = .ok normal ∧
      normalize normal = .ok normal := by
  intro c normal
  have hlength : devious.length < argumentLimit := by decide
  have hdecode : decode devious = .ok c := eq_ok_of_toOption (by decide +kernel)
  obtain ⟨normal', hencode, -, hnormal, hspellings, -⟩ := normalize_decode hlength hdecode
  have hwritten : encode c = .ok normal := eq_ok_of_toOption (by decide +kernel)
  obtain rfl := Except.ok.inj (hwritten.symm.trans hencode)
  exact ⟨hlength, hdecode, (hspellings devious hdecode).1, hnormal⟩

end MiniLua.Wire

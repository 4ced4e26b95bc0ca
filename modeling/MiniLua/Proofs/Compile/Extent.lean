import MiniLua.Proofs.Compile.Programs
import MiniLua.Proofs.Tree.Extent
import MiniLua.Proofs.Wire.RoundTrip

/-!
How large chunks are. The generator adds at most two instructions for every byte of the source, and the constants and
local names that it adds are no longer than the source. They can all be written on the wire.
-/

namespace MiniLua

open Text

/-- A string is no longer than the limit. -/
def Operand.Fits (limit : Nat) : Operand → Prop
  | .str content => content.length ≤ limit
  | _ => True

/-- A constant can be written and, if it is a string, is no longer than the limit. -/
def Value.Fits (limit : Nat) (v : Value) : Prop := v.isPortable = true ∧ v.byteLength ≤ limit

theorem Value.fits_ofBytes {limit : Nat} {bs : Bytes} (h : bs.length ≤ limit) : (Value.ofBytes bs).Fits limit := by
  refine ⟨rfl, ?_⟩
  simpa only [Value.ofBytes, Value.byteLength, Str.bytes_ofBytes] using h

theorem Operand.Fits.literal? {limit : Nat} {e : Operand} {v : Value} (he : e.Fits limit) (h : e.literal? = some v) :
    v.Fits limit := by
  cases e <;> cases h
  case str.refl => exact Value.fits_ofBytes he
  all_goals exact ⟨rfl, Nat.zero_le _⟩

theorem Chunk.addConstant_cases {c c' : Chunk} {v : Value} {k : Nat} (h : c.addConstant v = some (k, c')) :
    c' = c ∨ c' = { c with constants := c.constants.push v } := by
  unfold addConstant at h
  split at h
  · cases h
    exact .inl rfl
  · split at h
    · cases h
      exact .inr rfl
    · cases h

theorem Chunk.foldl_emit (is : List Instruction) (c : Chunk) :
    is.foldl emit c = { c with code := c.code ++ is.toArray } := by
  induction is generalizing c with
  | nil => simp
  | cons i is ih => simp [ih, emit]

theorem Name.length_le_extent (name : Name) : name.text.length ≤ name.extent := Nat.le_max_right ..

theorem Name.extent_pos (name : Name) : 0 < name.extent := Nat.lt_of_lt_of_le Nat.one_pos (Nat.le_max_left ..)

theorem Literal.extent_pos (l : Literal) : 0 < l.extent := by
  cases l <;> exact Nat.succ_pos _

namespace Gen

/-- A chunk under construction for a source as long as the limit. -/
structure Fits (limit : Nat) (name : Bytes) (g : Gen) : Prop where
  name : g.chunk.name = name
  constants : ∀ v ∈ g.chunk.constants, v.Fits limit
  locals : ∀ l ∈ g.chunk.locals, isUtf8 l.name = true ∧ l.name.length ≤ limit

section

variable (limit : Nat) (name : Bytes)

/-- At most `n` instructions are added, the chunk still fits, and the result has `P`. The number may be negative while no
code can be generated at all. -/
def Adds {α : Type} (n : Int) (P : α → Prop) (x : GenM α) : Prop :=
  ∀ g a g', x.run g = .ok (a, g') → g.Fits limit name →
    g'.Fits limit name ∧ (g'.chunk.code.size : Int) ≤ g.chunk.code.size + n ∧ P a

end

variable {α β : Type} {limit : Nat} {name : Bytes} {m n : Int} {P : α → Prop} {Q : β → Prop}

namespace Adds

theorem pure {a : α} (ha : P a) : Adds limit name 0 P (Pure.pure a : GenM α) := by
  intro g b g' h hg
  obtain ⟨rfl, rfl⟩ := run_pure_ok.mp h
  exact ⟨hg, by omega, ha⟩

theorem bind {x : GenM α} {k : α → GenM β} (hx : Adds limit name n P x) (hk : ∀ a, P a → Adds limit name m Q (k a)) :
    Adds limit name (n + m) Q (x >>= k) := by
  intro g b g' h hg
  obtain ⟨a, g₁, h₁, h₂⟩ := run_bind_ok h
  obtain ⟨hg₁, hsize₁, ha⟩ := hx g a g₁ h₁ hg
  obtain ⟨hg₂, hsize₂, hb⟩ := hk a ha g₁ b g' h₂ hg₁
  exact ⟨hg₂, by omega, hb⟩

theorem mono {x : GenM α} (h : Adds limit name n P x) (hn : n ≤ m) : Adds limit name m P x := by
  intro g a g' hrun hg
  obtain ⟨hg', hsize, ha⟩ := h g a g' hrun hg
  exact ⟨hg', by omega, ha⟩

theorem get_bind {k : Gen → GenM α} (hk : ∀ g, Adds limit name n P (k g)) : Adds limit name n P (get >>= k) :=
  fun g a g' h hg => hk g g a g' h hg

theorem throw (f : SourceFault) : Adds limit name n P (MonadExcept.throw f : GenM α) :=
  fun _ _ _ h => absurd h run_throw_ok

/-- Only the top is moved. -/
theorem of_chunk_eq {u : Gen → Gen} (h : ∀ g, (u g).chunk = g.chunk) :
    Adds limit name 0 (fun _ => True) (modify u : GenM PUnit) := by
  intro g a g' hrun hg
  obtain rfl := run_modify_ok.mp hrun
  refine ⟨⟨?_, ?_, ?_⟩, ?_, trivial⟩
  all_goals rw [h]
  · exact hg.name
  · exact hg.constants
  · exact hg.locals
  · omega

end Adds

theorem emit_adds (op : Opcode) (a b c : UInt8) : Adds limit name 1 (fun _ => True) (emit op a b c) := by
  intro g u g' h hg
  obtain rfl := run_modify_ok.mp h
  refine ⟨⟨hg.name, hg.constants, hg.locals⟩, ?_, trivial⟩
  simp [Chunk.emit]

theorem Fits.addConstant {g : Gen} {v : Value} {k : Nat} {c : Chunk} (hg : g.Fits limit name) (hv : v.Fits limit)
    (h : g.chunk.addConstant v = some (k, c)) : Fits limit name { g with chunk := c } ∧ c.code = g.chunk.code := by
  rcases Chunk.addConstant_cases h with rfl | rfl
  · exact ⟨⟨hg.name, hg.constants, hg.locals⟩, rfl⟩
  · refine ⟨⟨hg.name, fun w hw => ?_, hg.locals⟩, rfl⟩
    rcases Array.mem_push.mp hw with hw | rfl
    · exact hg.constants w hw
    · exact hv

theorem constant_adds {v : Value} (hv : v.Fits limit) (pos : Position) :
    Adds limit name 0 (fun _ => True) (constant v pos) := by
  intro g k g' h hg
  obtain ⟨c, hc, rfl⟩ := constant_ok h
  obtain ⟨hfits, hcode⟩ := hg.addConstant hv hc
  exact ⟨hfits, by simp [hcode], trivial⟩

theorem allocate_adds (pos : Position) : Adds limit name 0 (fun _ => True) (allocate pos) := by
  intro g n g' h hg
  obtain ⟨-, -, rfl⟩ := allocate_ok h
  exact ⟨⟨hg.name, hg.constants, hg.locals⟩, by simp, trivial⟩

theorem plan_fits {g : Gen} {e : Operand} {dst : UInt8} {code : List Instruction} {c : Chunk} (hg : g.Fits limit name)
    (he : e.Fits limit) (h : e.plan dst g.chunk = .ok (code, c)) :
    Fits limit name { g with chunk := c } ∧ c.code = g.chunk.code ∧ code.length ≤ 1 := by
  have hload {v : Value} (hv : v.Fits limit) (h : Operand.loadConstant v dst g.chunk = .ok (code, c)) :
      Fits limit name { g with chunk := c } ∧ c.code = g.chunk.code ∧ code.length ≤ 1 := by
    unfold Operand.loadConstant at h
    split at h
    · next hc =>
      cases h
      exact ⟨(hg.addConstant hv hc).1, (hg.addConstant hv hc).2, Nat.le_refl _⟩
    · cases h
  cases e with
  | float x => exact hload ⟨rfl, Nat.zero_le _⟩ h
  | str content => exact hload (Value.fits_ofBytes he) h
  | slot s =>
      simp only [Operand.plan] at h
      split at h <;> cases h <;> exact ⟨hg, rfl, by simp⟩
  | other code s key => cases h
  | nil | bool | int | global | index | field | element =>
      cases h
      exact ⟨hg, rfl, Nat.le_refl _⟩

theorem discharge_adds {e : Operand} (he : e.Fits limit) (dst : Nat) (pos : Position) :
    Adds limit name 1 (fun _ => True) (discharge e dst pos) := by
  intro g u g' h hg
  obtain ⟨code, c, hplan, rfl⟩ := discharge_ok h
  obtain ⟨hfits, hcode, hlength⟩ := plan_fits hg he hplan
  rw [Chunk.foldl_emit]
  refine ⟨⟨hfits.name, hfits.constants, hfits.locals⟩, ?_, trivial⟩
  simp only [hcode, Array.size_append, List.size_toArray]
  omega

theorem releaseOperand_adds (e : Operand) : Adds limit name 0 (fun _ => True) (releaseOperand e) := by
  have hrelease (slot : Int) : Adds limit name 0 (fun _ => True) (release slot) := by
    refine .of_chunk_eq fun g => ?_
    split <;> rfl
  cases e with
  | slot | field | element => exact hrelease _
  | index => exact .bind (hrelease _) fun _ _ => hrelease _
  | _ => exact .pure trivial

theorem dischargeNext_adds {e : Operand} (he : e.Fits limit) (pos : Position) :
    Adds limit name 1 (fun _ => True) (dischargeNext e pos) :=
  .bind (releaseOperand_adds e) fun _ _ => .bind (allocate_adds pos) fun dst _ =>
    .bind (discharge_adds he dst pos) fun _ _ => .pure trivial

theorem dischargeTop_adds {e : Operand} (he : e.Fits limit) (pos : Position) :
    Adds limit name 1 (fun _ => True) (dischargeTop e pos) := by
  unfold dischargeTop
  split
  · exact .mono (.pure trivial) (by omega)
  · exact .bind (dischargeNext_adds he pos) fun _ _ => .pure trivial

theorem constantOrSlot_adds {e : Operand} (he : e.Fits limit) (pos : Position) :
    Adds limit name 1 (fun _ => True) (constantOrSlot e pos) := by
  unfold constantOrSlot
  split
  · next v hv =>
    exact .mono (.bind (constant_adds (he.literal? hv) pos) fun _ _ => .pure trivial) (by omega)
  · exact .bind (dischargeTop_adds he pos) fun _ _ => .pure trivial

theorem resolve_adds {n : Name} (hn : n.extent ≤ limit) :
    Adds limit name 0 (Operand.Fits limit) (resolve n) := by
  refine .get_bind fun g => ?_
  split
  · exact .pure trivial
  · have hvalue := Value.fits_ofBytes (Nat.le_trans n.length_le_extent hn)
    exact .bind (constant_adds hvalue n.pos) fun _ _ => .pure trivial

theorem indexBy_adds (slot : Int) {key : Operand} (hkey : key.Fits limit) (pos : Position) :
    Adds limit name 1 (Operand.Fits limit) (indexBy slot key pos) := by
  have hindex : Adds limit name 1 (Operand.Fits limit) (return .index slot (← dischargeTop key pos) : GenM Operand) :=
    .bind (dischargeTop_adds hkey pos) fun _ _ => .pure trivial
  unfold indexBy
  split
  · exact .mono (.bind (constant_adds (Value.fits_ofBytes hkey) pos) fun _ _ => .pure trivial) (by omega)
  · split
    · exact .mono (.pure trivial) (by omega)
    · exact hindex
  · exact hindex

theorem store_adds (target : Operand) (value : UInt8) (isConst : Bool) :
    Adds limit name 1 (fun _ => True) (store target value isConst) := by
  cases target with
  | field | element | index => exact emit_adds _ _ _ _
  | _ => exact .mono (.pure trivial) (by omega)

theorem checkKey_adds (key : Operand) (pos : Position) : Adds limit name 0 (fun _ => True) (checkKey key pos) := by
  unfold checkKey
  split
  · exact .throw _
  · split
    · exact .throw _
    · exact .pure trivial
  · exact .pure trivial

theorem setTop_adds (top : Nat) : Adds limit name 0 (fun _ => True) (setTop top) := .of_chunk_eq fun _ => rfl

theorem localCount_adds : Adds limit name 0 (fun _ => True) localCount := .get_bind fun _ => .pure trivial

theorem storeEntry_adds {value : GenM Operand} (table : Nat) {key : Operand} (hkey : key.Fits limit)
    (entry assign : Position) (hvalue : Adds limit name n (Operand.Fits limit) value) (last : Position) (base : Nat) :
    Adds limit name (n + 3) (fun _ => True) (storeEntry table key entry assign value last base) := by
  refine .mono (.bind (checkKey_adds key entry) fun _ _ => .bind (indexBy_adds table hkey assign) fun target _ =>
    .bind hvalue fun op hop => .bind (constantOrSlot_adds hop last) fun p _ => .bind (store_adds target p.1 p.2)
      fun _ _ => setTop_adds base) ?_
  omega

theorem flush_adds (table pending : Nat) : Adds limit name 1 (fun _ => True) (flush table pending) :=
  .bind (emit_adds _ _ _ _) fun _ _ => setTop_adds _

theorem patch_adds (at_ : Nat) (t : Tally) : Adds limit name 0 (fun _ => True) (patch at_ t) := by
  intro g u g' h hg
  obtain rfl := run_modify_ok.mp h
  exact ⟨⟨hg.name, hg.constants, hg.locals⟩, by simp, trivial⟩

theorem ofLiteral_fits {l : Literal} (h : l.extent ≤ limit) : (ofLiteral l).Fits limit := by
  cases l with
  | str content => exact Nat.le_trans (Nat.le_succ _) h
  | nil | bool | int | float => trivial

theorem negate_fits {e : Operand} (h : e.Fits limit) : (negate e).Fits limit := by
  cases e with
  | int | float => trivial
  | _ => exact h

theorem close_adds (table start : Nat) (tally : Tally) :
    Adds limit name 1 (Operand.Fits limit) (do
      if 0 < tally.pending then flush table tally.pending
      patch start tally
      return .slot table : GenM Operand) := by
  have hpatch : Adds limit name 0 (Operand.Fits limit) (do
      patch start tally
      return .slot table : GenM Operand) := .bind (patch_adds start tally) fun _ _ => .pure trivial
  by_cases hp : 0 < tally.pending
  · simp only [if_pos hp]
    exact .bind (flush_adds table tally.pending) fun _ _ => hpatch
  · simp only [if_neg hp]
    exact hpatch.mono (by omega)

mutual

/-- Two instructions are left over to place the operand and to end a group of entries with it. -/
theorem expression_adds {e : Exp} (he : e.extent ≤ limit) :
    Adds limit name (2 * e.extent - 2) (Operand.Fits limit) (expression e) := by
  cases e with
  | literal l pos =>
      have hpos := l.extent_pos
      simp only [Exp.extent] at he ⊢
      exact .mono (.pure (ofLiteral_fits he)) (by omega)
  | table opened fs =>
      simp only [Exp.extent] at he ⊢
      refine .mono (.bind (allocate_adds opened) fun table _ => .get_bind fun g => .bind (emit_adds _ _ _ _) fun _ _ =>
        .bind (fields_adds (show fs.extent ≤ limit by omega) table {}) fun tally _ => close_adds table _ tally) ?_
      omega
  | minus pos operand =>
      simp only [Exp.extent] at he ⊢
      refine .mono (.bind (expression_adds (e := operand) (by omega)) fun op hop => .pure (negate_fits hop)) ?_
      omega
  | var n =>
      have hpos := n.extent_pos
      simp only [Exp.extent] at he ⊢
      exact .mono (resolve_adds he) (by omega)
  | paren inner closed =>
      simp only [Exp.extent] at he ⊢
      exact .mono (expression_adds (e := inner) (by omega)) (by omega)
  | field base dot n =>
      simp only [Exp.extent] at he ⊢
      have hvalue := Value.fits_ofBytes (Nat.le_trans n.length_le_extent (show n.extent ≤ limit by omega))
      refine .mono (.bind (expression_adds (e := base) (by omega)) fun op hop => .bind (dischargeTop_adds hop dot)
        fun slot _ => .bind (constant_adds hvalue n.pos) fun _ _ => .pure trivial) ?_
      omega
  | index base opened key closed =>
      simp only [Exp.extent] at he ⊢
      refine .mono (.bind (expression_adds (e := base) (by omega)) fun op hop => .bind (dischargeTop_adds hop opened)
        fun slot _ => .bind (expression_adds (e := key) (by omega)) fun k hk => indexBy_adds slot hk key.last) ?_
      omega
  | fault f => exact .throw f
  | faultAfter e f =>
      simp only [Exp.extent] at he ⊢
      exact .mono (.bind (expression_adds he) fun _ _ => .throw (n := 0) f) (by omega)

theorem fields_adds {fs : Fields} (hfs : fs.extent ≤ limit) (table : Nat) (tally : Tally) :
    Adds limit name (2 * fs.extent - 2) (fun _ => True) (fields table tally fs) := by
  cases fs with
  | done closed => exact .pure trivial
  | stop e =>
      simp only [Fields.extent] at hfs ⊢
      exact .mono (.bind (expression_adds hfs) fun _ _ => .pure trivial) (by omega)
  | positional e rest =>
      simp only [Fields.extent] at hfs ⊢
      have hrest (tally : Tally) : Adds limit name (2 * rest.extent - 2) (fun _ => True) (fields table tally rest) :=
        fields_adds (by omega) table tally
      have hgroup : Adds limit name (2 * rest.extent - 1) (fun _ => True) (if tally.addPositional.pending = groupSize then
          flush table tally.addPositional.pending >>= fun _ => fields table { tally.addPositional with pending := 0 } rest
          else fields table tally.addPositional rest) := by
        split
        · exact .mono (.bind (flush_adds table _) fun _ _ => hrest _) (by omega)
        · exact (hrest _).mono (by omega)
      refine .mono (.bind (expression_adds (e := e) (by omega)) fun op hop => .bind (dischargeNext_adds hop e.last)
        fun _ _ => hgroup) ?_
      omega
  | named n assign value rest =>
      simp only [Fields.extent] at hfs ⊢
      have hkey : (Operand.str n.text).Fits limit :=
        Nat.le_trans n.length_le_extent (show n.extent ≤ limit by omega)
      have hpos := n.extent_pos
      refine .mono (.get_bind fun g => .bind (storeEntry_adds table hkey n.pos assign
        (expression_adds (e := value) (by omega)) value.last g.top) fun _ _ => fields_adds (by omega) table _) ?_
      omega
  | keyed opened key assign value rest =>
      simp only [Fields.extent] at hfs ⊢
      refine .mono (.get_bind fun g => .bind (expression_adds (e := key) (by omega)) fun k hk =>
        .bind (storeEntry_adds table hk opened assign (expression_adds (e := value) (by omega)) value.last g.top)
          fun _ _ => fields_adds (by omega) table _) ?_
      omega

end

theorem assign_adds (target : Operand) {e : Operand} (he : e.Fits limit) (pos : Position) :
    Adds limit name 2 (fun _ => True) (assign target e pos) := by
  unfold assign
  split
  · exact .mono (discharge_adds he _ pos) (by omega)
  · unfold assignGlobal
    split
    · exact .mono (emit_adds _ _ _ _) (by omega)
    · exact .bind (constantOrSlot_adds he pos) fun _ _ => emit_adds _ _ _ _
  · exact .bind (constantOrSlot_adds he pos) fun _ _ => store_adds target _ _

theorem arguments_adds {es : List Exp} (hes : Exp.extents es ≤ limit) :
    Adds limit name (2 * Exp.extents es) (fun _ => True) (arguments es) := by
  induction es with
  | nil => exact .pure trivial
  | cons e es ih =>
      simp only [Exp.extents] at hes ⊢
      refine .mono (.bind (expression_adds (e := e) (by omega)) fun op hop => .bind (dischargeNext_adds hop e.last)
        fun _ _ => ih (by omega)) ?_
      omega

theorem declare_adds {n : Name} {init : Option Exp} (hs : (Stat.declare n init).extent ≤ limit)
    (htext : isUtf8 n.text = true) :
    Adds limit name (2 * (Stat.declare n init).extent) (fun _ => True) (declare n init) := by
  intro g u g' h hg
  obtain ⟨-, g₁, rfl, hinit⟩ := declare_ok h
  have hfits : g₁.Fits limit name ∧ (g₁.chunk.code.size : Int) ≤ g.chunk.code.size + 2 * (Stat.declare n init).extent ∧
      n.extent ≤ limit := by
    cases init with
    | none =>
        obtain ⟨hg₁, hsize, -⟩ := emit_adds _ _ _ _ g () g₁ hinit hg
        simp only [Stat.extent] at hs ⊢
        exact ⟨hg₁, by omega, by omega⟩
    | some e =>
        simp only [Stat.extent] at hs ⊢
        obtain ⟨op, g₂, hexp, hdis⟩ := hinit
        obtain ⟨hg₂, hsize₂, hop⟩ := expression_adds (e := e) (by omega) g op g₂ hexp hg
        obtain ⟨hg₁, hsize₁, -⟩ := discharge_adds hop _ _ g₂ () g₁ hdis hg₂
        exact ⟨hg₁, by omega, by omega⟩
  obtain ⟨hg₁, hsize, hextent⟩ := hfits
  refine ⟨⟨hg₁.name, hg₁.constants, fun l hl => ?_⟩, hsize, trivial⟩
  rcases Array.mem_push.mp hl with hl | rfl
  · exact hg₁.locals l hl
  · exact ⟨htext, Nat.le_trans n.length_le_extent hextent⟩

theorem statement_adds {s : Stat} (hs : s.extent ≤ limit) (htext : s.IsText) :
    Adds limit name (2 * s.extent) (fun _ => True) (statement s) := by
  cases s with
  | declare n init => exact declare_adds hs htext
  | assign target value =>
      simp only [Stat.extent] at hs ⊢
      refine .mono (.bind (expression_adds (e := target) (by omega)) fun t _ =>
        .bind (expression_adds (e := value) (by omega)) fun op hop => assign_adds t hop value.last) ?_
      omega
  | call callee args stop =>
      simp only [Stat.extent] at hs ⊢
      have hcall {end_ : Nat → GenM Unit} (hend : ∀ fn, Adds limit name 1 (fun _ => True) (end_ fn)) :
          Adds limit name (2 * ↑(callee.extent + Exp.extents args)) (fun _ => True) (do
            let fn ← dischargeNext (← expression callee) callee.last
            arguments args
            end_ fn) := by
        refine .mono (.bind (expression_adds (e := callee) (by omega)) fun op hop => .bind
          (dischargeNext_adds hop callee.last) fun fn _ => .bind (arguments_adds (show Exp.extents args ≤ limit by omega))
            fun _ _ => hend fn) ?_
        omega
      cases stop with
      | some f => exact hcall fun _ => .throw f
      | none => exact hcall fun _ => emit_adds _ _ _ _
  | construct e | stop e =>
      simp only [Stat.extent] at hs ⊢
      exact .mono (.bind (expression_adds hs) fun _ _ => .pure trivial) (by omega)

/-- The code of a program has at most two instructions for every byte of the source. -/
theorem block_adds {b : Block} (hb : b.extent ≤ limit) (htext : ∀ s ∈ b, s.IsText) :
    Adds limit name (2 * b.extent) (fun _ => True) (block b) := by
  induction b with
  | nil => exact .pure trivial
  | cons s b ih =>
      obtain ⟨hs, htext⟩ := List.forall_mem_cons.mp htext
      simp only [Block.extent] at hb ⊢
      refine .mono (.bind (statement_adds (s := s) (by omega) hs) fun _ _ => .bind localCount_adds
        fun _ _ => .bind (setTop_adds _) fun _ _ => ih (by omega) htext) ?_
      omega

end Gen

/-- A compiled chunk can be written, and its code and strings are bounded by the source. -/
theorem Chunk.compile_fits {source name : Bytes} {c : Chunk} (h : Chunk.compile source name = .ok c) :
    c.name = name ∧ c.Packable ∧ (∀ v ∈ c.constants, v.byteLength ≤ source.length) ∧
      (∀ l ∈ c.locals, l.name.length ≤ source.length) ∧ c.code.size ≤ 2 * source.length := by
  obtain ⟨hwhole, g, hrun, rfl⟩ := Chunk.compile_ok h
  obtain ⟨hextents, htexts⟩ := Scanner.tokens_extent (s := .ofSource source none) rfl
  obtain ⟨hextent, htext⟩ := Parser.block_extent (Gen.not_broken_of_block hrun) (List.forall_mem_map.mpr htexts)
  have hle : Block.extent (Block.ofTokens (Scanner.ofSource source none).tokens.1) ≤ source.length :=
    Nat.le_trans hextent hextents
  have hstart : Gen.Fits source.length name { chunk := { name }, top := 0 } := 
    ⟨rfl, fun v hv => absurd hv (Array.not_mem_empty v), fun l hl => absurd hl (Array.not_mem_empty l)⟩
  obtain ⟨hfits, hsize, -⟩ := Gen.block_adds hle htext _ _ _ hrun hstart
  obtain ⟨is, hfollows, -⟩ := Gen.block_yields hwhole (Gen.clear_start name) hrun
  have hconstants := hfollows.clear.constants_le
  have hlocals := Nat.le_trans hfollows.clear.locals_le_top hfollows.clear.top_le
  refine ⟨hfits.name, ⟨fun v hv => (hfits.constants v hv).1, fun l hl => (hfits.locals l hl).1, ?_, ?_⟩,
    fun v hv => (hfits.constants v hv).2, fun l hl => (hfits.locals l hl).2, ?_⟩
  · exact Nat.le_trans hconstants (by decide)
  · exact Nat.le_trans hlocals (by decide)
  · simp only [List.size_toArray, List.length_nil] at hsize
    omega

end MiniLua

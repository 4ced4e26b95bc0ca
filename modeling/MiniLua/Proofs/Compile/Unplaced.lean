import MiniLua.Compile.Generate
import MiniLua.Proofs.Tree.Unplaced

/-!
Code without places. The generator keeps the places of tokens for faults and for local variables and does not look at
them: a tree without its places gives the same code, or a fault of the same cause.
-/

namespace MiniLua

mutual

theorem Exp.last_unplaced (e : Exp) : e.unplaced.last = .start := by
  cases e with
  | table _ fs => exact fs.last_unplaced
  | minus _ operand => exact operand.last_unplaced
  | _ => rfl

theorem Fields.last_unplaced (fs : Fields) : fs.unplaced.last = .start := by
  cases fs with
  | done => rfl
  | stop e => exact e.last_unplaced
  | positional _ rest | named _ _ _ rest | keyed _ _ _ _ rest => exact rest.last_unplaced

end

def LocalInfo.unplaced (l : LocalInfo) : LocalInfo :=
  ⟨l.name, l.slot, .ofNat Position.start.line, .ofNat Position.start.column⟩

namespace Chunk

def unplaced (c : Chunk) : Chunk := { c with locals := c.locals.map LocalInfo.unplaced }

theorem addConstant_unplaced (c : Chunk) (v : Value) :
    c.unplaced.addConstant v = (c.addConstant v).map fun p => (p.1, p.2.unplaced) := by
  have hconstants : c.unplaced.constants = c.constants := rfl
  rw [addConstant, addConstant, hconstants]
  split
  · rfl
  · split <;> rfl

theorem foldl_emit_unplaced (code : List Instruction) (c : Chunk) :
    code.foldl emit c.unplaced = (code.foldl emit c).unplaced := by
  induction code generalizing c with
  | nil => rfl
  | cons i code ih => exact ih (c.emit i)

end Chunk

theorem Operand.plan_unplaced (e : Operand) (dst : UInt8) (c : Chunk) :
    e.plan dst c.unplaced = (e.plan dst c).map fun p => (p.1, p.2.unplaced) := by
  have hload (v : Value) : loadConstant v dst c.unplaced = (loadConstant v dst c).map fun p => (p.1, p.2.unplaced) := by
    rw [loadConstant, loadConstant, Chunk.addConstant_unplaced]
    cases c.addConstant v <;> rfl
  cases e with
  | float | str => exact hload _
  | slot s =>
      simp only [plan]
      split <;> rfl
  | _ => rfl

namespace Gen

def unplaced (g : Gen) : Gen := { g with chunk := g.chunk.unplaced }

variable {α β : Type}

/-- Without places, `y` does what `x` does. -/
def Mirrors (x y : GenM α) : Prop :=
  ∀ g : Gen, y.run g.unplaced = unplacedResult (fun p => (p.1, p.2.unplaced)) (x.run g)

namespace Mirrors

theorem pure (a : α) : Mirrors (Pure.pure a) (Pure.pure a : GenM α) := fun _ => rfl

theorem bind {x y : GenM α} {k k' : α → GenM β} (hx : Mirrors x y) (hk : ∀ a, Mirrors (k a) (k' a)) :
    Mirrors (x >>= k) (y >>= k') := by
  intro g
  change (y.run g.unplaced >>= fun p => (k' p.1).run p.2) = unplacedResult _ (x.run g >>= fun p => (k p.1).run p.2)
  rw [hx g]
  cases x.run g with
  | error f => rfl
  | ok p => exact hk p.1 p.2

theorem get_bind {k k' : Gen → GenM α} (hk : ∀ g, Mirrors (k g) (k' g.unplaced)) :
    Mirrors (get >>= k) (get >>= k') :=
  fun g => hk g g

theorem modify {u u' : Gen → Gen} (hu : ∀ g : Gen, u' g.unplaced = (u g).unplaced) :
    Mirrors (modify u) (modify u' : GenM Unit) :=
  fun g => congrArg (fun g' => Except.ok ((), g')) (hu g)

theorem set (g : Gen) : Mirrors (MonadStateOf.set g) (MonadStateOf.set g.unplaced : GenM Unit) := fun _ => rfl

theorem throw (f : SourceFault) : Mirrors (throw f) (throw f.unplaced : GenM α) := fun _ => rfl

theorem fail (cause : Cause) (pos : Position) : Mirrors (fail cause pos) (fail cause .start : GenM α) := throw _

end Mirrors

theorem emit_mirrors (op : Opcode) (a b c : UInt8) : Mirrors (emit op a b c) (emit op a b c) := .modify fun _ => rfl

theorem setTop_mirrors (n : Nat) : Mirrors (setTop n) (setTop n) := .modify fun _ => rfl

theorem localCount_mirrors : Mirrors localCount localCount := by
  refine .get_bind fun g => ?_
  have hsize : g.unplaced.chunk.locals.size = g.chunk.locals.size := Array.size_map
  rw [hsize]
  exact .pure _

theorem constant_mirrors (v : Value) (pos : Position) : Mirrors (constant v pos) (constant v .start) := by
  refine .get_bind fun g => ?_
  have hadd : g.unplaced.chunk.addConstant v = _ := Chunk.addConstant_unplaced g.chunk v
  rw [hadd]
  cases g.chunk.addConstant v with
  | none => exact .fail _ pos
  | some p => exact .bind (.set { g with chunk := p.2 }) fun _ => .pure p.1

theorem allocate_mirrors (pos : Position) : Mirrors (allocate pos) (allocate .start) := by
  refine .get_bind fun g => ?_
  have htop : g.unplaced.top = g.top := rfl
  rw [htop]
  split
  · exact .bind (.set { g with top := g.top + 1 }) fun _ => .pure g.top
  · exact .fail _ pos

theorem release_mirrors (slot : Int) : Mirrors (release slot) (release slot) := by
  refine .modify fun g => ?_
  have hsize : g.unplaced.chunk.locals.size = g.chunk.locals.size := Array.size_map
  have htop : g.unplaced.top = g.top := rfl
  rw [hsize, htop]
  split <;> rfl

theorem releaseOperand_mirrors (e : Operand) : Mirrors (releaseOperand e) (releaseOperand e) := by
  cases e with
  | slot | field | element => exact release_mirrors _
  | index s key => exact .bind (release_mirrors key) fun _ => release_mirrors s
  | _ => exact .pure _

theorem discharge_mirrors (e : Operand) (dst : Nat) (pos : Position) :
    Mirrors (discharge e dst pos) (discharge e dst .start) := by
  refine .get_bind fun g => ?_
  have hplan : e.plan dst.toUInt8 g.unplaced.chunk = _ := e.plan_unplaced dst.toUInt8 g.chunk
  rw [hplan]
  cases e.plan dst.toUInt8 g.chunk with
  | error f => exact .fail _ pos
  | ok p =>
      simp only [Except.map, Chunk.foldl_emit_unplaced]
      exact .set { g with chunk := p.1.foldl Chunk.emit p.2 }

theorem dischargeNext_mirrors (e : Operand) (pos : Position) : Mirrors (dischargeNext e pos) (dischargeNext e .start) :=
  .bind (releaseOperand_mirrors e) fun _ => .bind (allocate_mirrors pos) fun dst =>
    .bind (discharge_mirrors e dst pos) fun _ => .pure dst

theorem dischargeTop_mirrors (e : Operand) (pos : Position) : Mirrors (dischargeTop e pos) (dischargeTop e .start) := by
  unfold dischargeTop
  split
  · exact .pure _
  · exact .bind (dischargeNext_mirrors e pos) fun _ => .pure _

theorem constantOrSlot_mirrors (e : Operand) (pos : Position) :
    Mirrors (constantOrSlot e pos) (constantOrSlot e .start) := by
  unfold constantOrSlot
  split
  · exact .bind (constant_mirrors _ pos) fun _ => .pure _
  · exact .bind (dischargeTop_mirrors e pos) fun _ => .pure _

theorem resolve_mirrors (name : Name) : Mirrors (resolve name) (resolve name.unplaced) := by
  refine .get_bind fun g => ?_
  have hfind : g.unplaced.chunk.locals.toList.reverse.find? (·.name == name.text) =
      (g.chunk.locals.toList.reverse.find? (·.name == name.text)).map LocalInfo.unplaced := by
    simp only [unplaced, Chunk.unplaced, Array.toList_map, ← List.map_reverse, List.find?_map]
    rfl
  have hname : name.unplaced.text = name.text := rfl
  rw [hname, hfind]
  cases g.chunk.locals.toList.reverse.find? (·.name == name.text) with
  | none => exact .bind (constant_mirrors _ name.pos) fun _ => .pure _
  | some l => exact .pure _

theorem indexBy_mirrors (slot : Int) (key : Operand) (pos : Position) :
    Mirrors (indexBy slot key pos) (indexBy slot key .start) := by
  have hindex (key : Operand) : Mirrors (return .index slot (← dischargeTop key pos) : GenM Operand)
      (return .index slot (← dischargeTop key .start)) :=
    .bind (dischargeTop_mirrors key pos) fun _ => .pure _
  unfold indexBy
  split
  · exact .bind (constant_mirrors _ pos) fun _ => .pure _
  · split
    · exact .pure _
    · exact hindex _
  · exact hindex key

theorem store_mirrors (target : Operand) (value : UInt8) (isConst : Bool) :
    Mirrors (store target value isConst) (store target value isConst) := by
  cases target with
  | field | element | index => exact emit_mirrors _ _ _ _
  | _ => exact .pure _

theorem checkKey_mirrors (key : Operand) (pos : Position) : Mirrors (checkKey key pos) (checkKey key .start) := by
  unfold checkKey
  split
  · exact .fail _ pos
  · split
    · exact .fail _ pos
    · exact .pure _
  · exact .pure _

theorem storeEntry_mirrors {value value' : GenM Operand} (table : Nat) (key : Operand) (entry assign : Position)
    (hvalue : Mirrors value value') (last : Position) (base : Nat) :
    Mirrors (storeEntry table key entry assign value last base) (storeEntry table key .start .start value' .start base) :=
  .bind (checkKey_mirrors key entry) fun _ => .bind (indexBy_mirrors _ key assign) fun target => .bind hvalue fun op =>
    .bind (constantOrSlot_mirrors op last) fun _ => .bind (store_mirrors target _ _) fun _ => setTop_mirrors base

theorem flush_mirrors (table pending : Nat) : Mirrors (flush table pending) (flush table pending) :=
  .bind (emit_mirrors _ _ _ _) fun _ => setTop_mirrors _

theorem patch_mirrors (start : Nat) (tally : Tally) : Mirrors (patch start tally) (patch start tally) :=
  .modify fun _ => rfl

mutual

theorem expression_mirrors (e : Exp) : Mirrors (expression e) (expression e.unplaced) := by
  cases e with
  | literal l pos => exact .pure _
  | table opened fs =>
      refine .bind (allocate_mirrors opened) fun table => .get_bind fun g => .bind (emit_mirrors _ _ _ _) fun _ => ?_
      refine .bind (fields_mirrors fs table {}) fun tally => ?_
      by_cases hp : 0 < tally.pending
      · simp only [if_pos hp]
        exact .bind (flush_mirrors table _) fun _ => .bind (patch_mirrors _ tally) fun _ => .pure _
      · simp only [if_neg hp]
        exact .bind (patch_mirrors _ tally) fun _ => .pure _
  | minus pos operand => exact .bind (expression_mirrors operand) fun _ => .pure _
  | var name => exact resolve_mirrors name
  | paren inner closed => exact expression_mirrors inner
  | field base dot name =>
      exact .bind (expression_mirrors base) fun op => .bind (dischargeTop_mirrors op dot) fun _ =>
        .bind (constant_mirrors _ name.pos) fun _ => .pure _
  | index base opened key closed =>
      refine .bind (expression_mirrors base) fun op => .bind (dischargeTop_mirrors op opened) fun slot => ?_
      rw [key.last_unplaced]
      exact .bind (expression_mirrors key) fun k => indexBy_mirrors slot k key.last
  | fault f => exact .throw f
  | faultAfter e f => exact .bind (expression_mirrors e) fun _ => .throw f

theorem fields_mirrors (fs : Fields) (table : Nat) (tally : Tally) :
    Mirrors (fields table tally fs) (fields table tally fs.unplaced) := by
  cases fs with
  | done closed => exact .pure _
  | stop e => exact .bind (expression_mirrors e) fun _ => .pure _
  | positional e rest =>
      refine .bind (expression_mirrors e) fun op => ?_
      rw [e.last_unplaced]
      refine .bind (dischargeNext_mirrors op e.last) fun _ => ?_
      dsimp only
      split
      · exact .bind (flush_mirrors table _) fun _ => fields_mirrors rest table _
      · exact fields_mirrors rest table _
  | named name assign value rest =>
      refine .get_bind fun g => .bind ?_ fun _ => fields_mirrors rest table _
      rw [value.last_unplaced]
      exact storeEntry_mirrors table _ name.pos assign (expression_mirrors value) value.last g.top
  | keyed opened key assign value rest =>
      refine .get_bind fun g => .bind (expression_mirrors key) fun k => .bind ?_ fun _ => fields_mirrors rest table _
      rw [value.last_unplaced]
      exact storeEntry_mirrors table k opened assign (expression_mirrors value) value.last g.top

end

theorem assign_mirrors (target e : Operand) (pos : Position) : Mirrors (assign target e pos) (assign target e .start) := by
  unfold assign
  split
  · exact discharge_mirrors e _ pos
  · unfold assignGlobal
    split
    · exact emit_mirrors _ _ _ _
    · exact .bind (constantOrSlot_mirrors e pos) fun _ => emit_mirrors _ _ _ _
  · exact .bind (constantOrSlot_mirrors e pos) fun _ => store_mirrors target _ _

theorem declare_mirrors (name : Name) (init : Option Exp) :
    Mirrors (declare name init) (declare name.unplaced (init.map Exp.unplaced)) := by
  have hlimit {c : Prop} [Decidable c] {k k' : Unit → GenM Unit} (hk : ∀ u, Mirrors (k u) (k' u)) :
      Mirrors (if c then fail .tooManyLocals name.pos >>= k else k ())
        (if c then fail .tooManyLocals .start >>= k' else k' ()) := by
    split
    · exact .bind (.fail _ name.pos) hk
    · exact hk ()
  refine .bind localCount_mirrors fun slot => hlimit fun _ => ?_
  cases init with
  | none =>
      refine .bind (emit_mirrors _ _ _ _) fun _ => .modify fun g => ?_
      simp only [unplaced, Chunk.unplaced, Array.map_push]
      rfl
  | some e =>
      refine .bind (expression_mirrors e) fun op => ?_
      rw [e.last_unplaced]
      refine .bind (discharge_mirrors op slot e.last) fun _ => .modify fun g => ?_
      simp only [unplaced, Chunk.unplaced, Array.map_push]
      rfl

theorem arguments_mirrors (es : List Exp) : Mirrors (arguments es) (arguments (es.map Exp.unplaced)) := by
  induction es with
  | nil => exact .pure _
  | cons e es ih =>
      refine .bind (expression_mirrors e) fun op => ?_
      rw [e.last_unplaced]
      exact .bind (dischargeNext_mirrors op e.last) fun _ => ih

theorem statement_mirrors (s : Stat) : Mirrors (statement s) (statement s.unplaced) := by
  cases s with
  | declare name init => exact declare_mirrors name init
  | assign target value =>
      refine .bind (expression_mirrors target) fun t => .bind (expression_mirrors value) fun op => ?_
      rw [value.last_unplaced]
      exact assign_mirrors t op value.last
  | call callee args fault =>
      refine .bind (expression_mirrors callee) fun op => ?_
      rw [callee.last_unplaced, List.length_map]
      refine .bind (dischargeNext_mirrors op callee.last) fun _ => .bind (arguments_mirrors args) fun _ => ?_
      cases fault with
      | none => exact emit_mirrors _ _ _ _
      | some f => exact .throw f
  | construct e | stop e => exact .bind (expression_mirrors e) fun _ => .pure _

theorem block_mirrors (b : Block) : Mirrors (block b) (block (b.map Stat.unplaced)) := by
  induction b with
  | nil => exact .pure _
  | cons s b ih =>
      exact .bind (statement_mirrors s) fun _ => .bind localCount_mirrors fun n => .bind (setTop_mirrors n) fun _ => ih

end Gen

namespace Chunk

/-- What is compiled depends on places only in the places it tells. -/
theorem compile_unplaced (source name : Bytes) :
    unplacedResult unplaced (compile source name) =
      ((Gen.block (Block.ofTokens ((Scanner.ofSource source none).tokens.1.map Token.unplaced))).run
        { chunk := { name }, top := 0 }).map fun p => p.2.chunk := by
  have hstart : ({ chunk := { name }, top := 0 } : Gen).unplaced = { chunk := { name }, top := 0 } := by
    simp [Gen.unplaced, unplaced]
  have hrun := Gen.block_mirrors (Block.ofTokens (Scanner.ofSource source none).tokens.1) { chunk := { name }, top := 0 }
  rw [hstart] at hrun
  rw [Block.ofTokens_unplaced, hrun, compile, compileReading]
  cases (Gen.block (Block.ofTokens (Scanner.ofSource source none).tokens.1)).run { chunk := { name }, top := 0 } <;> rfl

end Chunk

end MiniLua

import MiniLua.Proofs.Compile.Expressions
import MiniLua.Proofs.Machine.Natives

/-!
The code of statements. A statement starts with its temporaries free and gives them back; what it does to the slots of
locals is what its evaluation does to the locals.
-/

namespace MiniLua.Gen

open ExecM Operand

/-- Between two statements no temporary is in use. -/
structure Clear (g : Gen) : Prop extends Ready g where
  top_eq : g.top = g.chunk.locals.size

/-- Gives all temporaries back. -/
def settle (g : Gen) : Gen := { g with top := g.chunk.locals.size }

/-- The code `is` was added behind for a statement. -/
structure Follows (g : Gen) (is : List Instruction) (g' : Gen) : Prop where
  code : g'.chunk.code.toList = g.chunk.code.toList ++ is
  constants : ∀ (k : Nat) v, g.chunk.constants[k]? = some v → g'.chunk.constants[k]? = some v
  clear : Clear g'

variable {g g₁ g' : Gen}

theorem Grows.follows {is : List Instruction} (h : Grows g is g₁) (hg : Clear g) : Follows g is (settle g₁) := by
  have hsettle : Grows g₁ [] (settle g₁) := .of_chunk_eq rfl
  have htop : (settle g₁).top = g.top := by
    rw [hg.top_eq, ← h.locals]
    rfl
  refine ⟨h.code, h.constants, (h.trans hsettle).ready hg.toReady ?_ ?_, rfl⟩
  · exact Nat.le_of_eq (by rw [htop, hg.top_eq])
  · rw [htop]
    exact hg.top_le

theorem Follows.trans {is js : List Instruction} (h : Follows g is g₁) (h' : Follows g₁ js g') :
    Follows g (is ++ js) g' := by
  refine ⟨?_, fun k v hk => h'.constants k v (h.constants k v hk), h'.clear⟩
  rw [h'.code, h.code, List.append_assoc]

/-- From `g` to `g'` the generator has added the code of a statement with the evaluation `x`. -/
def Enacts (g : Gen) (x : Locals → EvalM Locals) (g' : Gen) : Prop :=
  ∃ is, Follows g is g' ∧ ∀ c m, Covers c g' → g.top ≤ m.stack.size →
    Yields c is m (x (m.locals g.chunk.locals)) fun locals m' =>
      locals = m'.locals g'.chunk.locals ∧ g'.top ≤ m'.stack.size

/-- What is left to show of a statement that changes no local. -/
theorem Grows.kept {is : List Instruction} (h : Grows g is g₁) (hg : Clear g) {m m' : Machine} (ha : m.Agrees g.top m')
    (hs : g.top ≤ m'.stack.size) :
    m.locals g.chunk.locals = m'.locals (settle g₁).chunk.locals ∧ (settle g₁).top ≤ m'.stack.size := by
  change _ = m'.locals g₁.chunk.locals ∧ g₁.chunk.locals.size ≤ _
  rw [h.locals, ← hg.top_eq]
  exact ⟨(ha.locals (Nat.le_of_eq hg.top_eq.symm)).symm, hs⟩

theorem Grows.yields_kept {is js : List Instruction} {c : Chunk} {m : Machine} {x : EvalM Unit} (h : Grows g is g₁)
    (hg : Clear g) (hx : Yields c js m x fun _ m' => m.Agrees g.top m' ∧ g.top ≤ m'.stack.size) :
    Yields c js m (do x; return m.locals g.chunk.locals) fun locals m' =>
      locals = m'.locals (settle g₁).chunk.locals ∧ (settle g₁).top ≤ m'.stack.size :=
  hx.map fun _ _ hm => h.kept hg hm.1 hm.2

/-- From `g` to `g'` the generator has added code that puts the value of `x` into the slot of the next local. -/
def Initializes (g : Gen) (x : Locals → EvalM Value) (g' : Gen) : Prop :=
  ∃ is, Grows g is g' ∧ ∀ c m, Covers c g' → g.top ≤ m.stack.size →
    Yields c is m (x (m.locals g.chunk.locals)) fun v m' => m.Agrees g.top m' ∧ m'.stack[g.top]? = some v

theorem discharge_initializes {e : Exp} {op : Operand} {pos : Position} {u : Unit} (he : e.Whole) (hg : Clear g)
    (hs : g.chunk.locals.size < maxSlots) (hexp : (expression e).run g = .ok (op, g₁))
    (hd : (discharge op g.chunk.locals.size pos).run g₁ = .ok (u, g')) : Initializes g (Eval.expression · e) g' := by
  rw [← hg.top_eq] at hd hs
  obtain ⟨code, pool, hp, rfl⟩ := discharge_ok hd
  obtain ⟨is, hgrows, hyield⟩ := (expLeaves e he hg.toReady hexp).plan hp (Nat.le_refl _) hs g₁.top
  refine ⟨is, hgrows, fun c m hc hm => (hyield c m hc hm).mono ?_⟩
  rintro v m'' ⟨m', hagree, hsize, rfl⟩
  exact ⟨hagree.trans (m'.agrees_write (Nat.le_refl _) v), m'.write_stack_self hsize v⟩

theorem loadNil_initializes {u : Unit} (hg : Clear g) (hs : g.chunk.locals.size < maxSlots)
    (h : (emit .loadNil g.chunk.locals.size.toUInt8 0 0).run g = .ok (u, g')) : Initializes g (fun _ => pure .nil) g' := by
  rw [← hg.top_eq] at h hs
  refine ⟨_, (emit_grows h).1, fun c m hc hm => ?_⟩
  have hslot : (setSlot g.top.toUInt8 .nil).run m = (.ok (), m.write g.top .nil) := by
    rw [setSlot_run (by rw [toNat_toUInt8 hs]; exact hm), toNat_toUInt8 hs]
  have hrun := (steps_singleton c { op := Opcode.loadNil.code, a := g.top.toUInt8, b := 0, c := 0 } m).trans hslot
  exact .ok hrun rfl ⟨m.agrees_write (Nat.le_refl _) _, m.write_stack_self hm _⟩

/-- The entry of a local in the chunk. -/
def entry (name : Name) (slot : Nat) : LocalInfo :=
  ⟨name.text, .ofNat slot, .ofNat name.pos.line, .ofNat name.pos.column⟩

theorem declare_ok {name : Name} {init : Option Exp} {u : Unit} (h : (declare name init).run g = .ok (u, g')) :
    let info := entry name g.chunk.locals.size
    g.chunk.locals.size < maxSlots ∧ ∃ g₁,
      g' = { g₁ with chunk := { g₁.chunk with locals := g₁.chunk.locals.push info } } ∧
      match init with
      | none => (emit .loadNil g.chunk.locals.size.toUInt8 0 0).run g = .ok ((), g₁)
      | some e => ∃ op g₂, (expression e).run g = .ok (op, g₂) ∧
          (discharge op g.chunk.locals.size e.last).run g₂ = .ok ((), g₁) := by
  obtain ⟨slot, g₀, hslot, h₁⟩ := run_bind_ok h
  obtain ⟨rfl, rfl⟩ : slot = g.chunk.locals.size ∧ g₀ = g := run_pure_ok.mp hslot
  by_cases hs : maxSlots ≤ g₀.chunk.locals.size
  · simp only [if_pos hs] at h₁
    obtain ⟨_, _, hfail, -⟩ := run_bind_ok h₁
    exact absurd hfail run_fail_ok
  · simp only [if_neg hs] at h₁
    refine ⟨Nat.lt_of_not_le hs, ?_⟩
    cases init with
    | none =>
        obtain ⟨_, g₂, hemit, h₂⟩ := run_bind_ok h₁
        exact ⟨g₂, run_modify_ok.mp h₂, hemit⟩
    | some e =>
        obtain ⟨op, g₂, hexp, h₂⟩ := run_bind_ok h₁
        obtain ⟨_, g₃, hdischarge, h₃⟩ := run_bind_ok h₂
        exact ⟨g₃, run_modify_ok.mp h₃, op, g₂, hexp, hdischarge⟩

/-- A new local takes the slot behind the others. -/
theorem Clear.push {info : LocalInfo} (hg : Clear g) (hs : g.chunk.locals.size < maxSlots)
    (hi : info.slot = .ofNat g.chunk.locals.size) {is : List Instruction} (h : Grows g is g₁) :
    Clear (settle { g₁ with chunk := { g₁.chunk with locals := g₁.chunk.locals.push info } }) := by
  refine ⟨⟨Nat.le_refl _, ?_, ?_, h.constants_le hg.constants_le⟩, rfl⟩
  · change (g₁.chunk.locals.push info).size ≤ maxSlots
    rw [Array.size_push, h.locals]
    exact hs
  · intro i l hl
    change (g₁.chunk.locals.push info)[i]? = some l at hl
    rw [h.locals, Array.getElem?_push] at hl
    split at hl
    · next hi' =>
      cases hl
      simp only [maxSlots] at hs
      rw [hi, Int64.toInt_ofNat_of_lt (by omega), hi']
    · exact hg.slot_eq i l hl

theorem declare_enacts {name : Name} {init : Option Exp} {u : Unit} (hi : ∀ e ∈ init, e.Whole) (hg : Clear g)
    (h : (statement (.declare name init)).run g = .ok (u, g')) :
    Enacts g (Eval.statement · (.declare name init)) (settle g') := by
  obtain ⟨hs, g₁, rfl, hinit⟩ := declare_ok h
  have hvalue : Initializes g (fun locals => init.elim (pure .nil) (Eval.expression locals)) g₁ := by
    cases init with
    | none => exact loadNil_initializes hg hs hinit
    | some e =>
        obtain ⟨op, g₂, hexp, hdischarge⟩ := hinit
        exact discharge_initializes (hi e rfl) hg hs hexp hdischarge
  obtain ⟨is, hgrows, hyield⟩ := hvalue
  refine ⟨is, ⟨hgrows.code, hgrows.constants, hg.push hs rfl hgrows⟩, fun c m hc hm => ?_⟩
  have hlocals {v : Value} {m' : Machine} (hagree : m.Agrees g.top m') (hv : m'.stack[g.top]? = some v) :
      (name.text, v) :: m.locals g.chunk.locals = m'.locals (g₁.chunk.locals.push (entry name g.chunk.locals.size)) := by
    rw [← hagree.locals (Nat.le_of_eq hg.top_eq.symm), hgrows.locals]
    rw [hg.top_eq] at hv
    simp only [Machine.locals, Array.toList_push]
    exact (Locals.ofSlots_concat _ (entry name g.chunk.locals.size) (by simpa using hv)).symm
  have hstat (locals : Locals) : Eval.statement locals (.declare name init) =
      (do return (name.text, ← init.elim (pure .nil) (Eval.expression locals)) :: locals) := by
    cases init <;> rfl
  beta_reduce
  rw [hstat]
  refine (hyield c m hc hm).map ?_
  rintro v m' ⟨hagree, hv⟩
  refine ⟨hlocals hagree hv, ?_⟩
  have hlt := (Array.getElem?_eq_some_iff.mp hv).1
  change (g₁.chunk.locals.push _).size ≤ m'.stack.size
  rwa [Array.size_push, hgrows.locals, ← hg.top_eq]

theorem construct_enacts {opened : Position} {fs : Fields} {u : Unit} (hw : fs.Whole) (hg : Clear g)
    (h : (statement (.construct (.table opened fs))).run g = .ok (u, g')) :
    Enacts g (Eval.statement · (.construct (.table opened fs))) (settle g') := by
  obtain ⟨op, g₁, hexp, h₁⟩ := run_bind_ok h
  obtain ⟨-, rfl⟩ := run_pure_ok.mp h₁
  obtain ⟨-, hput⟩ := table_puts (fieldsImplement fs hw) hg.toReady hexp
  obtain ⟨is, hgrows, hyield⟩ := hput.code
  refine ⟨is, hgrows.follows hg, fun c m hc hm => (hyield c m hc hm).map ?_⟩
  rintro v m' ⟨⟨hagree, hsize⟩, -⟩
  exact hgrows.kept hg hagree (Nat.le_trans hput.spans.le hsize)

theorem yields_setGlobal {c : Chunk} {is : List Instruction} {m : Machine} {name : Bytes} {v : Value}
    {Q : Unit → Machine → Prop} (hs : (steps c is).run m = (.ok (), m.setGlobal name v)) (hQ : Q () (m.setGlobal name v)) :
    Yields c is m (EvalM.setGlobal name v) Q := .ok hs rfl hQ

theorem Leaves.assignGlobal {x : Locals → EvalM Value} {e : Operand} {k : Nat} {pos : Position} {u : Unit}
    (h : Leaves g x e g₁) (hg : Ready g) (hk : k < 256)
    (hr : (assignGlobal (UInt8.ofInt k) e pos).run g₁ = .ok (u, g')) :
    ∃ is, Grows g is g' ∧ ∀ c m name, Covers c g' → g.top ≤ m.stack.size → c.constants[k]? = some (.ofBytes name) →
      Yields c is m (do let v ← x (m.locals g.chunk.locals); EvalM.setGlobal name v) fun _ m' =>
        m.Agrees g.top m' ∧ g.top ≤ m'.stack.size := by
  unfold Gen.assignGlobal at hr
  split at hr
  · next key =>
    obtain ⟨is, hgrows, hcomp⟩ := h.code
    obtain ⟨hgrows', -⟩ := emit_grows hr
    refine ⟨_, hgrows.trans hgrows', fun c m name hc hm hname => ?_⟩
    refine ((hcomp c m (hc.of_grows hgrows') hm).global).bind ?_
    rintro v m' ⟨⟨k', source, rfl, hk', hsource, rfl⟩, hagree, hsize⟩
    refine yields_setGlobal ?_ ⟨hagree, Nat.le_trans h.occupies.top_le hsize⟩
    rw [steps_singleton]
    simp only [step, Instruction.opcode?, Opcode.ofCode?_code]
    rw [ExecM.run_bind_ok (constant_run (by rw [toNat_ofInt hk, hname]) m'), ExecM.run_bind_ok (nameOf_run name m'),
      ExecM.run_bind_ok (constant_run (by rw [toNat_ofInt hk', hsource]) m'), ExecM.run_bind_ok (nameOf_run source m')]
    rfl
  · obtain ⟨p, g₂, hconst, hr₂⟩ := run_bind_ok hr
    obtain ⟨-, htop, is, hgrows, hyield⟩ := h.constantOrSlot hg hconst
    obtain ⟨hgrows', -⟩ := emit_grows hr₂
    refine ⟨_, hgrows.trans hgrows', fun c m name hc hm hname => (hyield c m (hc.of_grows hgrows') hm).bind ?_⟩
    rintro v m' ⟨⟨hagree, hsize⟩, hfinds⟩
    refine yields_setGlobal ?_ ⟨hagree, Nat.le_trans htop hsize⟩
    rw [steps_singleton, step_setGlobal, ExecM.run_bind_ok (constant_run (by rw [toNat_ofInt hk, hname]) m'),
      ExecM.run_bind_ok (nameOf_run name m'), ExecM.run_bind_ok hfinds.run]
    rfl

/-- Writing the slot that a name is resolved to assigns to the local. -/
theorem Ready.assign_eq (hg : Ready g) {m : Machine} (hm : g.top ≤ m.stack.size) {name : Bytes} {l : LocalInfo} {n : Nat}
    (hl : g.chunk.locals.toList.reverse.find? (·.name == name) = some l) (hslot : l.slot.toInt = n)
    (hn : n < m.stack.size) (v : Value) :
    (m.write n v).locals g.chunk.locals = (m.locals g.chunk.locals).assign name v := by
  have hle := Nat.le_trans hg.locals_le_top hm
  apply Locals.assign_ofSlots (by simpa using hle) hg.numbered hl
  · rw [hslot, Int.toNat_natCast, Array.getElem?_toList]
    exact m.write_stack_self (Nat.le_of_lt hn) v
  · intro i hi
    rw [hslot, Int.toNat_natCast] at hi
    simp only [Array.getElem?_toList]
    exact m.write_stack_ne hi v

theorem assignName_enacts {name : Name} {value : Exp} {u : Unit} (hv : value.Whole) (hg : Clear g)
    (h : (statement (.assign (.var name) value)).run g = .ok (u, g')) :
    Enacts g (Eval.assign · (.var name) value) (settle g') := by
  obtain ⟨op, g₁, htarget, h₁⟩ := run_bind_ok h
  obtain ⟨e, g₂, hvalue, h₂⟩ := run_bind_ok h₁
  rcases resolve_cases hg.toReady htarget with ⟨l, n, hl, hslot, hn, rfl, rfl⟩ | ⟨hl, k, rfl, hk⟩
  · have hle : n < g₁.top := Nat.lt_of_lt_of_le hn hg.locals_le_top
    obtain ⟨code, pool, hp, rfl⟩ := discharge_ok h₂
    obtain ⟨is, hgrows, hyield⟩ := (expLeaves value hv hg.toReady hvalue).plan hp (Nat.le_of_lt hle)
      (Nat.lt_of_lt_of_le hle hg.top_le) g₂.top
    refine ⟨is, hgrows.follows hg, fun c m hc hm => ?_⟩
    have hlookup : (m.locals g₁.chunk.locals).lookup name.text = some m.stack[n] := by
      rw [hg.lookup_eq hm, hl, Option.bind_some, hslot, Int.toNat_natCast]
      exact Array.getElem?_eq_getElem (Nat.lt_of_lt_of_le hle hm)
    simp only [Eval.assign, hlookup]
    refine (hyield c m hc hm).map ?_
    rintro v m'' ⟨m', hagree, hsize, rfl⟩
    have hlt : n < m'.stack.size := Nat.lt_of_lt_of_le hle hsize
    obtain ⟨-, hsize'⟩ := hgrows.kept hg hagree hsize
    constructor
    · rw [← hagree.locals hg.locals_le_top, ← hg.assign_eq hsize hl hslot hlt]
      exact congrArg (m'.write n v).locals hgrows.locals.symm
    · refine Nat.le_trans hsize' ?_
      rw [Int.toNat_natCast, Machine.write_stack_size (Nat.le_of_lt hlt)]
      exact Nat.le_max_left _ _
  · obtain ⟨hgrows, htop, hconst⟩ := constant_grows hk
    have hready := constant_ready hg.toReady hk
    obtain ⟨is, hgrows', hyield⟩ := (expLeaves value hv hready hvalue).assignGlobal hready (constant_lt hg.toReady hk) h₂
    have hall := hgrows.trans hgrows'
    refine ⟨is, hall.follows hg, fun c m hc hm => ?_⟩
    have hlookup : (m.locals g.chunk.locals).lookup name.text = none := by rw [hg.lookup_eq hm, hl, Option.bind_none]
    simp only [Eval.assign, hlookup]
    rw [htop, hgrows.locals] at hyield
    have hstore := hyield c m name.text hc hm (hc k _ (hgrows'.constants _ _ hconst))
    simpa only [bind_assoc] using hall.yields_kept hg hstore

/-- Assigning to an entry of a table. -/
theorem Locates.enacts {x : Locals → EvalM (Value × Value)} {target : Operand} {value : Exp} {u : Unit}
    {pos : Position} (h : Locates g x target g₁) (hv : value.Whole) (hg : Clear g)
    (hr : (do assign target (← expression value) pos).run g₁ = .ok (u, g')) :
    Enacts g (fun locals => do
      let p ← x locals
      let v ← Eval.expression locals value
      EvalM.store p.1 p.2 v
      return locals) (settle g') := by
  obtain ⟨is, hgrows, hyield⟩ := h.code
  obtain ⟨e, g₂, hvalue, hr₂⟩ := run_bind_ok hr
  have hassign : (do let p ← constantOrSlot e pos; store target p.1 p.2).run g₂ = .ok (u, g') := by
    rw [← hr₂]
    cases target with
    | index | field | element => rfl
    | nil | bool | int | float | str | slot | global | other => exact h.isEntry.elim
  obtain ⟨p, g₃, hconst, hstore⟩ := run_bind_ok hassign
  obtain ⟨htop, -, is', hgrows', hyield'⟩ :=
    (expLeaves value hv h.ready hvalue).store h.ready (h.occupies.below hg.toReady) hconst hstore
  have hall := hgrows.trans hgrows'
  refine ⟨is ++ is', hall.follows hg, fun c m hsettled hm => ?_⟩
  have hc : Covers c g' := hsettled
  refine (hyield c m (hc.of_grows hgrows') hm).bind ?_
  rintro p m₁ ⟨hframe, hplace⟩
  have hstored := hyield' c m₁ p.1 p.2 hc hframe.2 hplace
  rw [hframe.locals hg.toReady hgrows.locals] at hstored
  simp only [← bind_assoc]
  refine hstored.map fun _ m' hframe' => ?_
  obtain ⟨hagree, hsize⟩ := hframe.trans hframe' h.occupies.top_le
  exact hall.kept hg hagree (Nat.le_trans h.occupies.top_le (Nat.le_trans htop hsize))

theorem assign_enacts {target value : Exp} {u : Unit} (hp : target.isPlace = true) (ht : target.Whole) (hv : value.Whole)
    (hg : Clear g) (h : (statement (.assign target value)).run g = .ok (u, g')) :
    Enacts g (Eval.statement · (.assign target value)) (settle g') := by
  cases target with
  | var name => exact assignName_enacts hv hg h
  | field base dot name =>
      obtain ⟨op, g₁, htarget, h₁⟩ := run_bind_ok h
      have := (locates_field (expLeaves base ht) hg.toReady htarget).enacts hv hg h₁
      simpa only [bind_assoc, pure_bind, Eval.statement, Eval.assign] using this
  | index base opened key closed =>
      obtain ⟨op, g₁, htarget, h₁⟩ := run_bind_ok h
      have := (locates_index (expLeaves base ht.1) (expLeaves key ht.2) hg.toReady htarget).enacts hv hg h₁
      simpa only [bind_assoc, pure_bind, Eval.statement, Eval.assign] using this
  | literal | table | minus | paren | fault | faultAfter => cases hp

theorem arguments_implement {es : List Exp} {u : Unit} (hes : ∀ e ∈ es, e.Whole) (hg : Ready g)
    (h : (arguments es).run g = .ok (u, g')) :
    Ready g' ∧ g'.top = g.top + es.length ∧
      Implements g (Eval.arguments · es) (fun _ vs m' => vs.length = es.length ∧ m'.Holds g.top vs) g' := by
  induction es generalizing g with
  | nil =>
      obtain ⟨-, rfl⟩ := run_pure_ok.mp h
      exact ⟨hg, rfl, [], .refl _, fun c m hc hm => .pure ⟨⟨.refl _ _, hm⟩, rfl, .nil m _⟩⟩
  | cons e es ih =>
      obtain ⟨op, g₁, hexp, h₁⟩ := run_bind_ok h
      obtain ⟨n, g₂, hnext, h₂⟩ := run_bind_ok h₁
      obtain ⟨hput, rfl, htop₂⟩ := (expLeaves e (hes e List.mem_cons_self) hg hexp).dischargeNext hg hnext
      obtain ⟨hready, htop, is', hgrows', hyield'⟩ := ih (fun e he => hes e (List.mem_cons_of_mem _ he)) hput.ready h₂
      obtain ⟨is, hgrows, hyield⟩ := hput.code
      refine ⟨hready, by rw [htop, htop₂, List.length_cons]; omega, is ++ is', hgrows.trans hgrows', fun c m hc hm => ?_⟩
      refine (hyield c m (hc.of_grows hgrows') hm).bind ?_
      rintro v m₁ ⟨hframe, hv⟩
      rw [← hframe.locals hg hgrows.locals]
      refine (hyield' c m₁ hc hframe.2).map ?_
      rintro vs m' ⟨hframe', hlen, hvs⟩
      refine ⟨hframe.trans hframe' hput.spans.le, by rw [List.length_cons, hlen, List.length_cons], .cons ?_ ?_⟩
      · rw [hframe'.1 g.top (by omega), hv]
      · rw [← htop₂]
        exact hvs

/-- The instruction that calls a function in a slot. -/
def callOf (fn count : Nat) : Instruction := { op := Opcode.call.code, a := fn.toUInt8, b := count.toUInt8 }

/-- A call, up to the instruction that makes it: the function and its arguments lie in the slots from the top on. -/
theorem call_prepares {callee : Exp} {args : List Exp} {u : Unit} (hc : callee.Whole) (ha : ∀ e ∈ args, e.Whole)
    (hg : Clear g) (h : (statement (.call callee args none)).run g = .ok (u, g')) :
    g.top + args.length < 256 ∧ ∃ is, Grows g (is ++ [callOf g.top args.length]) g' ∧
      ∀ c m, Covers c g' → g.top ≤ m.stack.size →
      Yields c is m (do
        let f ← Eval.expression (m.locals g.chunk.locals) callee
        return (f, ← Eval.arguments (m.locals g.chunk.locals) args)) fun p m' =>
          m.Agrees g.top m' ∧ p.2.length = args.length ∧ m'.Holds g.top (p.1 :: p.2) := by
  obtain ⟨op, g₁, hexp, h₁⟩ := run_bind_ok h
  obtain ⟨n, g₂, hnext, h₂⟩ := run_bind_ok h₁
  obtain ⟨_, g₃, hargs, h₃⟩ := run_bind_ok h₂
  obtain ⟨hput, rfl, htop₂⟩ := (expLeaves callee hc hg.toReady hexp).dischargeNext hg.toReady hnext
  obtain ⟨hready, htop, is', hgrows', hyield'⟩ := arguments_implement ha hput.ready hargs
  obtain ⟨is, hgrows, hyield⟩ := hput.code
  obtain ⟨hgrows₄, -⟩ := emit_grows h₃
  have hlen : g.top + args.length < 256 := by
    have := hready.top_le
    simp only [maxSlots] at this
    omega
  refine ⟨hlen, is ++ is', (hgrows.trans hgrows').trans hgrows₄, fun c m hcover hm => ?_⟩
  have hcover₃ := hcover.of_grows hgrows₄
  refine (hyield c m (hcover₃.of_grows hgrows') hm).bind ?_
  rintro f m₁ ⟨hframe, hf⟩
  rw [← hframe.locals hg.toReady hgrows.locals]
  refine (hyield' c m₁ hcover₃ hframe.2).map ?_
  rintro vs m' ⟨hframe', hlen', hvs⟩
  refine ⟨(hframe.trans hframe' hput.spans.le).1, hlen', .cons ?_ ?_⟩
  · rw [hframe'.1 g.top (by omega), hf]
  · rw [← htop₂]
    exact hvs

end MiniLua.Gen

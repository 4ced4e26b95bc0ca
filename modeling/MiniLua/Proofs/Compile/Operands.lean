import MiniLua.Proofs.Compile.Simulation

/-!
The code of operands. What the generator leaves for an expression, an operand and the code before it, agrees with the
evaluation of the expression, and the code writes no slot below the top at which it began.
-/

namespace MiniLua.Gen

open ExecM

/-- The constants that `g` knows are those of the finished chunk `c`. -/
def Covers (c : Chunk) (g : Gen) : Prop := ∀ (k : Nat) v, g.chunk.constants[k]? = some v → c.constants[k]? = some v

theorem Covers.of_grows {c : Chunk} {g g' : Gen} {is : List Instruction} (h : Covers c g') (hg : Grows g is g') :
    Covers c g := fun k v hk => h k v (hg.constants k v hk)

/-- Slots below the old top are kept, and those below the new top exist. -/
def Framed (g g' : Gen) (m m' : Machine) : Prop := m.Agrees g.top m' ∧ g'.top ≤ m'.stack.size

theorem Framed.trans {g g₁ g' : Gen} {m m₁ m' : Machine} (h : Framed g g₁ m m₁) (h' : Framed g₁ g' m₁ m')
    (ht : g.top ≤ g₁.top) : Framed g g' m m' := ⟨h.1.trans (h'.1.mono ht), h'.2⟩

theorem Framed.locals {g g' : Gen} {m m' : Machine} (h : Framed g g' m m') (hg : Ready g)
    (hl : g'.chunk.locals = g.chunk.locals) : m'.locals g'.chunk.locals = m.locals g.chunk.locals := by
  rw [hl, h.1.locals hg.locals_le_top]

/-- From `g` to `g'` the generator has added code for the evaluation `x` that ends with `Q`. -/
def Implements {α : Type} (g : Gen) (x : Locals → EvalM α) (Q : Chunk → α → Machine → Prop) (g' : Gen) : Prop :=
  ∃ is, Grows g is g' ∧ ∀ c m, Covers c g' → g.top ≤ m.stack.size →
    Yields c is m (x (m.locals g.chunk.locals)) fun a m' => Framed g g' m m' ∧ Q c a m'

/-- From `g` to `g'` the generator has added code that leaves the operand `e` for the evaluation `x`. -/
structure Leaves (g : Gen) (x : Locals → EvalM Value) (e : Operand) (g' : Gen) : Prop where
  ready : Ready g'
  occupies : Occupies g g' e
  code : ∃ is, Grows g is g' ∧ ∀ c m, Covers c g' → g.top ≤ m.stack.size →
    Computes c is m (x (m.locals g.chunk.locals)) e (Framed g g' m)

/-- From `g` to `g'` the generator has added code that puts the value of `x` into the slot `n`. -/
structure Puts (g : Gen) (x : Locals → EvalM Value) (n : Nat) (g' : Gen) : Prop where
  ready : Ready g'
  spans : Spans g.chunk.locals.size g.top g'.top n
  code : Implements g x (fun _ v m' => m'.stack[n]? = some v) g'

variable {g g₁ g' : Gen} {x : Locals → EvalM Value} {e : Operand}

/-- A literal needs no code. -/
theorem Leaves.literal {v : Value} (he : e.literal? = some v) (hg : Ready g) : Leaves g (fun _ => pure v) e g := by
  refine ⟨hg, ?_, [], .refl g, fun c m hc hm => .ok rfl (.literal he) rfl ⟨.refl _ _, hm⟩⟩
  cases e with
  | nil | bool | int | float | str => rfl
  | slot | global | index | field | element | other => cases he

/-- Placing the operand writes a slot that is at most the top at which its code began. -/
theorem Leaves.plan {dst : Nat} {code : List Instruction} {pool : Chunk} (h : Leaves g x e g₁)
    (hp : e.plan dst.toUInt8 g₁.chunk = .ok (code, pool)) (hd : dst ≤ g.top) (h256 : dst < 256) (n : Nat) :
    ∃ is, Grows g is ⟨code.foldl Chunk.emit pool, n⟩ ∧ ∀ c m, Covers c ⟨code.foldl Chunk.emit pool, n⟩ →
      g.top ≤ m.stack.size → Yields c is m (x (m.locals g.chunk.locals)) fun v m'' =>
        ∃ m', m.Agrees g.top m' ∧ g.top ≤ m'.stack.size ∧ m'' = m'.write dst v := by
  obtain ⟨is, hgrows, hcomp⟩ := h.code
  have hgrows' := plan_grows hp n
  refine ⟨is ++ code, hgrows.trans hgrows', fun c m hc hm => ?_⟩
  have hdst := toNat_toUInt8 h256
  have hcode : ∀ (k : Nat) v, pool.constants[k]? = some v → c.constants[k]? = some v :=
    fun k v hk => hc k v ((foldl_emit_grows code ⟨pool, 0⟩ n).constants k v hk)
  refine ((hcomp c m (hc.of_grows hgrows') hm).plan hp h.ready.constants_le hcode fun m' hm' => ?_).mono ?_
  · rw [hdst]
    exact Nat.le_trans hd (Nat.le_trans h.occupies.top_le hm'.2)
  · rintro v m'' ⟨m', ⟨hagree, hsize⟩, rfl⟩
    exact ⟨m', hagree, Nat.le_trans h.occupies.top_le hsize, by rw [hdst]⟩

/-- The operand goes to the slot where its temporaries began. -/
theorem Leaves.dischargeNext (h : Leaves g x e g₁) (hg : Ready g) {pos : Position} {n : Nat}
    (hr : (dischargeNext e pos).run g₁ = .ok (n, g')) : Puts g x n g' ∧ n = g.top ∧ g'.top = g.top + 1 := by
  obtain ⟨is₁, hgrows₁, -⟩ := h.code
  obtain ⟨rfl, ht, code, c', hp, rfl⟩ := dischargeNext_ok h.occupies hgrows₁.locals hg hr
  obtain ⟨is, hgrows, hyield⟩ := h.plan hp (Nat.le_refl _) ht (g.top + 1)
  have hready := hgrows.ready hg (Nat.le_succ_of_le hg.locals_le_top) ht
  refine ⟨⟨hready, .inr ⟨rfl, rfl⟩, is, hgrows, fun c m hc hm => (hyield c m hc hm).mono ?_⟩, rfl, rfl⟩
  rintro v m'' ⟨m', hagree, hsize, rfl⟩
  refine ⟨⟨hagree.trans (Machine.agrees_write (Nat.le_refl _) v), ?_⟩, Machine.write_stack_self hsize v⟩
  rw [Machine.write_stack_size hsize]
  exact Nat.le_max_right _ _

theorem Puts.lt {n : Nat} (h : Puts g x n g') (hg : Ready g) : n < 256 :=
  Nat.lt_of_lt_of_le (h.spans.lt hg.locals_le_top) h.ready.top_le

/-- A slot is an operand that needs no further code. -/
theorem Puts.leaves {n : Nat} (h : Puts g x n g') (hg : Ready g) : Leaves g x (.slot n) g' := by
  obtain ⟨is, hgrows, hyield⟩ := h.code
  refine ⟨h.ready, ⟨n, rfl, h.spans⟩, is, hgrows, fun c m hc hm => .of_yields ?_⟩
  exact (hyield c m hc hm).mono fun v m' hv => ⟨.slot (h.lt hg) hv.2, hv.1⟩

/-- The operand is in a slot, its own or a fresh one. -/
theorem Leaves.dischargeTop (h : Leaves g x e g₁) (hg : Ready g) {pos : Position} {s : Int}
    (hr : (dischargeTop e pos).run g₁ = .ok (s, g')) : ∃ n : Nat, s = n ∧ Puts g x n g' := by
  unfold Gen.dischargeTop at hr
  split at hr
  · next s' =>
    obtain ⟨rfl, rfl⟩ := run_pure_ok.mp hr
    obtain ⟨n, rfl, hn⟩ := h.occupies
    obtain ⟨is, hgrows, hcomp⟩ := h.code
    refine ⟨n, rfl, h.ready, hn, is, hgrows, fun c m hc hm => ?_⟩
    exact (hcomp c m hc hm).slot.mono fun v m' hv => ⟨hv.2, hv.1⟩
  · obtain ⟨n, g₂, hd, hr⟩ := run_bind_ok hr
    obtain ⟨rfl, rfl⟩ := run_pure_ok.mp hr
    exact ⟨n, rfl, (h.dischargeNext hg hd).1⟩

theorem constant_lt {v : Value} {pos : Position} {k : Nat} (hg : Ready g) (h : (constant v pos).run g = .ok (k, g')) :
    k < 256 := by
  obtain ⟨hgrows, -, hk⟩ := constant_grows h
  exact Nat.lt_of_lt_of_le (Array.getElem?_eq_some_iff.mp hk).1 (hgrows.constants_le hg.constants_le)

theorem constant_ready {v : Value} {pos : Position} {k : Nat} (hg : Ready g) (h : (constant v pos).run g = .ok (k, g')) :
    Ready g' := by
  obtain ⟨hgrows, ht, -⟩ := constant_grows h
  exact hgrows.ready hg (by rw [ht]; exact hg.locals_le_top) (by rw [ht]; exact hg.top_le)

theorem Leaves.constantOrSlot (h : Leaves g x e g₁) (hg : Ready g) {pos : Position} {p : UInt8 × Bool}
    (hr : (constantOrSlot e pos).run g₁ = .ok (p, g')) :
    Ready g' ∧ g.top ≤ g'.top ∧ Implements g x (fun c v m' => Finds c m' p v) g' := by
  unfold Gen.constantOrSlot at hr
  split at hr
  · next v hv =>
    obtain ⟨k, g₂, hk, hr⟩ := run_bind_ok hr
    obtain ⟨rfl, rfl⟩ := run_pure_ok.mp hr
    obtain ⟨hgrows', ht, hconst⟩ := constant_grows hk
    obtain ⟨is, hgrows, hcomp⟩ := h.code
    have hall := hgrows.trans hgrows'
    rw [List.append_nil] at hall
    refine ⟨constant_ready h.ready hk, by rw [ht]; exact h.occupies.top_le, is, hall, fun c m hc hm => ?_⟩
    refine ((hcomp c m (hc.of_grows hgrows') hm).literal hv).mono ?_
    rintro a m' ⟨rfl, hagree, hsize⟩
    refine ⟨⟨hagree, by rw [ht]; exact hsize⟩, ?_⟩
    change c.constants[k.toUInt8.toNat]? = some a
    rw [toNat_toUInt8 (constant_lt h.ready hk)]
    exact hc k a hconst
  · obtain ⟨s, g₂, hd, hr⟩ := run_bind_ok hr
    obtain ⟨rfl, rfl⟩ := run_pure_ok.mp hr
    obtain ⟨n, rfl, hn⟩ := h.dischargeTop hg hd
    obtain ⟨is, hgrows, hyield⟩ := hn.code
    refine ⟨hn.ready, hn.spans.le, is, hgrows, fun c m hc hm => (hyield c m hc hm).mono ?_⟩
    rintro v m' ⟨hf, hv⟩
    refine ⟨hf, ?_⟩
    change m'.stack[(UInt8.ofInt n).toNat]? = some v
    rw [toNat_ofInt (hn.lt hg)]
    exact hv

/-- An operand for an entry of the table in slot `n`: besides `n` it takes up the temporaries of its key. -/
def Indexes (g g' : Gen) (n : Nat) : Operand → Prop
  | .index s key => s = n ∧ ∃ k : Nat, key = k ∧ Spans g.chunk.locals.size g.top g'.top k
  | .field s _ | .element s _ => s = n ∧ g'.top = g.top
  | _ => False

theorem Indexes.top_le {n : Nat} (h : Indexes g g' n e) : g.top ≤ g'.top := by
  cases e with
  | index s key => obtain ⟨-, k, -, hk⟩ := h; exact hk.le
  | field s key | element s key => exact Nat.le_of_eq h.2.symm
  | nil | bool | int | float | str | slot | global | other => cases h

theorem Indexes.isEntry {n : Nat} (h : Indexes g g' n e) : e.IsEntry := by
  cases e with
  | index | field | element => trivial
  | nil | bool | int | float | str | slot | global | other => cases h

theorem Indexes.occupies {n : Nat} (h : Indexes g₁ g' n e) (hl : g₁.chunk.locals = g.chunk.locals)
    (hn : Spans g.chunk.locals.size g.top g₁.top n) : Occupies g g' e := by
  cases e with
  | index s key =>
      obtain ⟨rfl, k, rfl, hk⟩ := h
      rw [hl] at hk
      exact ⟨n, k, _, rfl, rfl, hn, hk⟩
  | field s key | element s key =>
      obtain ⟨rfl, ht⟩ := h
      exact ⟨n, rfl, by rw [ht]; exact hn⟩
  | nil | bool | int | float | str | slot | global | other => cases h

theorem Indexes.below {n : Nat} (h : Indexes g g' n e) (hg : Ready g) (hn : n < g.top) : e.Below g'.top := by
  have hle := h.top_le
  cases e with
  | index s key =>
      obtain ⟨rfl, k, rfl, hk⟩ := h
      have hlt := hk.lt hg.locals_le_top
      exact ⟨by omega, by omega⟩
  | field s key | element s key =>
      obtain ⟨rfl, -⟩ := h
      change (n : Int) < g'.top
      omega
  | nil | bool | int | float | str | slot | global | other => cases h

theorem Occupies.below (h : Occupies g g' e) (hg : Ready g) : e.Below g'.top := by
  have hle := hg.locals_le_top
  cases e with
  | index s key =>
      obtain ⟨n, k, b, rfl, rfl, hn, hk⟩ := h
      have hlt := hn.lt hle
      have hlt' := hk.lt (Nat.le_trans hle hn.le)
      have hle' := hk.le
      exact ⟨by omega, by omega⟩
  | field s key | element s key | slot s =>
      obtain ⟨n, rfl, hn⟩ := h
      have hlt := hn.lt hle
      change (n : Int) < g'.top
      omega
  | nil | bool | int | float | str | global | other => trivial

/-- The key of an entry whose table is in a slot below the top. -/
theorem Leaves.indexBy (h : Leaves g x e g₁) (hg : Ready g) {n : Nat} (hn : n < g.top) {pos : Position} {e' : Operand}
    (hr : (indexBy n e pos).run g₁ = .ok (e', g')) :
    Ready g' ∧ Indexes g g' n e' ∧ ∃ is, Grows g is g' ∧ ∀ c m t, Covers c g' → g.top ≤ m.stack.size →
      m.stack[n]? = some t → Yields c is m (x (m.locals g.chunk.locals)) fun key m' =>
        Framed g g' m m' ∧ e'.Place c m' t key := by
  have hn256 : n < 256 := Nat.lt_of_lt_of_le hn hg.top_le
  -- Every key but a string and a small number goes to a slot.
  have hslot (hr : (do return Operand.index n (← Gen.dischargeTop e pos) : GenM Operand).run g₁ = .ok (e', g')) :
      Ready g' ∧ Indexes g g' n e' ∧ ∃ is, Grows g is g' ∧ ∀ c m t, Covers c g' → g.top ≤ m.stack.size →
        m.stack[n]? = some t → Yields c is m (x (m.locals g.chunk.locals)) fun key m' =>
          Framed g g' m m' ∧ e'.Place c m' t key := by
    obtain ⟨s, g₂, hd, hr⟩ := run_bind_ok hr
    obtain ⟨rfl, rfl⟩ := run_pure_ok.mp hr
    obtain ⟨k, rfl, hk⟩ := h.dischargeTop hg hd
    obtain ⟨is, hgrows, hyield⟩ := hk.code
    refine ⟨hk.ready, ⟨rfl, k, rfl, hk.spans⟩, is, hgrows, fun c m t hc hm ht => (hyield c m hc hm).mono ?_⟩
    rintro key m' ⟨hf, hkey⟩
    exact ⟨hf, .index hn256 (hk.lt hg) (by rw [hf.1 n hn, ht]) hkey⟩
  obtain ⟨is, hgrows, hcomp⟩ := h.code
  cases e with
  | str content =>
      obtain ⟨k, g₂, hk, hr⟩ := run_bind_ok hr
      obtain ⟨rfl, rfl⟩ := run_pure_ok.mp hr
      obtain ⟨hgrows', htop, hconst⟩ := constant_grows hk
      have hall := hgrows.trans hgrows'
      rw [List.append_nil] at hall
      refine ⟨constant_ready h.ready hk, ⟨rfl, htop.trans h.occupies⟩, is, hall, fun c m t hc hm ht => ?_⟩
      refine ((hcomp c m (hc.of_grows hgrows') hm).literal rfl).mono ?_
      rintro key m' ⟨rfl, hagree, hsize⟩
      exact ⟨⟨hagree, by rw [htop]; exact hsize⟩, .field hn256 (constant_lt h.ready hk) (by rw [hagree n hn, ht])
        (hc k _ hconst)⟩
  | int i =>
      by_cases hi : 0 ≤ i.toInt ∧ i.toInt ≤ 255
      · simp only [Gen.indexBy, if_pos hi] at hr
        obtain ⟨rfl, rfl⟩ := run_pure_ok.mp hr
        refine ⟨h.ready, ⟨rfl, h.occupies⟩, is, hgrows, fun c m t hc hm ht => ?_⟩
        refine ((hcomp c m hc hm).literal rfl).mono ?_
        rintro key m' ⟨rfl, hf⟩
        exact ⟨hf, .element hn256 hi.1 hi.2 (by rw [hf.1 n hn, ht])⟩
      · simp only [Gen.indexBy, if_neg hi] at hr
        exact hslot hr
  | nil | bool | float | slot | global | index | field | element | other => exact hslot hr

theorem yields_stored {c : Chunk} {m : Machine} {t key v : Value} {i : Instruction}
    (h : (step c i).run m = m.stored t key v) :
    Yields c [i] m (EvalM.store t key v) fun _ m' => m'.stack = m.stack := by
  have hs := (steps_singleton c i m).trans h
  have hx := EvalM.store_run t key v m
  have hstack := m.stored_stack t key v
  rcases hr : m.stored t key v with ⟨r | r, m'⟩
  · rw [hr] at hs hx
    exact .fault hs hx
  · rw [hr] at hs hx hstack
    exact .ok hs hx hstack

/-- The store picked for an entry and for where its value is found. -/
theorem store_implements {p : UInt8 × Bool} {u : Unit} (h : (store e p.1 p.2).run g = .ok (u, g')) :
    g'.top = g.top ∧ ∃ is, Grows g is g' ∧ ∀ c m t key v, e.Place c m t key → Finds c m p v →
      Yields c is m (EvalM.store t key v) fun _ m' => m'.stack = m.stack := by
  cases e with
  | index s key =>
      obtain ⟨hgrows, ht⟩ := emit_grows h
      refine ⟨ht, _, hgrows, fun c m t key v hp hv => yields_stored ?_⟩
      cases hp with
      | index hn hk hs hkey =>
          rw [step_setTable, ExecM.run_bind_ok (slot_run (by rw [toNat_ofInt hn, hs]))]
          exact setIn_run (slot_run (by rw [toNat_ofInt hk, hkey])) hv.run
  | field s key =>
      obtain ⟨hgrows, ht⟩ := emit_grows h
      refine ⟨ht, _, hgrows, fun c m t key v hp hv => yields_stored ?_⟩
      cases hp with
      | field hn hk hs hkey =>
          rw [step_setField, ExecM.run_bind_ok (slot_run (by rw [toNat_ofInt hn, hs]))]
          exact setIn_run (constant_run (by rw [toNat_ofInt hk, hkey]) m) hv.run
  | element s key =>
      obtain ⟨hgrows, ht⟩ := emit_grows h
      refine ⟨ht, _, hgrows, fun c m t key v hp hv => yields_stored ?_⟩
      cases hp with
      | element hn h0 h255 hs =>
          rw [step_setInt, ExecM.run_bind_ok (slot_run (by rw [toNat_ofInt hn, hs])), smallInt_ofInt h0 h255]
          exact setIn_run (run_pure _ m) hv.run
  | nil | bool | int | float | str | slot | global | other =>
      obtain ⟨-, rfl⟩ := run_pure_ok.mp h
      exact ⟨rfl, [], .refl _, fun c m t key v hp => by cases hp⟩

theorem checkKey_ok {pos : Position} {u : Unit} (h : (checkKey e pos).run g = .ok (u, g')) : g' = g := by
  unfold checkKey at h
  split at h
  · exact absurd h run_fail_ok
  · split at h
    · exact absurd h run_fail_ok
    · exact (run_pure_ok.mp h).2
  · exact (run_pure_ok.mp h).2

/-- Storing a value in an entry whose table and key are known. -/
theorem Leaves.store {target : Operand} {pos : Position} {p : UInt8 × Bool} {u : Unit} {g₂ : Gen} (h : Leaves g x e g₁)
    (hg : Ready g) (hb : target.Below g.top) (hc : (Gen.constantOrSlot e pos).run g₁ = .ok (p, g₂))
    (hs : (Gen.store target p.1 p.2).run g₂ = .ok (u, g')) :
    g.top ≤ g'.top ∧ g'.top ≤ maxSlots ∧ ∃ is, Grows g is g' ∧ ∀ c m t key, Covers c g' → g.top ≤ m.stack.size →
      target.Place c m t key →
      Yields c is m (do let v ← x (m.locals g.chunk.locals); EvalM.store t key v) fun _ m' => Framed g g' m m' := by
  obtain ⟨hready₂, htop₂, is₂, hgrows₂, hyield₂⟩ := h.constantOrSlot hg hc
  obtain ⟨htop, is₃, hgrows₃, hyield₃⟩ := store_implements hs
  rw [htop]
  refine ⟨htop₂, hready₂.top_le, is₂ ++ is₃, hgrows₂.trans hgrows₃, fun c m t key hc hm hp => ?_⟩
  refine (hyield₂ c m (hc.of_grows hgrows₃) hm).bind ?_
  rintro v m₂ ⟨hframe, hfinds⟩
  refine (hyield₃ c m₂ t key v (hp.of_agrees hb hframe.1) hfinds).mono ?_
  intro _ m₃ hstack
  refine ⟨fun i hi => by rw [hstack]; exact hframe.1 i hi, ?_⟩
  rw [hstack, htop]
  exact hframe.2

/-- An entry with an explicit key, of the table in a slot below the top. -/
theorem Leaves.storeEntry {y : Locals → EvalM Value} {table : Nat} {entry assign last : Position} {value : GenM Operand}
    {u : Unit} (h : Leaves g x e g₁) (hg : Ready g) (ht : table < g.top)
    (hv : ∀ {g₂ g₃ : Gen} {e' : Operand}, Ready g₂ → value.run g₂ = .ok (e', g₃) → Leaves g₂ y e' g₃)
    (hr : (storeEntry table e entry assign value last g.top).run g₁ = .ok (u, g')) :
    Ready g' ∧ g'.top = g.top ∧ ∃ is, Grows g is g' ∧ ∀ c m id, Covers c g' → g.top ≤ m.stack.size →
      m.stack[table]? = some (.table id) →
      Yields c is m
        (do
          let k ← x (m.locals g.chunk.locals)
          let v ← y (m.locals g.chunk.locals)
          EvalM.store (.table id) k v)
        fun _ m' => Framed g g' m m' := by
  obtain ⟨_, _, hcheck, hr₁⟩ := run_bind_ok hr
  rw [checkKey_ok hcheck] at hr₁
  obtain ⟨target, g₂, hindex, hr₂⟩ := run_bind_ok hr₁
  obtain ⟨hready₂, hindexes, is₂, hgrows₂, hyield₂⟩ := h.indexBy hg ht hindex
  obtain ⟨e', g₃, hvalue, hr₃⟩ := run_bind_ok hr₂
  obtain ⟨p, g₄, hconst, hr₄⟩ := run_bind_ok hr₃
  obtain ⟨_, g₅, hstore, hr₅⟩ := run_bind_ok hr₄
  obtain ⟨htop₅, -, is₅, hgrows₅, hyield₅⟩ :=
    (hv hready₂ hvalue).store hready₂ (hindexes.below hg ht) hconst hstore
  obtain rfl := run_modify_ok.mp hr₅
  have hgrows₆ : Grows g₅ [] { g₅ with top := g.top } := .of_chunk_eq rfl
  have hgrows := hgrows₂.trans (hgrows₅.trans hgrows₆)
  rw [List.append_nil] at hgrows
  refine ⟨hgrows.ready hg hg.locals_le_top hg.top_le, rfl, is₂ ++ is₅, hgrows, fun c m id hc hm htable => ?_⟩
  have hc₅ : Covers c g₅ := hc.of_grows hgrows₆
  refine (hyield₂ c m _ (hc₅.of_grows hgrows₅) hm htable).bind ?_
  rintro k m₂ ⟨hframe₂, hplace⟩
  rw [← hframe₂.locals hg hgrows₂.locals]
  refine (hyield₅ c m₂ _ k hc₅ hframe₂.2 hplace).mono fun _ m₅ hframe₅ => ?_
  exact ⟨hframe₂.1.trans (hframe₅.1.mono hindexes.top_le),
    Nat.le_trans hindexes.top_le (Nat.le_trans htop₅ hframe₅.2)⟩

/-- From `g` to `g'` the generator has added code for the table and the key `x`, of which `e` is the entry. -/
structure Locates (g : Gen) (x : Locals → EvalM (Value × Value)) (e : Operand) (g' : Gen) : Prop where
  ready : Ready g'
  isEntry : e.IsEntry
  occupies : Occupies g g' e
  code : Implements g x (fun c p m' => e.Place c m' p.1 p.2) g'

theorem Locates.leaves {y : Locals → EvalM (Value × Value)} (h : Locates g y e g') :
    Leaves g (fun locals => do let p ← y locals; EvalM.index p.1 p.2) e g' := by
  obtain ⟨is, hgrows, hyield⟩ := h.code
  refine ⟨h.ready, h.occupies, is, hgrows, fun c m hc hm => .place ?_⟩
  exact (hyield c m hc hm).mono fun p m' hp => ⟨hp.2, hp.1⟩

end MiniLua.Gen

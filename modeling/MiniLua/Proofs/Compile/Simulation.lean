import MiniLua.Proofs.Compile.Generation
import MiniLua.Proofs.Machine.Locals

/-!
Code against evaluation. An operand stands for a value that is read off the machine later; code that yields a value
agrees with an evaluation when both end alike and leave the same world.
-/

namespace MiniLua

open ExecM

theorem toNat_ofInt {n : Nat} (h : n < 256) : (UInt8.ofInt (n : Int)).toNat = n := by
  simp [UInt8.ofInt]
  omega

theorem toNat_toUInt8 {n : Nat} (h : n < 256) : n.toUInt8.toNat = n := by
  simp
  omega

theorem smallInt_ofInt {i : Int64} (h : 0 ≤ i.toInt) (h' : i.toInt ≤ 255) : smallInt (UInt8.ofInt i.toInt) = .int i := by
  obtain ⟨n, hn⟩ := Int.eq_ofNat_of_zero_le h
  rw [smallInt, hn, toNat_ofInt (by omega)]
  congr 1
  apply Int64.toInt.inj
  rw [Int64.toInt_ofNat_of_lt (by omega), hn]

namespace Machine

/-- The entry of a value under a key; only a table has entries. -/
def entry (m : Machine) (t key : Value) : Except Fault Value :=
  match t with
  | .table id => .ok ((m.table id).get byteHash key)
  | _ => .error (.runtime (.notIndexable t.kind))

/-- The outcome of storing a value; the table is looked at before the key. -/
def stored (m : Machine) (t key v : Value) : Except Fault Unit × Machine :=
  match t with
  | .table id =>
    match (m.table id).set byteHash key v with
    | .ok t' => (.ok (), m.setTable id t')
    | .error fault => (.error (.runtime (.badKey fault)), m)
  | _ => (.error (.runtime (.notIndexable t.kind)), m)

theorem stored_stack (m : Machine) (t key v : Value) : (m.stored t key v).2.stack = m.stack := by
  unfold stored
  split
  · split <;> rfl
  · rfl

end Machine

namespace EvalM

theorem index_run (t key : Value) (m : Machine) : (index t key).run m.world = (m.entry t key, m.world) := by
  cases t <;> rfl

theorem store_run (t key v : Value) (m : Machine) :
    (store t key v).run m.world = ((m.stored t key v).1, (m.stored t key v).2.world) := by
  cases t with
  | table id =>
      change ExceptT.run (match (m.table id).set byteHash key v with
        | .ok t' => setTable id t'
        | .error fault => fail (.badKey fault)) m.world = _
      simp only [Machine.stored]
      cases (m.table id).set byteHash key v <;> rfl
  | nil | bool | int | float | native | str => rfl

end EvalM

/-- Reads a value from where an instruction finds it: among the constants or on the stack. -/
def ExecM.fetch (c : Chunk) (p : UInt8 × Bool) : ExecM Value := if p.2 then constant c p.1 else slot p.1

def Finds (c : Chunk) (m : Machine) (p : UInt8 × Bool) (v : Value) : Prop :=
  (if p.2 then c.constants[p.1.toNat]? else m.stack[p.1.toNat]?) = some v

theorem Finds.run {c : Chunk} {m : Machine} {p : UInt8 × Bool} {v : Value} (h : Finds c m p v) :
    (fetch c p).run m = (.ok v, m) := by
  obtain ⟨b, isConst⟩ := p
  cases isConst with
  | true => exact constant_run h m
  | false => exact slot_run h

theorem ExecM.step_setTable (k : Chunk) (a b c : UInt8) (isConst : Bool) :
    step k { op := (if isConst then Opcode.setTableConst else .setTable).code, a, b, c } = (do
      let t ← slot a
      let id ← tableOf t
      let key ← slot b
      setIn id key (← fetch k (c, isConst))) := by
  cases isConst <;> rfl

theorem ExecM.step_setField (k : Chunk) (a b c : UInt8) (isConst : Bool) :
    step k { op := (if isConst then Opcode.setFieldConst else .setField).code, a, b, c } = (do
      let t ← slot a
      let id ← tableOf t
      let key ← constant k b
      setIn id key (← fetch k (c, isConst))) := by
  cases isConst <;> rfl

theorem ExecM.step_setInt (k : Chunk) (a b c : UInt8) (isConst : Bool) :
    step k { op := (if isConst then Opcode.setIntConst else .setInt).code, a, b, c } = (do
      let t ← slot a
      let id ← tableOf t
      setIn id (smallInt b) (← fetch k (c, isConst))) := by
  cases isConst <;> rfl

theorem ExecM.step_setGlobal (k : Chunk) (a b : UInt8) (isConst : Bool) :
    step k { op := (if isConst then Opcode.setGlobalConst else .setGlobal).code, a, b } = (do
      let name ← nameOf (← constant k a)
      let v ← fetch k (b, isConst)
      modify (·.setGlobal name v)) := by
  cases isConst <;> rfl

theorem ExecM.setIn_run {t key v : Value} {m : Machine} {x y : ExecM Value} (hx : x.run m = (.ok key, m))
    (hy : y.run m = (.ok v, m)) :
    (do let id ← tableOf t; let k ← x; setIn id k (← y) : ExecM Unit).run m = m.stored t key v := by
  cases t with
  | table id =>
      rw [run_bind_ok (show (tableOf (.table id)).run m = (.ok id, m) from rfl), run_bind_ok hx, run_bind_ok hy]
      change ExceptT.run (match (m.table id).set byteHash key v with
        | .ok t => set (m.setTable id t)
        | .error fault => fail (.badKey fault)) m = _
      simp only [Machine.stored]
      cases (m.table id).set byteHash key v <;> rfl
  | nil | bool | int | float | native | str => rfl

namespace Operand

variable (c : Chunk) (m : Machine)

/-- An operand that names an entry: its table and its key. -/
inductive Place : Operand → Value → Value → Prop
  | index {n k : Nat} {t key : Value} (hn : n < 256) (hk : k < 256) (ht : m.stack[n]? = some t)
      (hkey : m.stack[k]? = some key) : Place (.index n k) t key
  | field {n k : Nat} {t key : Value} (hn : n < 256) (hk : k < 256) (ht : m.stack[n]? = some t)
      (hkey : c.constants[k]? = some key) : Place (.field n k) t key
  | element {n : Nat} {i : Int64} {t : Value} (hn : n < 256) (h0 : 0 ≤ i.toInt) (h255 : i.toInt ≤ 255)
      (ht : m.stack[n]? = some t) : Place (.element n i.toInt) t (.int i)

def IsEntry : Operand → Prop
  | .index .. | .field .. | .element .. => True
  | _ => False

/-- The slots that an operand mentions lie below `n`. -/
def Below (n : Nat) : Operand → Prop
  | .slot s | .field s _ | .element s _ => s < n
  | .index s key => s < n ∧ key < n
  | _ => True

/-- What an operand stands for, read off the machine. -/
inductive Denotes : Operand → Except Fault Value → Prop
  | literal {e : Operand} {v : Value} (h : e.literal? = some v) : Denotes e (.ok v)
  | slot {n : Nat} {v : Value} (hn : n < 256) (hv : m.stack[n]? = some v) : Denotes (.slot n) (.ok v)
  | global {k : Nat} {name : Bytes} (hk : k < 256) (h : c.constants[k]? = some (.ofBytes name)) :
      Denotes (.global k) (.ok (m.getGlobal name))
  | place {e : Operand} {t key : Value} (h : Place c m e t key) : Denotes e (m.entry t key)

variable {c m}

theorem Place.of_agrees {e : Operand} {t key : Value} (h : Place c m e t key) {n : Nat} {m' : Machine} (hb : e.Below n)
    (ha : m.Agrees n m') : Place c m' e t key := by
  cases h with
  | index hn hk ht hkey =>
      obtain ⟨hs, hs'⟩ := hb
      exact .index hn hk (by rw [ha _ (by omega), ht]) (by rw [ha _ (by omega), hkey])
  | field hn hk ht hkey => exact .field hn hk (by rw [ha _ (Int.ofNat_lt.mp hb), ht]) hkey
  | element hn h0 h255 ht => exact .element hn h0 h255 (by rw [ha _ (Int.ofNat_lt.mp hb), ht])

/-- The outcome of reading an operand into a slot. -/
def placed (m : Machine) (dst : Nat) : Except Fault Value → Except Fault Unit × Machine
  | .ok v => (.ok (), m.write dst v)
  | .error f => (.error f, m)

theorem nameOf_run (name : Bytes) (m : Machine) : (nameOf (.ofBytes name)).run m = (.ok name, m) := by
  simp only [Value.ofBytes, nameOf, Str.bytes_ofBytes, run_pure]

theorem fetch_run {t key : Value} {m : Machine} {x : ExecM Value} (hx : x.run m = (.ok key, m)) {dst : UInt8}
    (h : dst.toNat ≤ m.stack.size) :
    (do let id ← tableOf t; let k ← x; setSlot dst (← getIn id k) : ExecM Unit).run m =
      placed m dst.toNat (m.entry t key) := by
  cases t with
  | table id =>
      rw [run_bind_ok (show (tableOf (.table id)).run m = (.ok id, m) from rfl), run_bind_ok hx]
      exact setSlot_run h _
  | nil | bool | int | float | native | str => rfl

theorem Place.plan_runs {e : Operand} {t key : Value} (h : Place c m e t key) {dst : UInt8}
    (hs : dst.toNat ≤ m.stack.size) {pool pool' : Chunk} {code : List Instruction}
    (hp : e.plan dst pool = .ok (code, pool')) :
    (steps c code).run m = placed m dst.toNat (m.entry t key) := by
  cases h with
  | index hn hk ht hkey =>
      cases hp
      rw [steps_singleton]
      simp only [step, Instruction.opcode?, Opcode.ofCode?_code]
      rw [run_bind_ok (slot_run (by rw [toNat_ofInt hn, ht]))]
      exact fetch_run (slot_run (by rw [toNat_ofInt hk, hkey])) hs
  | field hn hk ht hkey =>
      cases hp
      rw [steps_singleton]
      simp only [step, Instruction.opcode?, Opcode.ofCode?_code]
      rw [run_bind_ok (slot_run (by rw [toNat_ofInt hn, ht]))]
      exact fetch_run (constant_run (by rw [toNat_ofInt hk, hkey]) m) hs
  | element hn h0 h255 ht =>
      cases hp
      rw [steps_singleton]
      simp only [step, Instruction.opcode?, Opcode.ofCode?_code]
      rw [run_bind_ok (slot_run (by rw [toNat_ofInt hn, ht])), smallInt_ofInt h0 h255]
      exact fetch_run (run_pure _ m) hs

theorem loadConstant_runs {v : Value} {dst : UInt8} (hs : dst.toNat ≤ m.stack.size) {pool pool' : Chunk}
    {code : List Instruction} (hp : loadConstant v dst pool = .ok (code, pool'))
    (hle : pool.constants.size ≤ Chunk.maxConstants)
    (hc : ∀ (k : Nat) v, pool'.constants[k]? = some v → c.constants[k]? = some v) :
    (steps c code).run m = (.ok (), m.write dst.toNat v) := by
  unfold loadConstant at hp
  split at hp
  · next k pool₁ hk =>
    cases hp
    obtain ⟨hv, -, -, -, hsize⟩ := Chunk.addConstant_some hk
    have hlt : k < 256 := Nat.lt_of_lt_of_le (Array.getElem?_eq_some_iff.mp hv).1 (hsize hle)
    rw [steps_singleton]
    simp only [step, Instruction.opcode?, Opcode.ofCode?_code]
    rw [run_bind_ok (constant_run (by rw [toNat_toUInt8 hlt]; exact hc k v hv) m)]
    exact setSlot_run hs v
  · cases hp

/-- The instructions that place an operand do what it stands for. -/
theorem Denotes.plan_runs {e : Operand} {r : Except Fault Value} (h : Denotes c m e r) {dst : UInt8}
    (hs : dst.toNat ≤ m.stack.size) {pool pool' : Chunk} {code : List Instruction}
    (hp : e.plan dst pool = .ok (code, pool')) (hle : pool.constants.size ≤ Chunk.maxConstants)
    (hc : ∀ (k : Nat) v, pool'.constants[k]? = some v → c.constants[k]? = some v) :
    (steps c code).run m = placed m dst.toNat r := by
  cases h with
  | literal h =>
      cases e with
      | bool b =>
          cases h; cases hp
          rw [steps_singleton]
          simp only [step, Instruction.opcode?, Opcode.ofCode?_code]
          cases b <;> exact setSlot_run hs _
      | nil | int =>
          cases h; cases hp
          rw [steps_singleton]
          simp only [step, Instruction.opcode?, Opcode.ofCode?_code]
          exact setSlot_run hs _
      | float | str =>
          cases h
          exact loadConstant_runs hs hp hle hc
      | slot | global | index | field | element | other => cases h
  | @slot n v hn hv =>
      simp only [plan] at hp
      split at hp
      · next he =>
        cases hp
        have hd : dst.toNat = n := by omega
        rw [placed, hd, Machine.write_self hv]
        rfl
      · cases hp
        rw [steps_singleton]
        simp only [step, Instruction.opcode?, Opcode.ofCode?_code]
        rw [run_bind_ok (slot_run (by rw [toNat_ofInt hn, hv]))]
        exact setSlot_run hs v
  | global hk h =>
      cases hp
      rw [steps_singleton]
      simp only [step, Instruction.opcode?, Opcode.ofCode?_code]
      rw [run_bind_ok (constant_run (by rw [toNat_ofInt hk, h]) m), run_bind_ok (nameOf_run _ m)]
      exact setSlot_run hs _
  | place h => exact h.plan_runs hs hp

theorem Denotes.eq_of_literal {e : Operand} {v : Value} {r : Except Fault Value} (h : Denotes c m e r)
    (he : e.literal? = some v) : r = .ok v := by
  cases h with
  | literal h => rw [Option.some.inj (he.symm.trans h)]
  | slot | global => cases he
  | place h => cases h <;> cases he

end Operand

/-- The code ends like the evaluation, both with the same fault or both well and with `Q`, and in the same world. -/
inductive Yields {α : Type} (c : Chunk) (is : List Instruction) (m : Machine) (x : EvalM α) (Q : α → Machine → Prop) :
    Prop
  | ok {m' : Machine} {a : α} (hs : (steps c is).run m = (.ok (), m')) (hx : x.run m.world = (.ok a, m'.world))
      (hQ : Q a m') : Yields c is m x Q
  | fault {m' : Machine} {f : Fault} (hs : (steps c is).run m = (.error f, m'))
      (hx : x.run m.world = (.error f, m'.world)) : Yields c is m x Q

/-- The code does the evaluation up to the reading of an operand. -/
inductive Computes (c : Chunk) (is : List Instruction) (m : Machine) (x : EvalM Value) (e : Operand)
    (Q : Machine → Prop) : Prop
  | ok {m' : Machine} {r : Except Fault Value} (hs : (steps c is).run m = (.ok (), m')) (he : e.Denotes c m' r)
      (hx : x.run m.world = (r, m'.world)) (hQ : Q m') : Computes c is m x e Q
  | fault {m' : Machine} {f : Fault} (hs : (steps c is).run m = (.error f, m'))
      (hx : x.run m.world = (.error f, m'.world)) : Computes c is m x e Q

section

variable {α β : Type} {c : Chunk} {is js : List Instruction} {m : Machine}

theorem steps_append_ok {m' : Machine} (h : (steps c is).run m = (.ok (), m')) :
    (steps c (is ++ js)).run m = (steps c js).run m' := by
  rw [steps_append, h]

theorem steps_append_error {m' : Machine} {f : Fault} (h : (steps c is).run m = (.error f, m')) :
    (steps c (is ++ js)).run m = (.error f, m') := by
  rw [steps_append, h]

namespace Yields

variable {x : EvalM α} {Q R : α → Machine → Prop}

theorem pure {a : α} (h : Q a m) : Yields c [] m (Pure.pure a) Q := .ok rfl rfl h

theorem mono (h : Yields c is m x Q) (hQ : ∀ a m', Q a m' → R a m') : Yields c is m x R := by
  cases h with
  | ok hs hx h => exact .ok hs hx (hQ _ _ h)
  | fault hs hx => exact .fault hs hx

theorem bind {f : α → EvalM β} {R : β → Machine → Prop} (h : Yields c is m x Q)
    (hf : ∀ a m', Q a m' → Yields c js m' (f a) R) : Yields c (is ++ js) m (x >>= f) R := by
  cases h with
  | fault hs hx => exact .fault (steps_append_error hs) (EvalM.run_bind_error hx)
  | ok hs hx hQ =>
      cases hf _ _ hQ with
      | ok hs' hx' hR => exact .ok ((steps_append_ok hs).trans hs') ((EvalM.run_bind_ok hx).trans hx') hR
      | fault hs' hx' => exact .fault ((steps_append_ok hs).trans hs') ((EvalM.run_bind_ok hx).trans hx')

/-- The rest of the evaluation needs no code. -/
theorem map {f : α → β} {R : β → Machine → Prop} (h : Yields c is m x Q) (hf : ∀ a m', Q a m' → R (f a) m') :
    Yields c is m (do return f (← x)) R := by
  have hpure (a : α) (m' : Machine) (hQ : Q a m') : Yields c [] m' (Pure.pure (f a)) R := .pure (hf a m' hQ)
  have hbind := h.bind hpure
  rwa [List.append_nil] at hbind

end Yields

namespace Computes

variable {x : EvalM Value} {e : Operand} {Q : Machine → Prop}

/-- The operand stands for the value of the evaluation. -/
theorem of_yields (h : Yields c is m x fun v m' => e.Denotes c m' (.ok v) ∧ Q m') : Computes c is m x e Q := by
  cases h with
  | ok hs hx h => exact .ok hs h.1 hx h.2
  | fault hs hx => exact .fault hs hx

/-- Placing the operand finishes the evaluation. -/
theorem plan (h : Computes c is m x e Q) {dst : UInt8} {pool pool' : Chunk} {code : List Instruction}
    (hp : e.plan dst pool = .ok (code, pool')) (hle : pool.constants.size ≤ Chunk.maxConstants)
    (hc : ∀ (k : Nat) v, pool'.constants[k]? = some v → c.constants[k]? = some v)
    (hs : ∀ m', Q m' → dst.toNat ≤ m'.stack.size) :
    Yields c (is ++ code) m x fun v m'' => ∃ m', Q m' ∧ m'' = m'.write dst.toNat v := by
  cases h with
  | fault hs hx => exact .fault (steps_append_error hs) hx
  | @ok m' r hs' he hx hQ =>
      have hrun := (steps_append_ok hs').trans (he.plan_runs (hs m' hQ) hp hle hc)
      cases r with
      | ok v => exact .ok hrun hx ⟨m', hQ, rfl⟩
      | error f => exact .fault hrun hx

/-- A literal is its value already. -/
theorem literal {v : Value} (h : Computes c is m x e Q) (he : e.literal? = some v) :
    Yields c is m x fun a m' => a = v ∧ Q m' := by
  cases h with
  | fault hs hx => exact .fault hs hx
  | ok hs hd hx hQ =>
      rw [hd.eq_of_literal he] at hx
      exact .ok hs hx ⟨rfl, hQ⟩

/-- A slot holds its value already. -/
theorem slot {n : Nat} (h : Computes c is m x (.slot n) Q) : Yields c is m x fun a m' => m'.stack[n]? = some a ∧ Q m' := by
  cases h with
  | fault hs hx => exact .fault hs hx
  | ok hs hd hx hQ =>
      generalize he : Operand.slot n = e at hd
      cases hd with
      | slot hn hv =>
          cases he
          exact .ok hs hx ⟨hv, hQ⟩
      | literal h => subst he; cases h
      | global => cases he
      | place h => cases h <;> cases he

/-- A global is read last. -/
theorem global {key : Int} (h : Computes c is m x (.global key) Q) :
    Yields c is m x fun v m' => (∃ (k : Nat) (name : Bytes), key = k ∧ k < 256 ∧
      c.constants[k]? = some (.ofBytes name) ∧ v = m'.getGlobal name) ∧ Q m' := by
  cases h with
  | fault hs hx => exact .fault hs hx
  | ok hs hd hx hQ =>
      generalize he : Operand.global key = e at hd
      cases hd with
      | global hk hname =>
          cases he
          exact .ok hs hx ⟨⟨_, _, rfl, hk, hname, rfl⟩, hQ⟩
      | literal h => subst he; cases h
      | slot => cases he
      | place h => cases h <;> cases he

/-- An entry is read when its table and its key are known. -/
theorem place {y : EvalM (Value × Value)} (h : Yields c is m y fun p m' => e.Place c m' p.1 p.2 ∧ Q m') :
    Computes c is m (do let p ← y; EvalM.index p.1 p.2) e Q := by
  cases h with
  | fault hs hx => exact .fault hs (EvalM.run_bind_error hx)
  | @ok m' p hs hx hQ =>
      exact .ok hs (.place hQ.1) ((EvalM.run_bind_ok hx).trans (EvalM.index_run p.1 p.2 m')) hQ.2

end Computes

end

end MiniLua

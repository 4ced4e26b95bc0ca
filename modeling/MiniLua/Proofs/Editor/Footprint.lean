import MiniLua.Editor.Analysis
import MiniLua.Proofs.Machine.Natives

/-!
What a chunk can see of the globals: two machines that agree on the names that the analysis finds in a chunk cannot be told
apart by running it, and all other globals stay as they are. Natives must leave the globals alone.
-/

namespace MiniLua

/-- The native neither reads nor writes globals. -/
def Act.GlobalFree {α : Type} : Act α → Prop
  | .done _ | .raise _ | .misuse _ => True
  | .getGlobal _ _ | .setGlobal _ _ _ => False
  | .callSlot next | .argCount next | .stackSize next => ∀ n, (next n).GlobalFree
  | .arg _ next => ∀ v, (next v).GlobalFree
  | .push _ next => next.GlobalFree
  | .write _ next => ∀ reason, (next reason).GlobalFree
  | .inspect _ next => ∀ text, (next text).GlobalFree

namespace Act.GlobalFree

variable {α β : Type}

theorem bind {a : Act α} {f : α → Act β} (ha : a.GlobalFree) (hf : ∀ x, (f x).GlobalFree) : (a.bind f).GlobalFree := by
  induction a with
  | done x => exact hf x
  | raise | misuse => trivial
  | getGlobal | setGlobal => exact ha.elim
  | callSlot next ih | argCount next ih | arg i next ih | stackSize next ih | write bs next ih | inspect v next ih =>
      exact fun x => ih x (ha x)
  | push v next ih => exact ih ha

theorem args (first count : Nat) : (Act.args first count).GlobalFree := by
  induction count generalizing first with
  | zero => trivial
  | succ count ih => exact fun v => (ih (first + 1)).bind fun _ => trivial

end Act.GlobalFree

theorem Print.native_globalFree : Print.native.body.GlobalFree := by
  have hwrite (bs : List Bytes) : (Print.writeAll bs).GlobalFree := by
    induction bs with
    | nil => trivial
    | cons b rest ih =>
        intro reason
        cases reason with
        | none => exact ih
        | some reason => trivial
  exact fun n => (Act.GlobalFree.args 0 n).bind fun values => hwrite _

namespace Machine

theorem getGlobal_eq (m : Machine) (name : Bytes) : m.getGlobal name = m.globals[name]?.getD .nil :=
  Std.ExtTreeMap.getD_eq_getD_getElem?

theorem globals_setGlobal (m : Machine) (name other : Bytes) (v : Value) :
    (m.setGlobal name v).globals[other]? = if name = other then some v else m.globals[other]? := by
  simp only [setGlobal, Std.ExtTreeMap.getElem?_insert, Std.compare_eq_iff_eq]

/-- Two machines in the middle of two runs that began with the globals `g₁` and `g₂`. They agree in all but their globals
and their last calls; their globals agree on `names` and are elsewhere what they were. -/
structure Alike (names : List Bytes) (g₁ g₂ : Std.ExtTreeMap Bytes Value) (m₁ m₂ : Machine) : Prop where
  tables : m₁.tables = m₂.tables
  natives : m₁.natives = m₂.natives
  stack : m₁.stack = m₂.stack
  out : m₁.out = m₂.out
  quiet : ∀ native ∈ m₁.natives, native.body.GlobalFree
  agree : ∀ name ∈ names, m₁.getGlobal name = m₂.getGlobal name
  /-- A name that is a global in both or in neither stays so. -/
  shared : ∀ name ∈ names, g₁[name]? = g₂[name]? → m₁.globals[name]? = m₂.globals[name]?
  kept : ∀ name ∉ names, m₁.globals[name]? = g₁[name]? ∧ m₂.globals[name]? = g₂[name]?

namespace Alike

variable {names : List Bytes} {g₁ g₂ : Std.ExtTreeMap Bytes Value} {m₁ m₂ : Machine}

theorem setStack (h : Alike names g₁ g₂ m₁ m₂) (stack : Array Value) :
    Alike names g₁ g₂ { m₁ with stack } { m₂ with stack } :=
  ⟨h.tables, h.natives, rfl, h.out, h.quiet, h.agree, h.shared, h.kept⟩

theorem setTables (h : Alike names g₁ g₂ m₁ m₂) (tables : Array Table) :
    Alike names g₁ g₂ { m₁ with tables } { m₂ with tables } :=
  ⟨rfl, h.natives, h.stack, h.out, h.quiet, h.agree, h.shared, h.kept⟩

theorem setTable (h : Alike names g₁ g₂ m₁ m₂) (id : Nat) (t : Table) :
    Alike names g₁ g₂ (m₁.setTable id t) (m₂.setTable id t) := by
  rw [Machine.setTable, Machine.setTable, h.tables]
  exact h.setTables _

theorem setOut (h : Alike names g₁ g₂ m₁ m₂) (out : Sink) : Alike names g₁ g₂ { m₁ with out } { m₂ with out } :=
  ⟨h.tables, h.natives, h.stack, rfl, h.quiet, h.agree, h.shared, h.kept⟩

theorem enter (h : Alike names g₁ g₂ m₁ m₂) (fn argCount : Nat) :
    Alike names g₁ g₂ (ExecM.enter m₁ fn argCount) (ExecM.enter m₂ fn argCount) :=
  ⟨h.tables, h.natives, h.stack, h.out, h.quiet, h.agree, h.shared, h.kept⟩

theorem setGlobal (h : Alike names g₁ g₂ m₁ m₂) {name : Bytes} (hname : name ∈ names) (v : Value) :
    Alike names g₁ g₂ (m₁.setGlobal name v) (m₂.setGlobal name v) := by
  refine ⟨h.tables, h.natives, h.stack, h.out, h.quiet, fun other hother => ?_, fun other hother heq => ?_,
    fun other hother => ?_⟩
  · have hagree := h.agree other hother
    rw [getGlobal_eq, getGlobal_eq] at hagree ⊢
    rw [globals_setGlobal, globals_setGlobal]
    split
    · rfl
    · exact hagree
  · rw [globals_setGlobal, globals_setGlobal, h.shared other hother heq]
  · have hne : name ≠ other := fun heq => hother (heq ▸ hname)
    rw [globals_setGlobal, globals_setGlobal, if_neg hne, if_neg hne]
    exact h.kept other hother

theorem table_eq (h : Alike names g₁ g₂ m₁ m₂) (id : Nat) : m₁.table id = m₂.table id := by
  rw [table, table, h.tables]

theorem moveList (h : Alike names g₁ g₂ m₁ m₂) (id n : Nat) (vs : List Value) :
    Alike names g₁ g₂ { m₁.setTable id ((m₁.table id).append byteHash vs) with stack := m₁.stack.extract 0 n }
      { m₂.setTable id ((m₂.table id).append byteHash vs) with stack := m₂.stack.extract 0 n } := by
  rw [h.table_eq, h.stack]
  exact (h.setTable id _).setStack _

theorem inspect_eq (h : Alike names g₁ g₂ m₁ m₂) (v : Value) : m₁.inspect v = m₂.inspect v := by
  cases v with
  | table id => rw [inspect, inspect, h.table_eq]
  | native id => rw [inspect, inspect, nativeName, nativeName, h.natives]
  | nil | bool | int | float | str => rfl

theorem arg_eq (h : Alike names g₁ g₂ m₁ m₂) (hslot : m₁.callSlot = m₂.callSlot) (hcount : m₁.argCount = m₂.argCount)
    (i : Int) : m₁.arg i = m₂.arg i := by
  rw [arg, arg, h.stack, hslot, hcount]

end Alike

end Machine

namespace ExecM

open Machine

variable {α β : Type} {names : List Bytes} {g₁ g₂ : Std.ExtTreeMap Bytes Value} {m₁ m₂ : Machine}

/-- Both runs come out alike. -/
def Agree (names : List Bytes) (g₁ g₂ : Std.ExtTreeMap Bytes Value) (r₁ r₂ : Except Fault α × Machine) : Prop :=
  r₁.1 = r₂.1 ∧ Alike names g₁ g₂ r₁.2 r₂.2

/-- Runs from machines that are alike come out alike. -/
def Respects (names : List Bytes) (g₁ g₂ : Std.ExtTreeMap Bytes Value) (x : ExecM α) : Prop :=
  ∀ m₁ m₂, Alike names g₁ g₂ m₁ m₂ → Agree names g₁ g₂ (x.run m₁) (x.run m₂)

theorem Agree.bind {x : ExecM α} {f : α → ExecM β} (h : Agree names g₁ g₂ (x.run m₁) (x.run m₂))
    (hf : ∀ a, Respects names g₁ g₂ (f a)) : Agree names g₁ g₂ ((x >>= f).run m₁) ((x >>= f).run m₂) := by
  obtain ⟨hresult, halike⟩ := h
  rw [run_bind, run_bind]
  rcases hr₁ : x.run m₁ with ⟨r₁, m₁'⟩
  rcases hr₂ : x.run m₂ with ⟨r₂, m₂'⟩
  rw [hr₁, hr₂] at hresult halike
  obtain rfl : r₁ = r₂ := hresult
  cases r₁ with
  | error fault => exact ⟨rfl, halike⟩
  | ok a => exact hf a m₁' m₂' halike

namespace Respects

theorem pure (a : α) : Respects names g₁ g₂ (Pure.pure a) := fun _ _ h => ⟨rfl, h⟩

theorem throw (fault : Fault) : Respects names g₁ g₂ (MonadExcept.throw fault : ExecM α) := fun _ _ h => ⟨rfl, h⟩

theorem bind {x : ExecM α} {f : α → ExecM β} (hx : Respects names g₁ g₂ x) (hf : ∀ a, Respects names g₁ g₂ (f a)) :
    Respects names g₁ g₂ (x >>= f) := fun m₁ m₂ h => (hx m₁ m₂ h).bind hf

/-- What is done with the machine may depend on the machine. -/
theorem get_bind {f : Machine → ExecM β}
    (hf : ∀ m₁ m₂, Alike names g₁ g₂ m₁ m₂ → Agree names g₁ g₂ ((f m₁).run m₁) ((f m₂).run m₂)) :
    Respects names g₁ g₂ (get >>= f) := fun m₁ m₂ h => hf m₁ m₂ h

theorem modify {f : Machine → Machine}
    (hf : ∀ m₁ m₂, Alike names g₁ g₂ m₁ m₂ → Alike names g₁ g₂ (f m₁) (f m₂)) :
    Respects names g₁ g₂ (modify f : ExecM PUnit) := fun m₁ m₂ h => ⟨rfl, hf m₁ m₂ h⟩

end Respects

theorem constant_respects (c : Chunk) (i : UInt8) : Respects names g₁ g₂ (constant c i) := by
  unfold constant
  split
  · exact .pure _
  · exact .throw _

theorem slot_respects (i : UInt8) : Respects names g₁ g₂ (slot i) := by
  refine .get_bind fun m₁ m₂ h => ?_
  dsimp only
  rw [h.stack]
  split
  · exact Respects.pure _ m₁ m₂ h
  · exact Respects.throw _ m₁ m₂ h

theorem tableOf_respects (v : Value) : Respects names g₁ g₂ (tableOf v) := by
  unfold tableOf
  split
  · exact .pure _
  · exact .throw _

theorem getIn_respects (id : Nat) (key : Value) : Respects names g₁ g₂ (getIn id key) := by
  refine .get_bind fun m₁ m₂ h => ?_
  rw [h.table_eq]
  exact Respects.pure _ m₁ m₂ h

theorem setSlot_respects (i : UInt8) (v : Value) : Respects names g₁ g₂ (setSlot i v) := by
  refine .get_bind fun m₁ m₂ h => ?_
  rw [h.stack]
  split
  · exact ⟨rfl, h.setStack _⟩
  · split
    · exact ⟨rfl, h.setStack _⟩
    · exact Respects.throw _ m₁ m₂ h

theorem setIn_respects (id : Nat) (key v : Value) : Respects names g₁ g₂ (setIn id key v) := by
  refine .get_bind fun m₁ m₂ h => ?_
  rw [h.table_eq]
  split
  · exact ⟨rfl, h.setTable id _⟩
  · exact Respects.throw _ m₁ m₂ h

theorem setList_respects (table count : Nat) : Respects names g₁ g₂ (setList table count) := by
  refine .get_bind fun m₁ m₂ h => ?_
  rw [h.stack]
  split
  · exact Respects.throw _ m₁ m₂ h
  · cases m₂.stack.getD table .nil with
    | table id => exact ⟨rfl, h.moveList id (table + 1) _⟩
    | nil | bool | int | float | native | str => exact Respects.throw _ m₁ m₂ h

/-- A native that leaves the globals alone sees the same in both machines. -/
theorem act_agree (a : Act α) (ha : a.GlobalFree) (h : Alike names g₁ g₂ m₁ m₂) (hslot : m₁.callSlot = m₂.callSlot)
    (hcount : m₁.argCount = m₂.argCount) : Agree names g₁ g₂ ((act a).run m₁) ((act a).run m₂) := by
  induction a generalizing m₁ m₂ with
  | done | raise | misuse => exact ⟨rfl, h⟩
  | getGlobal | setGlobal => cases ha
  | callSlot next ih =>
      change Agree _ _ _ ((act (next m₁.callSlot)).run m₁) ((act (next m₂.callSlot)).run m₂)
      rw [hslot]
      exact ih _ (ha _) h hslot hcount
  | argCount next ih =>
      change Agree _ _ _ ((act (next m₁.argCount)).run m₁) ((act (next m₂.argCount)).run m₂)
      rw [hcount]
      exact ih _ (ha _) h hslot hcount
  | arg i next ih =>
      change Agree _ _ _ ((act (next (m₁.arg i))).run m₁) ((act (next (m₂.arg i))).run m₂)
      rw [h.arg_eq hslot hcount]
      exact ih _ (ha _) h hslot hcount
  | stackSize next ih =>
      change Agree _ _ _ ((act (next m₁.stack.size)).run m₁) ((act (next m₂.stack.size)).run m₂)
      rw [h.stack]
      exact ih _ (ha _) h hslot hcount
  | push v next ih =>
      have hpush : Alike names g₁ g₂ { m₁ with stack := m₁.stack.push v } { m₂ with stack := m₂.stack.push v } := by
        rw [h.stack]
        exact h.setStack _
      exact ih ha hpush hslot hcount
  | write bs next ih =>
      have hwrite : Alike names g₁ g₂ { m₁ with out := (m₁.out.write bs).2 } { m₂ with out := (m₂.out.write bs).2 } := by
        rw [h.out]
        exact h.setOut _
      change Agree _ _ _ ((act (next (m₁.out.write bs).1)).run { m₁ with out := (m₁.out.write bs).2 })
        ((act (next (m₂.out.write bs).1)).run { m₂ with out := (m₂.out.write bs).2 })
      rw [show (m₁.out.write bs).1 = (m₂.out.write bs).1 by rw [h.out]]
      exact ih _ (ha _) hwrite hslot hcount
  | inspect v next ih =>
      change Agree _ _ _ ((act (next (m₁.inspect v))).run m₁) ((act (next (m₂.inspect v))).run m₂)
      rw [h.inspect_eq]
      exact ih _ (ha _) h hslot hcount

theorem call_respects (fn : UInt8) (argCount : Nat) : Respects names g₁ g₂ (call fn argCount) := by
  refine (slot_respects fn).bind fun v => ?_
  cases v with
  | native id =>
      refine .get_bind fun m₁ m₂ h => ?_
      have henter := h.enter fn.toNat argCount
      have hsame : m₂.natives[id]? = m₁.natives[id]? := by rw [h.natives]
      rw [hsame]
      cases hid : m₁.natives[id]? with
      | none => exact ⟨rfl, henter⟩
      | some native =>
          have hquiet := h.quiet native (Array.mem_of_getElem? hid)
          exact (act_agree native.body hquiet henter rfl rfl).bind fun _ => .pure _
  | nil | bool | int | float | str | table => exact .throw _

/-- What follows the reading of a name needs to respect names that are meant to be read. -/
theorem atName_respects {c : Chunk} {k : UInt8} {f : Bytes → ExecM α}
    (hf : ∀ name, Editor.stringConstant? c k = some name → Respects names g₁ g₂ (f name)) :
    Respects names g₁ g₂ (do let name ← nameOf (← constant c k); f name) := by
  unfold constant Editor.stringConstant? at *
  cases hk : c.constants[k.toNat]? with
  | none => exact fun m₁ m₂ h => ⟨rfl, h⟩
  | some v =>
      rw [hk] at hf
      cases v with
      | str s => exact fun m₁ m₂ h => hf s.bytes rfl m₁ m₂ h
      | nil | bool | int | float | native | table => exact fun m₁ m₂ h => ⟨rfl, h⟩

theorem atTable_respects {table : ExecM Value} (ht : Respects names g₁ g₂ table) {f : Nat → ExecM α}
    (hf : ∀ id, Respects names g₁ g₂ (f id)) : Respects names g₁ g₂ (do let id ← tableOf (← table); f id) :=
  ht.bind fun t => (tableOf_respects t).bind hf

/-- An instruction does the same in machines that agree on the globals it names. -/
theorem step_respects {c : Chunk} {i : Instruction}
    (hnames : ∀ k ∈ Editor.globalOperands i, ∀ name, Editor.stringConstant? c k = some name → name ∈ names) :
    Respects names g₁ g₂ (step c i) := by
  unfold Editor.globalOperands at hnames
  unfold step
  cases ho : i.opcode? with
  | none => exact .throw _
  | some o =>
      rw [ho] at hnames
      cases o with
      | loadNil | loadBool | loadInt => exact setSlot_respects _ _
      | loadConst => exact (constant_respects c i.b).bind fun v => setSlot_respects i.a v
      | move => exact (slot_respects i.b).bind fun v => setSlot_respects i.a v
      | getGlobal =>
          refine atName_respects fun name hname => .get_bind fun m₁ m₂ h => ?_
          rw [h.agree name (hnames i.b (by simp) name hname)]
          exact setSlot_respects i.a _ m₁ m₂ h
      | setGlobal =>
          refine atName_respects fun name hname => (slot_respects i.b).bind fun v => .modify fun m₁ m₂ h => ?_
          exact h.setGlobal (hnames i.a (by simp) name hname) v
      | setGlobalConst =>
          refine atName_respects fun name hname => (constant_respects c i.b).bind fun v => .modify fun m₁ m₂ h => ?_
          exact h.setGlobal (hnames i.a (by simp) name hname) v
      | setGlobalGlobal =>
          refine atName_respects fun name hname => atName_respects fun source hsource => .modify fun m₁ m₂ h => ?_
          rw [h.agree source (hnames i.b (by simp) source hsource)]
          exact h.setGlobal (hnames i.a (by simp) name hname) _
      | newTable =>
          refine .get_bind fun m₁ m₂ h => ?_
          rw [addTable, addTable, h.tables]
          exact (setSlot_respects i.a _ m₁ m₂ h).bind fun _ => .modify fun _ _ h' => h'.setTables _
      | setTable =>
          exact atTable_respects (slot_respects i.a) fun id => (slot_respects i.b).bind fun key =>
            (slot_respects i.c).bind fun v => setIn_respects id key v
      | setField =>
          exact atTable_respects (slot_respects i.a) fun id => (constant_respects c i.b).bind fun key =>
            (slot_respects i.c).bind fun v => setIn_respects id key v
      | setInt =>
          exact atTable_respects (slot_respects i.a) fun id =>
            (slot_respects i.c).bind fun v => setIn_respects id _ v
      | setTableConst =>
          exact atTable_respects (slot_respects i.a) fun id => (slot_respects i.b).bind fun key =>
            (constant_respects c i.c).bind fun v => setIn_respects id key v
      | setFieldConst =>
          exact atTable_respects (slot_respects i.a) fun id => (constant_respects c i.b).bind fun key =>
            (constant_respects c i.c).bind fun v => setIn_respects id key v
      | setIntConst =>
          exact atTable_respects (slot_respects i.a) fun id =>
            (constant_respects c i.c).bind fun v => setIn_respects id _ v
      | setList => exact setList_respects _ _
      | getTable =>
          exact atTable_respects (slot_respects i.b) fun id => (slot_respects i.c).bind fun key =>
            (getIn_respects id key).bind fun v => setSlot_respects i.a v
      | getField =>
          exact atTable_respects (slot_respects i.b) fun id => (constant_respects c i.c).bind fun key =>
            (getIn_respects id key).bind fun v => setSlot_respects i.a v
      | getInt =>
          exact atTable_respects (slot_respects i.b) fun id =>
            (getIn_respects id _).bind fun v => setSlot_respects i.a v
      | call => exact call_respects _ _

theorem steps_respects {c : Chunk} {is : List Instruction}
    (hnames : ∀ i ∈ is, ∀ k ∈ Editor.globalOperands i, ∀ name, Editor.stringConstant? c k = some name → name ∈ names) :
    Respects names g₁ g₂ (steps c is) := by
  induction is with
  | nil => exact .pure ()
  | cons i is ih =>
      obtain ⟨hi, his⟩ := List.forall_mem_cons.mp hnames
      exact (step_respects hi).bind fun _ => ih his

end ExecM

namespace Editor

/-- The analysis finds the names that instructions use, whatever their order. -/
theorem mem_globalNames {c : Chunk} {name : Bytes} :
    name ∈ globalNames c ↔ name ∈ (c.code.toList.flatMap globalOperands).filterMap (stringConstant? c) := by
  rw [globalNames, List.mem_eraseDups, List.mem_mergeSort]

theorem mem_globalNames_of_operand {c : Chunk} {i : Instruction} {k : UInt8} {name : Bytes} (hi : i ∈ c.code.toList)
    (hk : k ∈ globalOperands i) (hname : stringConstant? c k = some name) : name ∈ globalNames c :=
  mem_globalNames.mpr (List.mem_filterMap.mpr ⟨k, List.mem_flatMap.mpr ⟨i, hi, hk⟩, hname⟩)

/-- Executing the chunk brings machines that are alike to the same end. -/
theorem execute_alike {c : Chunk} {g₁ g₂ : Std.ExtTreeMap Bytes Value} {m₁ m₂ : Machine}
    (h : Machine.Alike (globalNames c) g₁ g₂ { m₁ with stack := #[] } { m₂ with stack := #[] }) :
    (m₁.execute c).1 = (m₂.execute c).1 ∧ Machine.Alike (globalNames c) g₁ g₂ (m₁.execute c).2 (m₂.execute c).2 := by
  obtain ⟨hresult, halike⟩ :=
    ExecM.steps_respects (fun i hi k hk name hname => mem_globalNames_of_operand hi hk hname) _ _ h
  unfold Machine.execute
  rcases hr₁ : (ExecM.steps c c.code.toList).run { m₁ with stack := #[] } with ⟨r₁, m₁'⟩
  rcases hr₂ : (ExecM.steps c c.code.toList).run { m₂ with stack := #[] } with ⟨r₂, m₂'⟩
  rw [hr₁, hr₂] at hresult halike
  obtain rfl : r₁ = r₂ := hresult
  cases r₁ with
  | ok u => exact ⟨rfl, halike⟩
  | error fault => exact ⟨rfl, halike⟩

/-- The names that the analysis finds are all that running the chunk can see or change of the globals, if no native looks
at them either. -/
theorem execute_footprint (c : Chunk) (m₁ m₂ : Machine) (htables : m₁.tables = m₂.tables) (hout : m₁.out = m₂.out)
    (hnatives : m₁.natives = m₂.natives) (hquiet : ∀ native ∈ m₁.natives, native.body.GlobalFree)
    (hagree : ∀ name ∈ globalNames c, m₁.getGlobal name = m₂.getGlobal name) :
    (m₁.execute c).1 = (m₂.execute c).1 ∧ (m₁.execute c).2.out = (m₂.execute c).2.out ∧
      (m₁.execute c).2.stack = (m₂.execute c).2.stack ∧ (m₁.execute c).2.tables = (m₂.execute c).2.tables ∧
      (∀ name ∈ globalNames c, (m₁.execute c).2.getGlobal name = (m₂.execute c).2.getGlobal name ∧
        (m₁.globals[name]? = m₂.globals[name]? →
          (m₁.execute c).2.globals[name]? = (m₂.execute c).2.globals[name]?)) ∧
      ∀ name ∉ globalNames c, (m₁.execute c).2.globals[name]? = m₁.globals[name]? ∧
        (m₂.execute c).2.globals[name]? = m₂.globals[name]? := by
  have hstart : Machine.Alike (globalNames c) m₁.globals m₂.globals { m₁ with stack := #[] } { m₂ with stack := #[] } :=
    ⟨htables, hnatives, rfl, hout, hquiet, hagree, fun _ _ h => h, fun _ _ => ⟨rfl, rfl⟩⟩
  obtain ⟨hresult, h⟩ := execute_alike hstart
  exact ⟨hresult, h.out, h.stack, h.tables, fun name hname => ⟨h.agree name hname, h.shared name hname⟩, h.kept⟩

/-- A global that the chunk does not name is another one in each machine; the run ends at a constant that is not there. -/
theorem execute_footprint_elsewhere :
    let x := Text.utf8 "x"
    let y := Text.utf8 "y"
    let z := Text.utf8 "z"
    let code := #[{ op := Opcode.getGlobal.code }, { op := Opcode.setGlobal.code, a := 1 },
      { op := Opcode.setGlobalGlobal.code, b := 7 }]
    let c : Chunk := { name := [], constants := #[.ofBytes x, .ofBytes z], code }
    let m₁ := Machine.start {} [(x, .int 5), (y, .int 1)]
    let m₂ := Machine.start {} [(y, .int 2), (x, .int 5)]
    (∀ name, name ∈ globalNames c ↔ name ∈ [x, z, x]) ∧ (m₁.execute c).1 = (m₂.execute c).1 ∧
      (m₁.execute c).2.getGlobal z = (m₂.execute c).2.getGlobal z ∧
      (m₁.execute c).2.globals[y]? = m₁.globals[y]? ∧ (m₂.execute c).2.globals[y]? = m₂.globals[y]? := by
  intro x y z code c m₁ m₂
  have hnames (name : Bytes) : name ∈ globalNames c ↔ name ∈ [x, z, x] := by
    have hused : (c.code.toList.flatMap globalOperands).filterMap (stringConstant? c) = [x, z, x] := by decide +kernel
    rw [mem_globalNames, hused]
  have hquiet : ∀ native ∈ m₁.natives, native.body.GlobalFree := fun native hn => by
    obtain rfl : native = Print.native := by simpa using show native ∈ #[Print.native] from hn
    exact Print.native_globalFree
  have hagree : ∀ name ∈ [x, z, x], m₁.getGlobal name = m₂.getGlobal name := by
    refine List.forall_mem_cons.mpr ⟨?_, List.forall_mem_cons.mpr ⟨?_, List.forall_mem_singleton.mpr ?_⟩⟩ <;>
      decide +kernel
  obtain ⟨hend, -, -, -, hnamed, hothers⟩ :=
    execute_footprint c m₁ m₂ rfl rfl rfl hquiet fun name hname => hagree name ((hnames name).mp hname)
  have hz : z ∈ globalNames c := (hnames z).mpr (List.mem_cons_of_mem x List.mem_cons_self)
  have hy : y ∉ globalNames c := fun h => absurd ((hnames y).mp h) (by decide +kernel)
  exact ⟨hnames, hend, (hnamed z hz).1, hothers y hy⟩

end Editor

end MiniLua

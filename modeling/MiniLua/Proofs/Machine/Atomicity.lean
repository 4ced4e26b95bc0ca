import MiniLua.Proofs.Machine.Execution

/-!
Instructions change the machine only when nothing can go wrong any more: a fault of any instruction but a call finds and
leaves the machine as the instructions before it have made it.
-/

namespace MiniLua

namespace ExecM

variable {α β : Type} {x : ExecM α} {f : α → ExecM β}

/-- Leaves the machine as it is, however it ends. -/
def Reads (x : ExecM α) : Prop := ∀ m, (x.run m).2 = m

/-- Leaves the machine as it was if it ends in a fault. -/
def Atomic (x : ExecM α) : Prop := ∀ m fault m', x.run m = (.error fault, m') → m' = m

/-- Does not end in a fault. -/
def Succeeds (x : ExecM α) : Prop := ∀ m, ∃ a m', x.run m = (.ok a, m')

/-- A sequence ends in a fault of its first part or in one of its second part. -/
theorem run_bind_error {m m' : Machine} {fault : Fault} (h : (x >>= f).run m = (.error fault, m')) :
    x.run m = (.error fault, m') ∨ ∃ a m₁, x.run m = (.ok a, m₁) ∧ (f a).run m₁ = (.error fault, m') := by
  rw [run_bind] at h
  rcases hx : x.run m with ⟨e | a, m₁⟩
  · rw [hx] at h
    cases h
    exact .inl rfl
  · rw [hx] at h
    exact .inr ⟨a, m₁, rfl, h⟩

namespace Reads

theorem pure (a : α) : Reads (Pure.pure a) := fun _ => rfl

theorem throw (fault : Fault) : Reads (MonadExcept.throw fault : ExecM α) := fun _ => rfl

theorem get : Reads (MonadState.get : ExecM Machine) := fun _ => rfl

theorem bind (hx : Reads x) (hf : ∀ a, Reads (f a)) : Reads (x >>= f) := by
  intro m
  have hm := hx m
  rw [run_bind]
  rcases hr : x.run m with ⟨e | a, m'⟩
  · rw [hr] at hm
    exact hm
  · rw [hr] at hm
    exact (hf a m').trans hm

theorem atomic (hx : Reads x) : Atomic x := by
  intro m fault m' h
  have hm := hx m
  rw [h] at hm
  exact hm

/-- What is read first cannot spoil a change that is all or nothing. -/
theorem bind_atomic (hx : Reads x) (hf : ∀ a, Atomic (f a)) : Atomic (x >>= f) := by
  intro m fault m' h
  rcases run_bind_error h with h | ⟨a, m₁, hr, h⟩
  · exact hx.atomic m fault m' h
  · have hm := hx m
    rw [hr] at hm
    exact (hf a m₁ fault m' h).trans hm

end Reads

theorem Succeeds.not_error (hx : Succeeds x) {m m' : Machine} {fault : Fault} : x.run m ≠ (.error fault, m') := by
  intro h
  obtain ⟨a, m'', hok⟩ := hx m
  rw [hok] at h
  cases h

theorem Succeeds.atomic (hx : Succeeds x) : Atomic x := fun _ _ _ h => absurd h hx.not_error

/-- Nor can a part behind it that does not fail. -/
theorem Atomic.bind_succeeds (hx : Atomic x) (hf : ∀ a, Succeeds (f a)) : Atomic (x >>= f) := by
  intro m fault m' h
  rcases run_bind_error h with h | ⟨a, m₁, -, h⟩
  · exact hx m fault m' h
  · exact absurd h (hf a).not_error

theorem constant_reads (c : Chunk) (i : UInt8) : Reads (constant c i) := by
  unfold constant
  split
  · exact .pure _
  · exact .throw _

theorem slot_reads (i : UInt8) : Reads (slot i) := by
  refine Reads.get.bind fun m => ?_
  dsimp only
  split
  · exact .pure _
  · exact .throw _

theorem tableOf_reads (v : Value) : Reads (tableOf v) := by
  unfold tableOf
  split
  · exact .pure _
  · exact .throw _

theorem nameOf_reads (v : Value) : Reads (nameOf v) := by
  unfold nameOf
  split
  · exact .pure _
  · exact .throw _

theorem getIn_reads (id : Nat) (key : Value) : Reads (getIn id key) := Reads.get.bind fun _ => .pure _

theorem set_succeeds (m : Machine) : Succeeds (set m : ExecM PUnit) := fun _ => ⟨_, m, rfl⟩

theorem modify_succeeds (f : Machine → Machine) : Succeeds (modify f : ExecM PUnit) := fun m => ⟨_, f m, rfl⟩

theorem setSlot_atomic (i : UInt8) (v : Value) : Atomic (setSlot i v) := by
  refine Reads.get.bind_atomic fun m => ?_
  split
  · exact (set_succeeds _).atomic
  · split
    · exact (set_succeeds _).atomic
    · exact (Reads.throw _).atomic

theorem setIn_atomic (id : Nat) (key v : Value) : Atomic (setIn id key v) := by
  refine Reads.get.bind_atomic fun m => ?_
  split
  · exact (set_succeeds _).atomic
  · exact (Reads.throw _).atomic

theorem setList_atomic (table count : Nat) : Atomic (setList table count) := by
  refine Reads.get.bind_atomic fun m => ?_
  split
  · exact (Reads.throw _).bind_atomic fun _ => (tableOf_reads _).bind_atomic fun _ => (set_succeeds _).atomic
  · exact (tableOf_reads _).bind_atomic fun _ => (set_succeeds _).atomic

theorem atTable_atomic {table : ExecM Value} (ht : Reads table) {f : Nat → ExecM α} (hf : ∀ id, Atomic (f id)) :
    Atomic (do let id ← tableOf (← table); f id) :=
  ht.bind_atomic fun t => (tableOf_reads t).bind_atomic hf

theorem atName_atomic {name : ExecM Value} (hn : Reads name) {f : Bytes → ExecM α} (hf : ∀ name, Atomic (f name)) :
    Atomic (do let n ← nameOf (← name); f n) :=
  hn.bind_atomic fun k => (nameOf_reads k).bind_atomic hf

/-- Of all instructions only a call can do something before it fails. -/
theorem step_atomic (c : Chunk) {i : Instruction} (h : i.opcode? ≠ some .call) : Atomic (step c i) := by
  unfold step
  cases ho : i.opcode? with
  | none => exact (Reads.throw _).atomic
  | some o =>
      cases o with
      | loadNil | loadBool | loadInt => exact setSlot_atomic _ _
      | loadConst => exact (constant_reads c i.b).bind_atomic fun v => setSlot_atomic i.a v
      | move => exact (slot_reads i.b).bind_atomic fun v => setSlot_atomic i.a v
      | getGlobal =>
          exact atName_atomic (constant_reads c i.b) fun name =>
            Reads.get.bind_atomic fun m => setSlot_atomic i.a (m.getGlobal name)
      | setGlobal =>
          exact atName_atomic (constant_reads c i.a) fun name =>
            (slot_reads i.b).bind_atomic fun v => (modify_succeeds _).atomic
      | setGlobalConst =>
          exact atName_atomic (constant_reads c i.a) fun name =>
            (constant_reads c i.b).bind_atomic fun v => (modify_succeeds _).atomic
      | setGlobalGlobal =>
          exact atName_atomic (constant_reads c i.a) fun name =>
            atName_atomic (constant_reads c i.b) fun source => (modify_succeeds _).atomic
      | newTable =>
          exact Reads.get.bind_atomic fun m => (setSlot_atomic i.a _).bind_succeeds fun _ => modify_succeeds _
      | setTable =>
          exact atTable_atomic (slot_reads i.a) fun id => (slot_reads i.b).bind_atomic fun key =>
            (slot_reads i.c).bind_atomic fun v => setIn_atomic id key v
      | setField =>
          exact atTable_atomic (slot_reads i.a) fun id => (constant_reads c i.b).bind_atomic fun key =>
            (slot_reads i.c).bind_atomic fun v => setIn_atomic id key v
      | setInt =>
          exact atTable_atomic (slot_reads i.a) fun id =>
            (slot_reads i.c).bind_atomic fun v => setIn_atomic id _ v
      | setTableConst =>
          exact atTable_atomic (slot_reads i.a) fun id => (slot_reads i.b).bind_atomic fun key =>
            (constant_reads c i.c).bind_atomic fun v => setIn_atomic id key v
      | setFieldConst =>
          exact atTable_atomic (slot_reads i.a) fun id => (constant_reads c i.b).bind_atomic fun key =>
            (constant_reads c i.c).bind_atomic fun v => setIn_atomic id key v
      | setIntConst =>
          exact atTable_atomic (slot_reads i.a) fun id =>
            (constant_reads c i.c).bind_atomic fun v => setIn_atomic id _ v
      | setList => exact setList_atomic _ _
      | getTable =>
          exact atTable_atomic (slot_reads i.b) fun id => (slot_reads i.c).bind_atomic fun key =>
            (getIn_reads id key).bind_atomic fun v => setSlot_atomic i.a v
      | getField =>
          exact atTable_atomic (slot_reads i.b) fun id => (constant_reads c i.c).bind_atomic fun key =>
            (getIn_reads id key).bind_atomic fun v => setSlot_atomic i.a v
      | getInt =>
          exact atTable_atomic (slot_reads i.b) fun id =>
            (getIn_reads id _).bind_atomic fun v => setSlot_atomic i.a v
      | call => exact absurd ho h

/-- A run that ends in a fault has a first instruction that fails. -/
theorem steps_error {c : Chunk} {is : List Instruction} {m m' : Machine} {fault : Fault}
    (h : (steps c is).run m = (.error fault, m')) :
    ∃ k i before, is[k]? = some i ∧ (steps c (is.take k)).run m = (.ok (), before) ∧
      (step c i).run before = (.error fault, m') := by
  induction is generalizing m with
  | nil => cases h
  | cons i is ih =>
      rcases run_bind_error h with h | ⟨_, m₁, hstep, h⟩
      · exact ⟨0, i, m, rfl, rfl, h⟩
      · obtain ⟨k, j, before, hj, hran, hfault⟩ := ih h
        refine ⟨k + 1, j, before, hj, ?_, hfault⟩
        rw [List.take_succ_cons, steps, run_bind_ok hstep]
        exact hran

/-- A run ends with its first instruction that fails. -/
theorem steps_of_error {c : Chunk} {is : List Instruction} {k : Nat} {i : Instruction} {m before m' : Machine}
    {fault : Fault} (hi : is[k]? = some i) (hran : (steps c (is.take k)).run m = (.ok (), before))
    (hfault : (step c i).run before = (.error fault, m')) : (steps c is).run m = (.error fault, m') := by
  obtain ⟨hk, rfl⟩ := List.getElem?_eq_some_iff.mp hi
  have hsplit : is = is.take k ++ is[k] :: is.drop (k + 1) := by
    rw [← List.drop_eq_getElem_cons hk, List.take_append_drop]
  rw [hsplit, steps_append, hran]
  change (step c is[k] >>= fun _ => steps c (is.drop (k + 1))).run before = _
  rw [run_bind, hfault]

end ExecM

/-- The chunk with only its first `k` instructions. -/
def Chunk.upTo (c : Chunk) (k : Nat) : Chunk := { c with code := c.code.take k }

theorem ExecM.steps_upTo (c : Chunk) (k : Nat) (is : List Instruction) : steps (c.upTo k) is = steps c is := by
  induction is with
  | nil => rfl
  | cons i is ih => rw [steps, steps, ih]; rfl

namespace Machine

open ExecM

/-- Running the chunk gets to instruction `k`, which is `i` and fails in the machine `before`. -/
structure FaultsAt (m : Machine) (c : Chunk) (k : Nat) (i : Instruction) (before : Machine) (fault : Fault) : Prop where
  code : c.code[k]? = some i
  ran : m.execute (c.upTo k) = (none, before)
  fails : ∃ after, (step c i).run before = (.error fault, after)

variable {m m' before : Machine} {c : Chunk} {k : Nat} {i : Instruction} {fault : Fault}

theorem execute_eq_none :
    m.execute c = (none, m') ↔ (steps c c.code.toList).run { m with stack := #[] } = (.ok (), m') := by
  unfold execute
  rcases (steps c c.code.toList).run { m with stack := #[] } with ⟨e | u, m₁⟩
  · constructor <;> intro h <;> cases h
  · constructor <;> intro h <;> cases h <;> rfl

theorem execute_eq_some :
    m.execute c = (some fault, m') ↔ (steps c c.code.toList).run { m with stack := #[] } = (.error fault, m') := by
  unfold execute
  rcases (steps c c.code.toList).run { m with stack := #[] } with ⟨e | u, m₁⟩
  · constructor <;> intro h <;> cases h <;> rfl
  · constructor <;> intro h <;> cases h

theorem execute_upTo :
    m.execute (c.upTo k) = (none, m') ↔ (steps c (c.code.toList.take k)).run { m with stack := #[] } = (.ok (), m') := by
  have hcode : (c.upTo k).code.toList = c.code.toList.take k := by simp [Chunk.upTo]
  rw [execute_eq_none, steps_upTo, hcode]

theorem exists_faultsAt (h : m.execute c = (some fault, m')) : ∃ k i before, m.FaultsAt c k i before fault := by
  obtain ⟨k, i, before, hi, hran, hfails⟩ := steps_error (execute_eq_some.mp h)
  exact ⟨k, i, before, by simpa using hi, execute_upTo.mpr hran, m', hfails⟩

/-- A fault that finds the machine as the instructions before have made it leaves it so. -/
theorem FaultsAt.execute_eq (h : m.FaultsAt c k i before fault) (hi : i.opcode? ≠ some .call) :
    m.execute c = (some fault, before) := by
  obtain ⟨after, hfails⟩ := h.fails
  obtain rfl : after = before := step_atomic c hi before fault after hfails
  exact execute_eq_some.mpr (steps_of_error (by simpa using h.code) (execute_upTo.mp h.ran) hfails)

/-- A fault of an instruction other than a call leaves the machine as it was before the instruction; so a run that ends
in such a fault ends with the machine that the instructions before it have left. -/
theorem execute_fault_unchanged (m : Machine) (c : Chunk) :
    (∀ i fault m', i.opcode? ≠ some .call → (step c i).run m = (.error fault, m') → m' = m) ∧
      (∀ k i before fault, m.FaultsAt c k i before fault → i.opcode? ≠ some .call →
        m.execute c = (some fault, before)) ∧
      ∀ fault m', m.execute c = (some fault, m') → ∃ k i before, m.FaultsAt c k i before fault :=
  ⟨fun _ fault m' hi => step_atomic c hi m fault m', fun _ _ _ _ h => h.execute_eq, fun _ _ => exists_faultsAt⟩

/-- Three values are to be moved into a table that is on the stack alone, and that has an entry already. -/
theorem execute_fault_unchanged_overrun :
    let i : Instruction := { op := Opcode.setList.code, b := 3 }
    let code := #[{ op := Opcode.newTable.code }, { op := Opcode.setIntConst.code, b := 1 }, i]
    let c : Chunk := { name := [], constants := #[.bool true], code }
    ∃ before, Machine.FaultsAt {} c 2 i before (.runtime (.listOverrun 3 0 1)) ∧
      Machine.execute {} c = (some (.runtime (.listOverrun 3 0 1)), before) ∧ before.stack = #[.table 0] ∧
      (before.table 0).array = #[.bool true] := by
  intro i code c
  obtain ⟨before, hfaults, hstack, harray⟩ : ∃ before, Machine.FaultsAt {} c 2 i before (.runtime (.listOverrun 3 0 1)) ∧
      before.stack = #[.table 0] ∧ (before.table 0).array = #[.bool true] :=
    ⟨_, ⟨rfl, rfl, _, rfl⟩, rfl, rfl⟩
  exact ⟨before, hfaults, (execute_fault_unchanged {} c).2.1 2 i before _ hfaults (by decide), hstack, harray⟩

end Machine

end MiniLua

import MiniLua.Machine.Step

/-!
How instructions run: equations for sequences of instructions and for the reads and writes of slots.
-/

namespace MiniLua

@[simp] theorem Opcode.ofCode?_code (o : Opcode) : Opcode.ofCode? o.code = some o := by
  cases o <;> rfl

namespace Machine

/-- Writes a slot that exists or is the next one. -/
def write (m : Machine) (i : Nat) (v : Value) : Machine :=
  { m with stack := if i = m.stack.size then m.stack.push v else m.stack.setIfInBounds i v }

theorem write_stack_self {m : Machine} {i : Nat} (h : i ≤ m.stack.size) (v : Value) :
    (m.write i v).stack[i]? = some v := by
  by_cases hi : i = m.stack.size
  · simp [write, hi]
  · have hlt : i < m.stack.size := by omega
    simp [write, hi, hlt]

theorem write_stack_ne (m : Machine) {i j : Nat} (h : j ≠ i) (v : Value) :
    (m.write i v).stack[j]? = m.stack[j]? := by
  by_cases hi : i = m.stack.size
  · subst hi
    simp [write, Array.getElem?_push, h]
  · simp [write, hi, Ne.symm h]

theorem write_stack_size {m : Machine} {i : Nat} (h : i ≤ m.stack.size) (v : Value) :
    (m.write i v).stack.size = max m.stack.size (i + 1) := by
  by_cases hi : i = m.stack.size
  · simp [write, hi]
  · simp [write, hi]; omega

theorem write_self {m : Machine} {i : Nat} {v : Value} (h : m.stack[i]? = some v) : m.write i v = m := by
  obtain ⟨hi, rfl⟩ := Array.getElem?_eq_some_iff.mp h
  have hs : m.stack.setIfInBounds i m.stack[i] = m.stack := by
    apply Array.ext_getElem?
    intro j
    by_cases hj : i = j
    · subst hj
      simp [hi]
    · simp [hj]
  rw [write, if_neg (Nat.ne_of_lt hi), hs]

/-- The same values in the slots below `n`. -/
def Agrees (n : Nat) (m m' : Machine) : Prop := ∀ i < n, m'.stack[i]? = m.stack[i]?

namespace Agrees

variable {n k : Nat} {m m' m'' : Machine}

theorem refl (n : Nat) (m : Machine) : Agrees n m m := fun _ _ => rfl

theorem trans (h : Agrees n m m') (h' : Agrees n m' m'') : Agrees n m m'' :=
  fun i hi => (h' i hi).trans (h i hi)

theorem mono (h : Agrees n m m') (hk : k ≤ n) : Agrees k m m' := fun i hi => h i (by omega)

end Agrees

theorem agrees_write {m : Machine} {n i : Nat} (h : n ≤ i) (v : Value) : Agrees n m (m.write i v) :=
  fun _ hj => m.write_stack_ne (by omega) v

/-- The values lie in the slots from `n` on, in order. -/
def Holds (m : Machine) (n : Nat) (vs : List Value) : Prop := ∀ (i : Nat) v, vs[i]? = some v → m.stack[n + i]? = some v

namespace Holds

variable {m m' : Machine} {n : Nat} {v : Value} {vs : List Value}

theorem head (h : m.Holds n (v :: vs)) : m.stack[n]? = some v := h 0 v rfl

theorem tail (h : m.Holds n (v :: vs)) : m.Holds (n + 1) vs := by
  intro i u hu
  rw [Nat.add_right_comm]
  exact h (i + 1) u hu

theorem nil (m : Machine) (n : Nat) : m.Holds n [] := fun _ _ hv => by cases hv

theorem cons (hv : m.stack[n]? = some v) (h : m.Holds (n + 1) vs) : m.Holds n (v :: vs) := by
  intro i u hu
  cases i with
  | zero =>
      cases hu
      exact hv
  | succ i =>
      rw [Nat.add_comm i 1, ← Nat.add_assoc]
      exact h i u hu

theorem singleton (h : m.stack[n]? = some v) : m.Holds n [v] := cons h (nil m _)

theorem size_le (h : m.Holds n (v :: vs)) : n + 1 + vs.length ≤ m.stack.size := by
  have hlt := (Array.getElem?_eq_some_iff.mp (h vs.length _ (List.getElem?_eq_getElem (by simp)))).1
  omega

theorem of_agrees (h : m.Holds n vs) (ha : m.Agrees (n + vs.length) m') : m'.Holds n vs := by
  intro i u hu
  have hi := (List.getElem?_eq_some_iff.mp hu).1
  rw [ha _ (by omega)]
  exact h i u hu

theorem concat (h : m.Holds n vs) (hv : m.stack[n + vs.length]? = some v) : m.Holds n (vs ++ [v]) := by
  intro i u hu
  by_cases hi : i < vs.length
  · rw [List.getElem?_append_left hi] at hu
    exact h i u hu
  · obtain rfl : i = vs.length := by
      have := (List.getElem?_eq_some_iff.mp hu).1
      simp only [List.length_append, List.length_singleton] at this
      omega
    rw [hv, ← hu]
    simp

theorem extract_eq (h : m.Holds n vs) (hs : n + vs.length ≤ m.stack.size) :
    (m.stack.extract n (n + vs.length)).toList = vs := by
  apply List.ext_getElem?
  intro i
  rw [Array.getElem?_toList, Array.getElem?_extract]
  by_cases hi : i < vs.length
  · rw [if_pos (by omega), h i vs[i] (List.getElem?_eq_getElem hi), List.getElem?_eq_getElem hi]
  · rw [if_neg (by omega), List.getElem?_eq_none (by omega)]

end Holds

end Machine

namespace ExecM

variable {α β : Type}

theorem run_bind (x : ExecM α) (f : α → ExecM β) (m : Machine) :
    (x >>= f).run m = match x.run m with
      | (.ok a, m') => (f a).run m'
      | (.error e, m') => (.error e, m') := by
  change (match x.run m with | (r, m') => (ExceptT.bindCont f r) m') = _
  rcases x.run m with ⟨r | r, m'⟩ <;> rfl

@[simp] theorem run_bind_ok {x : ExecM α} {f : α → ExecM β} {m m' : Machine} {a : α} (h : x.run m = (.ok a, m')) :
    (x >>= f).run m = (f a).run m' := by
  rw [run_bind, h]

theorem run_pure (a : α) (m : Machine) : (pure a : ExecM α).run m = (.ok a, m) := rfl

theorem run_get (m : Machine) : (get : ExecM Machine).run m = (.ok m, m) := rfl

theorem run_set (m m' : Machine) : (set m' : ExecM PUnit).run m = (.ok ⟨⟩, m') := rfl

theorem constant_run {c : Chunk} {i : UInt8} {v : Value} (h : c.constants[i.toNat]? = some v) (m : Machine) :
    (constant c i).run m = (.ok v, m) := by
  simp only [constant, h, run_pure]

theorem slot_run {m : Machine} {i : UInt8} {v : Value} (h : m.stack[i.toNat]? = some v) :
    (slot i).run m = (.ok v, m) := by
  rw [slot, run_bind_ok (run_get m)]
  simp only [h, run_pure]

theorem setSlot_run {m : Machine} {i : UInt8} (h : i.toNat ≤ m.stack.size) (v : Value) :
    (setSlot i v).run m = (.ok (), m.write i.toNat v) := by
  rw [setSlot, run_bind_ok (run_get m)]
  by_cases hi : i.toNat = m.stack.size
  · rw [if_pos hi, run_set]
    simp [Machine.write, hi]
  · rw [if_neg hi, if_pos (by omega), run_set]
    simp [Machine.write, hi]

theorem steps_append (c : Chunk) (is js : List Instruction) (m : Machine) :
    (steps c (is ++ js)).run m = match (steps c is).run m with
      | (.ok _, m') => (steps c js).run m'
      | (.error f, m') => (.error f, m') := by
  induction is generalizing m with
  | nil => rfl
  | cons i is ih =>
      rw [List.cons_append, steps, steps, run_bind, run_bind]
      cases hs : (step c i).run m with
      | mk r m' =>
          cases r with
          | error f => rfl
          | ok u => exact ih m'

theorem steps_singleton (c : Chunk) (i : Instruction) (m : Machine) : (steps c [i]).run m = (step c i).run m := by
  rw [steps, run_bind]
  cases hs : (step c i).run m with
  | mk r m' => cases r <;> rfl

end ExecM

end MiniLua

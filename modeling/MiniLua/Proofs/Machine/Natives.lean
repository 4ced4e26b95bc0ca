import MiniLua.Proofs.Evaluation
import MiniLua.Proofs.Machine.Execution

/-!
Natives as the machine runs them. Whatever a native asks for, it only adds to the stack; and a native that never asks
for a place on the stack does what its evaluation does.
-/

namespace MiniLua

/-- The native never asks where on the stack it is called, or how far the stack reaches. -/
def Act.PlaceFree {α : Type} : Act α → Prop
  | .done _ | .raise _ | .misuse _ => True
  | .callSlot _ | .stackSize _ => False
  | .argCount next => ∀ n, (next n).PlaceFree
  | .arg _ next | .getGlobal _ next => ∀ v, (next v).PlaceFree
  | .push _ next | .setGlobal _ _ next => next.PlaceFree
  | .write _ next => ∀ reason, (next reason).PlaceFree
  | .inspect _ next => ∀ text, (next text).PlaceFree

namespace Act.PlaceFree

variable {α β : Type}

theorem bind {a : Act α} {f : α → Act β} (ha : a.PlaceFree) (hf : ∀ x, (f x).PlaceFree) : (a.bind f).PlaceFree := by
  induction a with
  | done x => exact hf x
  | raise | misuse => trivial
  | callSlot | stackSize => exact ha.elim
  | argCount next ih | arg i next ih | getGlobal name next ih | write bs next ih | inspect v next ih =>
      exact fun x => ih x (ha x)
  | push v next ih | setGlobal name v next ih => exact ih ha

theorem args (first count : Nat) : (Act.args first count).PlaceFree := by
  induction count generalizing first with
  | zero => trivial
  | succ count ih => exact fun v => (ih (first + 1)).bind fun _ => trivial

end Act.PlaceFree

/-- Printing needs arguments and an output only. -/
theorem Print.native_placeFree : Print.native.body.PlaceFree := by
  have hwrite (bs : List Bytes) : (Print.writeAll bs).PlaceFree := by
    induction bs with
    | nil => trivial
    | cons b rest ih =>
        intro reason
        cases reason with
        | none => exact ih
        | some reason => trivial
  exact fun n => (Act.PlaceFree.args 0 n).bind fun values => hwrite _

/-- Some answers of the machine lead the native to a fault. -/
inductive Act.EndsIn {α : Type} : Act α → Fault → Prop
  | raise (report : Report) : EndsIn (.raise report) (.raised report)
  | misuse (fault : Misuse) : EndsIn (.misuse fault) (.misuse fault)
  | callSlot {next : Nat → Act α} {n : Nat} {f : Fault} (h : EndsIn (next n) f) : EndsIn (.callSlot next) f
  | argCount {next : Nat → Act α} {n : Nat} {f : Fault} (h : EndsIn (next n) f) : EndsIn (.argCount next) f
  | arg {i : Int} {next : Value → Act α} {v : Value} {f : Fault} (h : EndsIn (next v) f) : EndsIn (.arg i next) f
  | stackSize {next : Nat → Act α} {n : Nat} {f : Fault} (h : EndsIn (next n) f) : EndsIn (.stackSize next) f
  | push {v : Value} {next : Act α} {f : Fault} (h : EndsIn next f) : EndsIn (.push v next) f
  | getGlobal {name : Bytes} {next : Value → Act α} {v : Value} {f : Fault} (h : EndsIn (next v) f) :
      EndsIn (.getGlobal name next) f
  | setGlobal {name : Bytes} {v : Value} {next : Act α} {f : Fault} (h : EndsIn next f) :
      EndsIn (.setGlobal name v next) f
  | write {bs : Bytes} {next : Option Bytes → Act α} {reason : Option Bytes} {f : Fault} (h : EndsIn (next reason) f) :
      EndsIn (.write bs next) f
  | inspect {v : Value} {next : Bytes → Act α} {text : Bytes} {f : Fault} (h : EndsIn (next text) f) :
      EndsIn (.inspect v next) f

namespace Machine

/-- The same natives, and a stack that has at most grown. -/
structure Extends (m m' : Machine) : Prop where
  natives : m'.natives = m.natives
  agrees : m.Agrees m.stack.size m'
  size_le : m.stack.size ≤ m'.stack.size

theorem Extends.refl (m : Machine) : m.Extends m := ⟨rfl, .refl _ _, Nat.le_refl _⟩

theorem Extends.trans {m m' m'' : Machine} (h : m.Extends m') (h' : m'.Extends m'') : m.Extends m'' :=
  ⟨h'.natives.trans h.natives, h.agrees.trans (h'.agrees.mono h.size_le), Nat.le_trans h.size_le h'.size_le⟩

theorem Holds.of_extends {m m' : Machine} {n : Nat} {vs : List Value} (h : m.Holds n vs) (he : m.Extends m') :
    m'.Holds n vs := by
  intro i v hv
  have hold := h i v hv
  rw [he.agrees _ (Array.getElem?_eq_some_iff.mp hold).1]
  exact hold

theorem extends_push (m : Machine) (v : Value) : m.Extends { m with stack := m.stack.push v } := by
  refine ⟨rfl, fun i hi => ?_, by simp⟩
  simp [Array.getElem?_push, Nat.ne_of_lt hi]

theorem arg_eq {m : Machine} {args : List Value} (hcount : m.argCount = args.length)
    (hargs : m.Holds (m.callSlot + 1) args) (i : Int) :
    m.arg i = if 0 ≤ i then args.getD i.toNat .nil else .nil := by
  unfold arg
  by_cases h0 : 0 ≤ i
  · rw [if_pos h0, List.getD_eq_getElem?_getD]
    by_cases hi : i < m.argCount
    · have hlt : i.toNat < args.length := by omega
      have hv := List.getElem?_eq_getElem hlt
      rw [if_pos ⟨h0, hi⟩, Array.getD_eq_getD_getElem?, hargs _ _ hv, hv]
    · rw [if_neg (by omega), List.getElem?_eq_none (by omega)]
      rfl
  · rw [if_neg (by omega), if_neg h0]

end Machine

namespace ExecM

variable {α : Type}

theorem act_extends (a : Act α) {m m' : Machine} {r : Except Fault α} (h : (act a).run m = (r, m')) :
    m.Extends m' ∧ ∀ f, r = .error f → a.EndsIn f := by
  induction a generalizing m with
  | done b =>
      cases h
      exact ⟨.refl _, fun f hf => by cases hf⟩
  | raise report =>
      cases h
      exact ⟨.refl _, fun f hf => by cases hf; exact .raise report⟩
  | misuse fault =>
      cases h
      exact ⟨.refl _, fun f hf => by cases hf; exact .misuse fault⟩
  | callSlot next ih =>
      obtain ⟨hm, hf⟩ := ih _ h
      exact ⟨hm, fun f he => .callSlot (hf f he)⟩
  | argCount next ih =>
      obtain ⟨hm, hf⟩ := ih _ h
      exact ⟨hm, fun f he => .argCount (hf f he)⟩
  | arg i next ih =>
      obtain ⟨hm, hf⟩ := ih _ h
      exact ⟨hm, fun f he => .arg (hf f he)⟩
  | stackSize next ih =>
      obtain ⟨hm, hf⟩ := ih _ h
      exact ⟨hm, fun f he => .stackSize (hf f he)⟩
  | push v next ih =>
      obtain ⟨hm, hf⟩ := ih h
      exact ⟨(m.extends_push v).trans hm, fun f he => .push (hf f he)⟩
  | getGlobal name next ih =>
      obtain ⟨hm, hf⟩ := ih _ h
      exact ⟨hm, fun f he => .getGlobal (hf f he)⟩
  | setGlobal name v next ih =>
      obtain ⟨hm, hf⟩ := ih h
      exact ⟨⟨hm.natives, hm.agrees, hm.size_le⟩, fun f he => .setGlobal (hf f he)⟩
  | write bs next ih =>
      obtain ⟨hm, hf⟩ := ih _ h
      exact ⟨⟨hm.natives, hm.agrees, hm.size_le⟩, fun f he => .write (hf f he)⟩
  | inspect v next ih =>
      obtain ⟨hm, hf⟩ := ih _ h
      exact ⟨hm, fun f he => .inspect (hf f he)⟩

/-- A native that asks for no place does on the machine what it does without one. -/
theorem act_world (a : Act α) (ha : a.PlaceFree) {args : List Value} {m : Machine} (hcount : m.argCount = args.length)
    (hargs : m.Holds (m.callSlot + 1) args) :
    (EvalM.act args a).run m.world = (((act a).run m).1, ((act a).run m).2.world) := by
  induction a generalizing m with
  | done | raise | misuse => rfl
  | callSlot | stackSize => cases ha
  | argCount next ih =>
      have := ih m.argCount (ha _) hcount hargs
      rw [EvalM.act, ← hcount]
      exact this
  | arg i next ih =>
      have := ih (m.arg i) (ha _) hcount hargs
      rw [EvalM.act, ← m.arg_eq hcount hargs]
      exact this
  | push v next ih =>
      exact ih (m := { m with stack := m.stack.push v }) ha hcount (hargs.of_extends (m.extends_push v))
  | getGlobal name next ih => exact ih _ (ha _) hcount hargs
  | setGlobal name v next ih => exact ih (m := m.setGlobal name v) ha hcount hargs
  | write bs next ih => exact ih _ (m := { m with out := (m.out.write bs).2 }) (ha _) hcount hargs
  | inspect v next ih => exact ih _ (ha _) hcount hargs

/-- The machine in which a native runs that was called from a slot. -/
def enter (m : Machine) (fn argCount : Nat) : Machine := { m with callSlot := fn, argCount }

theorem call_native {fn : UInt8} {n id : Nat} {m : Machine} (hv : m.stack[fn.toNat]? = some (.native id)) :
    (call fn n).run m =
      (match m.natives[id]? with
        | some native => act native.body >>= fun _ => pure ()
        | none => pure ()).run (enter m fn.toNat n) := by
  rw [call, run_bind_ok (slot_run hv), run_bind_ok (run_get m), run_bind_ok (run_set _ _)]
  cases m.natives[id]? <;> rfl

theorem enter_extends (m : Machine) (fn n : Nat) : m.Extends (enter m fn n) := ⟨rfl, .refl _ _, Nat.le_refl _⟩

/-- What a call can do to the machine, and the faults in which it can end. -/
theorem call_extends {fn : UInt8} {n : Nat} {v : Value} {m m' : Machine} {r : Except Fault Unit}
    (hv : m.stack[fn.toNat]? = some v) (h : (call fn n).run m = (r, m')) :
    m.Extends m' ∧ ∀ f, r = .error f →
      (v.kind ≠ .function ∧ f = .runtime (.notCallable v.kind)) ∨ ∃ native ∈ m.natives, native.body.EndsIn f := by
  cases v with
  | native id =>
      rw [call_native hv] at h
      have hm := enter_extends m fn.toNat n
      split at h
      · next native hid =>
        rw [run_bind] at h
        cases hact : (act native.body).run (enter m fn.toNat n) with
        | mk s m₁ =>
            obtain ⟨hm₁, hf⟩ := act_extends native.body hact
            rw [hact] at h
            cases s with
            | ok a =>
                cases h
                exact ⟨hm.trans hm₁, fun f he => by cases he⟩
            | error e =>
                cases h
                refine ⟨hm.trans hm₁, fun f he => ?_⟩
                cases he
                exact .inr ⟨native, Array.mem_of_getElem? hid, hf e rfl⟩
      · cases h
        exact ⟨hm, fun f he => by cases he⟩
  | nil | bool | int | float | str | table =>
      rw [call, run_bind_ok (slot_run hv)] at h
      cases h
      exact ⟨.refl m, fun f he => .inl ⟨Kind.noConfusion, (Except.error.inj he).symm⟩⟩

/-- With natives that ask for no place, a call does what its evaluation does. -/
theorem call_world {fn : UInt8} {f : Value} {args : List Value} {m : Machine}
    (hm : ∀ native ∈ m.natives, native.body.PlaceFree) (h : m.Holds fn.toNat (f :: args)) :
    (EvalM.call f args).run m.world =
      (((call fn args.length).run m).1, ((call fn args.length).run m).2.world) := by
  cases f with
  | native id =>
      rw [call_native h.head]
      change ExceptT.run (match m.natives[id]? with
        | some native => EvalM.act args native.body >>= fun _ => pure ()
        | none => pure ()) m.world = _
      cases hid : m.natives[id]? with
      | none => rfl
      | some native =>
          have hblind := hm native (Array.mem_of_getElem? hid)
          have hact : (EvalM.act args native.body).run m.world = _ :=
            act_world native.body hblind (m := enter m fn.toNat args.length) rfl h.tail
          rw [EvalM.run_bind, run_bind, hact]
          rcases (act native.body).run (enter m fn.toNat args.length) with ⟨r | r, m'⟩ <;> rfl
  | nil | bool | int | float | str | table =>
      rw [call, run_bind_ok (slot_run h.head)]
      rfl

end ExecM

end MiniLua

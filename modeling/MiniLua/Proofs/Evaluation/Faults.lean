import MiniLua.Proofs.Evaluation

/-!
The faults in which an evaluation can end. Natives are never added or taken away by a program.
-/

namespace MiniLua

/-- The faults of reading and writing entries: the value is no table, or the key is nil or not a number. -/
inductive Fault.OfEntry : Fault → Prop
  | notIndexable {kind : Kind} (h : kind ≠ .table) : OfEntry (.runtime (.notIndexable kind))
  | badKey (fault : KeyFault) : OfEntry (.runtime (.badKey fault))

namespace EvalM

variable {α β : Type}

/-- The evaluation keeps the natives, and a fault that ends it has `P`. -/
def Meets (P : Fault → Prop) (x : EvalM α) : Prop :=
  ∀ w, (x.run w).2.natives = w.natives ∧ ∀ f, (x.run w).1 = .error f → P f

namespace Meets

variable {P : Fault → Prop} {x : EvalM α}

theorem mono {P' : Fault → Prop} (h : Meets P x) (hP : ∀ f, P f → P' f) : Meets P' x :=
  fun w => ⟨(h w).1, fun f hf => hP f ((h w).2 f hf)⟩

theorem pure (a : α) : Meets P (Pure.pure a) := fun _ => ⟨rfl, fun _ hf => by cases hf⟩

theorem throw {f : Fault} (h : P f) : Meets P (MonadExcept.throw f : EvalM α) :=
  fun _ => ⟨rfl, fun _ hf => by cases hf; exact h⟩

theorem bind {f : α → EvalM β} (hx : Meets P x) (hf : ∀ a, Meets P (f a)) : Meets P (x >>= f) := by
  intro w
  obtain ⟨hn, hfault⟩ := hx w
  rw [run_bind]
  rcases hr : x.run w with ⟨e | a, w'⟩
  · rw [hr] at hn hfault
    refine ⟨hn, fun f' hf' => hfault f' ?_⟩
    cases hf'
    rfl
  · rw [hr] at hn
    exact ⟨((hf a w').1).trans hn, (hf a w').2⟩

theorem get_bind {f : World → EvalM β} (hf : ∀ w, Meets P (f w)) : Meets P (get >>= f) := fun w => hf w w

/-- A change of the world that keeps the natives. -/
theorem modify {f : World → World} (h : ∀ w, (f w).natives = w.natives) :
    Meets P (MonadStateOf.modifyGet fun w => (⟨⟩, f w) : EvalM PUnit) :=
  fun w => ⟨h w, fun _ hf => by cases hf⟩

theorem run_ok (h : Meets P x) {w w' : World} {a : α} (hr : x.run w = (.ok a, w')) : w'.natives = w.natives := by
  have := (h w).1
  rwa [hr] at this

theorem run_error (h : Meets P x) {w w' : World} {f : Fault} (hr : x.run w = (.error f, w')) : P f := by
  have := (h w).2 f
  rw [hr] at this
  exact this rfl

end Meets

theorem getGlobal_meets {P : Fault → Prop} (name : Bytes) : Meets P (getGlobal name) := fun _ => ⟨rfl, fun _ hf => by cases hf⟩

theorem setGlobal_meets {P : Fault → Prop} (name : Bytes) (v : Value) : Meets P (setGlobal name v) := .modify fun _ => rfl

theorem newTable_meets {P : Fault → Prop} : Meets P newTable := fun _ => ⟨rfl, fun _ hf => by cases hf⟩

theorem append_meets {P : Fault → Prop} (id : Nat) (vs : List Value) : Meets P (append id vs) :=
  .get_bind fun _ => .modify fun _ => rfl

theorem index_meets (t key : Value) : Meets Fault.OfEntry (index t key) := by
  cases t with
  | table id => exact .get_bind fun w => .pure _
  | nil | bool | int | float | native | str => exact .throw (.notIndexable Kind.noConfusion)

theorem store_meets (t key v : Value) : Meets Fault.OfEntry (store t key v) := by
  cases t with
  | table id =>
      refine .get_bind fun w => ?_
      split
      · exact .modify fun _ => rfl
      · exact .throw (.badKey _)
  | nil | bool | int | float | native | str => exact .throw (.notIndexable Kind.noConfusion)

/-- A native may end in any fault of its own. -/
theorem act_meets (args : List Value) (a : Act α) : Meets (fun _ => True) (act args a) := by
  induction a with
  | done a => exact .pure a
  | raise | misuse => exact .throw trivial
  | callSlot next ih | stackSize next ih | argCount next ih | arg i next ih => exact ih _
  | push v next ih => exact ih
  | getGlobal name next ih => exact (getGlobal_meets name).bind ih
  | setGlobal name v next ih => exact (setGlobal_meets name v).bind fun _ => ih
  | write bs next ih => exact fun w => ih (w.out.write bs).1 { w with out := (w.out.write bs).2 }
  | inspect v next ih => exact .get_bind fun w => ih _

theorem call_meets (f : Value) (args : List Value) : Meets (fun _ => True) (call f args) := by
  cases f with
  | native id =>
      refine .get_bind fun w => ?_
      split
      · exact (act_meets args _).bind fun _ => .pure _
      · exact .pure _
  | nil | bool | int | float | str | table => exact .throw trivial

end EvalM

namespace Eval

open EvalM

theorem lookup_meets {P : Fault → Prop} (locals : Locals) (name : Bytes) : Meets P (lookup locals name) := by
  unfold lookup
  split
  · exact .pure _
  · exact getGlobal_meets name

mutual

theorem expression_meets (locals : Locals) (e : Exp) : Meets Fault.OfEntry (expression locals e) := by
  cases e with
  | literal | fault => exact .pure _
  | var name => exact lookup_meets locals name.text
  | table opened fs =>
      refine newTable_meets.bind fun id => (fields_meets locals id [] fs).bind fun waiting => ?_
      dsimp only
      split
      · exact .pure _
      · exact (append_meets id waiting).bind fun _ => .pure _
  | minus pos operand => exact (expression_meets locals operand).bind fun _ => .pure _
  | paren e _ | faultAfter e _ => exact expression_meets locals e
  | field base dot name => exact (expression_meets locals base).bind fun t => index_meets t _
  | index base opened key closed =>
      exact (expression_meets locals base).bind fun t => (expression_meets locals key).bind fun k => index_meets t k

theorem fields_meets (locals : Locals) (id : Nat) (waiting : List Value) (fs : Fields) :
    Meets Fault.OfEntry (fields locals id waiting fs) := by
  cases fs with
  | done closed => exact .pure _
  | stop e => exact (expression_meets locals e).bind fun _ => .pure _
  | positional e rest =>
      refine (expression_meets locals e).bind fun v => ?_
      split
      · exact (append_meets id _).bind fun _ => fields_meets locals id [] rest
      · exact fields_meets locals id _ rest
  | named name assign value rest =>
      exact (expression_meets locals value).bind fun v => (store_meets _ _ v).bind fun _ =>
        fields_meets locals id waiting rest
  | keyed opened key assign value rest =>
      exact (expression_meets locals key).bind fun k => (expression_meets locals value).bind fun v =>
        (store_meets _ k v).bind fun _ => fields_meets locals id waiting rest

end

theorem arguments_meets (locals : Locals) (es : List Exp) : Meets Fault.OfEntry (arguments locals es) := by
  induction es with
  | nil => exact .pure _
  | cons e es ih => exact (expression_meets locals e).bind fun v => ih.bind fun vs => .pure _

theorem assign_meets (locals : Locals) (target value : Exp) : Meets Fault.OfEntry (assign locals target value) := by
  cases target with
  | var name =>
      refine (expression_meets locals value).bind fun v => ?_
      split
      · exact .pure _
      · exact (setGlobal_meets name.text v).bind fun _ => .pure _
  | field base dot name =>
      exact (expression_meets locals base).bind fun t => (expression_meets locals value).bind fun v =>
        (store_meets t _ v).bind fun _ => .pure _
  | index base opened key closed =>
      exact (expression_meets locals base).bind fun t => (expression_meets locals key).bind fun k =>
        (expression_meets locals value).bind fun v => (store_meets t k v).bind fun _ => .pure _
  | literal | table | minus | paren | fault | faultAfter => exact .pure _

theorem declare_meets (locals : Locals) (name : Name) (init : Option Exp) :
    Meets Fault.OfEntry (statement locals (.declare name init)) := by
  cases init with
  | none => exact .pure _
  | some e => exact (expression_meets locals e).bind fun v => .pure _

theorem construct_meets (locals : Locals) (e : Exp) : Meets Fault.OfEntry (statement locals (.construct e)) :=
  (expression_meets locals e).bind fun _ => .pure _

/-- Natives of a call may end it in any fault of their own. -/
theorem statement_meets (locals : Locals) (s : Stat) : Meets (fun _ => True) (statement locals s) := by
  cases s with
  | declare name init => exact (declare_meets locals name init).mono fun _ _ => trivial
  | assign target value => exact (assign_meets locals target value).mono fun _ _ => trivial
  | call callee args end_ =>
      refine ((expression_meets locals callee).mono fun _ _ => trivial).bind fun f => ?_
      refine ((arguments_meets locals args).mono fun _ _ => trivial).bind fun vs => ?_
      exact (call_meets f vs).bind fun _ => .pure _
  | construct e | stop e => exact (construct_meets locals e).mono fun _ _ => trivial

end Eval

end MiniLua

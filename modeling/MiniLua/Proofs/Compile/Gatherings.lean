import MiniLua.Proofs.Compile.Safety
import MiniLua.Proofs.Tree.Mentions

/-!
Values gathered in slots. A call takes its arguments, and a move into a table the entries that wait for it, from the
slots behind the one that the instruction names. A program says which expressions these are, and a run which values they
have had.
-/

namespace MiniLua

open ExecM

/-- Whether the instruction takes its values from the slots behind the one that it names. -/
def Instruction.gathers (i : Instruction) : Bool := i.opcode? == some .call || i.opcode? == some .setList

/-- Expressions whose values are gathered for one instruction, and how many locals they see. -/
structure Gathering where
  op : Opcode
  exps : List Exp
  scope : Nat

mutual

/-- The gatherings of an expression, in the order of their instructions. -/
def Exp.gatherings (scope : Nat) : Exp → List Gathering
  | .literal .. | .var _ | .fault _ => []
  | .table _ fs => fs.gatherings scope []
  | .minus _ e | .paren e _ | .field e _ _ | .faultAfter e _ => e.gatherings scope
  | .index base _ key _ => base.gatherings scope ++ key.gatherings scope

/-- The gatherings of the entries of a constructor, behind the positional ones that wait already. -/
def Fields.gatherings (scope : Nat) (waiting : List Exp) : Fields → List Gathering
  | .done _ => if waiting.isEmpty then [] else [⟨.setList, waiting, scope⟩]
  | .stop e => e.gatherings scope
  | .positional e rest =>
    e.gatherings scope ++
      if waiting.length + 1 = Gen.groupSize then ⟨.setList, waiting ++ [e], scope⟩ :: rest.gatherings scope []
      else rest.gatherings scope (waiting ++ [e])
  | .named _ _ value rest => value.gatherings scope ++ rest.gatherings scope waiting
  | .keyed _ key _ value rest => key.gatherings scope ++ (value.gatherings scope ++ rest.gatherings scope waiting)

end

def Stat.gatherings (scope : Nat) : Stat → List Gathering
  | .declare _ init => init.elim [] (·.gatherings scope)
  | .assign target value => target.gatherings scope ++ value.gatherings scope
  | .call callee args _ => callee.gatherings scope ++ (args.flatMap (·.gatherings scope) ++ [⟨.call, args, scope⟩])
  | .construct e | .stop e => e.gatherings scope

def Block.gatherings (scope : Nat) : Block → List Gathering
  | [] => []
  | s :: rest => s.gatherings scope ++ Block.gatherings (if s.declared.isSome then scope + 1 else scope) rest

/-- The code that ran so far, from `start`, has evaluated the expressions one after the other. Other code may have run
before, behind and between them. -/
inductive Evaluates (c : Chunk) (ls : Array LocalInfo) (start : Machine) :
    List Instruction → List Exp → List Value → Prop
  | nil (before : List Instruction) : Evaluates c ls start before [] []
  | concat {before is : List Instruction} {es : List Exp} {vs : List Value} {m m' : Machine} {e : Exp} {v : Value}
      (h : Evaluates c ls start before es vs) (hm : (steps c before).run start = (.ok (), m))
      (hs : (steps c is).run m = (.ok (), m'))
      (hx : (Eval.expression (m.locals ls) e).run m.world = (.ok v, m'.world)) :
      Evaluates c ls start (before ++ is) (es ++ [e]) (vs ++ [v])
  | more {before : List Instruction} {es : List Exp} {vs : List Value} (h : Evaluates c ls start before es vs)
      (after : List Instruction) : Evaluates c ls start (before ++ after) es vs

theorem Evaluates.length_eq {c : Chunk} {ls : Array LocalInfo} {start : Machine} {before : List Instruction}
    {es : List Exp} {vs : List Value} (h : Evaluates c ls start before es vs) : vs.length = es.length := by
  induction h with
  | nil => rfl
  | concat _ _ _ _ ih => rw [List.length_append, List.length_append, ih]; rfl
  | more _ _ ih => exact ih

/-- The slots from `base` on, up to the last that holds one of the values. -/
theorem Evaluates.slots_eq {c : Chunk} {ls : Array LocalInfo} {start : Machine} {before : List Instruction}
    {es : List Exp} {vs : List Value} (h : Evaluates c ls start before es vs) (base : Nat) (v : Value) :
    base + (v :: vs).length = base + 1 + es.length := by
  rw [List.length_cons, h.length_eq]
  omega

theorem ExecM.exists_steps_append {c : Chunk} {is js : List Instruction} {m m' : Machine}
    (h : (steps c (is ++ js)).run m = (.ok (), m')) :
    ∃ m₁, (steps c is).run m = (.ok (), m₁) ∧ (steps c js).run m₁ = (.ok (), m') := by
  rw [steps_append] at h
  split at h
  · next m₁ hs => exact ⟨m₁, hs, h⟩
  · cases h

namespace Gathering

variable (c : Chunk) (start : Machine)

/-- The instruction is the one that the values are gathered for. -/
structure Fits (w : Gathering) (i : Instruction) : Prop where
  op : i.opcode? = some w.op
  count : i.b.toNat = w.exps.length

/-- The values of the expressions, as the code so far has evaluated them, are in the slots behind that of `i`. -/
def Gathered (w : Gathering) (i : Instruction) (before : List Instruction) (m : Machine) : Prop :=
  ∃ vs, m.Holds (i.a.toNat + 1) vs ∧ Evaluates c (c.locals.take w.scope) start before w.exps vs

end Gathering

/-- Run after code for which `A` holds, the code `is` comes to the gatherings `ws`, one after the other and each at an
instruction of its own. -/
structure Sited (c : Chunk) (start : Machine) (A : List Instruction → Machine → Prop) (is : List Instruction)
    (ws : List Gathering) : Prop where
  count : is.countP (·.gathers) = ws.length
  site : ∀ pre i post, is = pre ++ i :: post → i.gathers = true →
    ∃ w, ws[pre.countP (·.gathers)]? = some w ∧ w.Fits i ∧
      ∀ before m m', A before m → (steps c pre).run m = (.ok (), m') → w.Gathered c start i (before ++ pre) m'

namespace Sited

variable {c : Chunk} {start : Machine} {A B : List Instruction → Machine → Prop} {is js : List Instruction}
  {ws us : List Gathering}

theorem mono (h : Sited c start B is ws) (hA : ∀ before m, A before m → B before m) : Sited c start A is ws := by
  refine ⟨h.count, fun pre i post his hi => ?_⟩
  obtain ⟨w, hw, hfits, hgathered⟩ := h.site pre i post his hi
  exact ⟨w, hw, hfits, fun before m m' hm => hgathered before m m' (hA before m hm)⟩

theorem of_plain (h : ∀ i ∈ is, i.gathers = false) : Sited c start A is [] := by
  refine ⟨List.countP_eq_zero.mpr fun i hi => by simp [h i hi], fun pre i post his hi => ?_⟩
  have hfalse := h i (by simp [his])
  rw [hi] at hfalse
  cases hfalse

theorem singleton {i : Instruction} {w : Gathering} (hi : i.gathers = true) (hfits : w.Fits i)
    (h : ∀ before m, A before m → w.Gathered c start i before m) : Sited c start A [i] [w] := by
  refine ⟨by simp [hi], fun pre j post his hj => ?_⟩
  obtain ⟨rfl, rfl⟩ : pre = [] ∧ j = i := by
    cases pre with
    | nil => exact ⟨rfl, (List.cons.inj his).1.symm⟩
    | cons k pre => simp at his
  refine ⟨w, rfl, hfits, fun before m m' hm hs => ?_⟩
  obtain rfl : m = m' := (Prod.mk.inj hs).2
  rw [List.append_nil]
  exact h before m hm

/-- An instruction of two pieces of code is one of the second or one of the first. -/
theorem split_append {pre post : List Instruction} {i : Instruction} (h : is ++ js = pre ++ i :: post) :
    (∃ mid, pre = is ++ mid ∧ js = mid ++ i :: post) ∨ ∃ mid, is = pre ++ i :: mid := by
  rcases List.append_eq_append_iff.mp h with ⟨mid, hpre, hjs⟩ | ⟨mid, his, hmid⟩
  · exact .inl ⟨mid, hpre, hjs⟩
  · cases mid with
    | nil => exact .inl ⟨[], by rw [his, List.append_nil, List.append_nil], hmid.symm⟩
    | cons j mid =>
        obtain ⟨rfl, -⟩ := List.cons.inj hmid
        exact .inr ⟨mid, his⟩

/-- Code whose run leads from `A` to `B`, and code that is run then. -/
theorem append (h : Sited c start A is ws)
    (hB : ∀ before m m', A before m → (steps c is).run m = (.ok (), m') → B (before ++ is) m')
    (h' : Sited c start B js us) : Sited c start A (is ++ js) (ws ++ us) := by
  refine ⟨by rw [List.countP_append, h.count, h'.count, List.length_append], fun pre i post heq hi => ?_⟩
  rcases split_append heq with ⟨mid, rfl, hjs⟩ | ⟨mid, his⟩
  · obtain ⟨w, hw, hfits, hgathered⟩ := h'.site mid i post hjs hi
    refine ⟨w, ?_, hfits, fun before m m' hm hs => ?_⟩
    · rw [List.countP_append, h.count, List.getElem?_append_right (Nat.le_add_right _ _), Nat.add_sub_cancel_left]
      exact hw
    · obtain ⟨m₁, hs₁, hs₂⟩ := exists_steps_append hs
      rw [← List.append_assoc]
      exact hgathered _ m₁ m' (hB before m m₁ hm hs₁) hs₂
  · obtain ⟨w, hw, hfits, hgathered⟩ := h.site pre i mid his hi
    refine ⟨w, ?_, hfits, hgathered⟩
    rw [List.getElem?_append_left (List.getElem?_eq_some_iff.mp hw).1]
    exact hw

theorem append_plain (h : Sited c start A is ws) (hjs : ∀ i ∈ js, i.gathers = false) :
    Sited c start A (is ++ js) ws := by
  have happend := h.append (B := fun _ _ => True) (fun _ _ _ _ _ => trivial) (of_plain hjs)
  rwa [List.append_nil] at happend

end Sited

namespace Yields

variable {α : Type} {c : Chunk} {is : List Instruction} {m m' : Machine} {x : EvalM α} {Q : α → Machine → Prop}

/-- Where the code runs to its end, so does the evaluation. -/
theorem ends (h : Yields c is m x Q) (hs : (steps c is).run m = (.ok (), m')) :
    ∃ a, x.run m.world = (.ok a, m'.world) ∧ Q a m' := by
  cases h with
  | ok hs' hx hQ =>
      obtain rfl := (Prod.mk.inj (hs.symm.trans hs')).2
      exact ⟨_, hx, hQ⟩
  | fault hs' => cases hs.symm.trans hs'

end Yields

theorem Computes.ends {c : Chunk} {is : List Instruction} {m m' : Machine} {x : EvalM Value} {e : Operand}
    {Q : Machine → Prop} (h : Computes c is m x e Q) (hs : (steps c is).run m = (.ok (), m')) : Q m' := by
  cases h with
  | ok hs' _ _ hQ =>
      obtain rfl := (Prod.mk.inj (hs.symm.trans hs')).2
      exact hQ
  | fault hs' => cases hs.symm.trans hs'

theorem Safe.ends {c : Chunk} {is : List Instruction} {m m' : Machine} {Q : Machine → Prop} (h : Safe c is m Q)
    (hs : (steps c is).run m = (.ok (), m')) : Q m' := by
  cases h with
  | ok hs' _ hQ =>
      obtain rfl := (Prod.mk.inj (hs.symm.trans hs')).2
      exact hQ
  | fault hs' => cases hs.symm.trans hs'

theorem Operand.plan_plain {e : Operand} {dst : UInt8} {pool pool' : Chunk} {code : List Instruction}
    (h : e.plan dst pool = .ok (code, pool')) : ∀ i ∈ code, i.gathers = false := by
  have hload {v : Value} (h : loadConstant v dst pool = .ok (code, pool')) : ∀ i ∈ code, i.gathers = false := by
    unfold loadConstant at h
    split at h
    · cases h
      exact List.forall_mem_singleton.mpr rfl
    · cases h
  cases e with
  | float | str => exact hload h
  | slot s =>
      simp only [plan] at h
      split at h <;> cases h
      · exact List.forall_mem_nil _
      · exact List.forall_mem_singleton.mpr rfl
  | other => cases h
  | nil | bool | int | index | field | element | global =>
      cases h
      exact List.forall_mem_singleton.mpr rfl

namespace Gen

variable {α β : Type}

/-- The code that is added gathers no values. -/
def Plain (x : GenM α) : Prop :=
  ∀ g a g', x.run g = .ok (a, g') →
    ∃ is, g'.chunk.code.toList = g.chunk.code.toList ++ is ∧ ∀ i ∈ is, i.gathers = false

namespace Plain

theorem of_grows {x : GenM α} (h : ∀ g a g', x.run g = .ok (a, g') → Grows g [] g') : Plain x :=
  fun g a g' hrun => ⟨[], (h g a g' hrun).code, List.forall_mem_nil _⟩

theorem pure (a : α) : Plain (Pure.pure a : GenM α) := .of_grows fun g b g' h => by
  obtain ⟨-, rfl⟩ := run_pure_ok.mp h
  exact .refl g'

theorem bind {x : GenM α} {k : α → GenM β} (hx : Plain x) (hk : ∀ a, Plain (k a)) : Plain (x >>= k) := by
  intro g b g' h
  obtain ⟨a, g₁, h₁, h₂⟩ := run_bind_ok h
  obtain ⟨is, hcode, his⟩ := hx g a g₁ h₁
  obtain ⟨js, hcode', hjs⟩ := hk a g₁ b g' h₂
  exact ⟨is ++ js, by rw [hcode', hcode, List.append_assoc], List.forall_mem_append.mpr ⟨his, hjs⟩⟩

theorem get_bind {k : Gen → GenM α} (hk : ∀ g, Plain (k g)) : Plain (get >>= k) := fun g a g' h => hk g g a g' h

theorem modify {u : Gen → Gen} (h : ∀ g, (u g).chunk = g.chunk) : Plain (modify u : GenM PUnit) :=
  .of_grows fun g _ g' hrun => by
    obtain rfl := run_modify_ok.mp hrun
    exact .of_chunk_eq (h g)

theorem emit {op : Opcode} {a b c : UInt8} (h : Instruction.gathers { op := op.code, a, b, c } = false) :
    Plain (emit op a b c) :=
  fun _ _ _ hrun => ⟨_, (emit_grows hrun).1.code, List.forall_mem_singleton.mpr h⟩

end Plain

theorem constant_plain (v : Value) (pos : Position) : Plain (constant v pos) :=
  .of_grows fun _ _ _ h => (constant_grows h).1

theorem allocate_plain (pos : Position) : Plain (allocate pos) := .of_grows fun g n g' h => by
  obtain ⟨-, -, rfl⟩ := allocate_ok h
  exact .of_chunk_eq rfl

theorem releaseOperand_plain (e : Operand) : Plain (releaseOperand e) := by
  have hrelease (slot : Int) : Plain (release slot) := .modify fun g => by split <;> rfl
  cases e with
  | slot | field | element => exact hrelease _
  | index => exact .bind (hrelease _) fun _ => hrelease _
  | _ => exact .pure _

theorem discharge_plain (e : Operand) (dst : Nat) (pos : Position) : Plain (discharge e dst pos) := by
  intro g u g' h
  obtain ⟨code, pool, hplan, rfl⟩ := discharge_ok h
  exact ⟨code, (plan_grows hplan g.top).code, Operand.plan_plain hplan⟩

theorem dischargeNext_plain (e : Operand) (pos : Position) : Plain (dischargeNext e pos) :=
  .bind (releaseOperand_plain e) fun _ => .bind (allocate_plain pos) fun dst =>
    .bind (discharge_plain e dst pos) fun _ => .pure dst

theorem dischargeTop_plain (e : Operand) (pos : Position) : Plain (dischargeTop e pos) := by
  unfold dischargeTop
  split
  · exact .pure _
  · exact .bind (dischargeNext_plain e pos) fun _ => .pure _

theorem constantOrSlot_plain (e : Operand) (pos : Position) : Plain (constantOrSlot e pos) := by
  unfold constantOrSlot
  split
  · exact .bind (constant_plain _ pos) fun _ => .pure _
  · exact .bind (dischargeTop_plain e pos) fun _ => .pure _

theorem resolve_plain (name : Name) : Plain (resolve name) := by
  refine .get_bind fun g => ?_
  split
  · exact .pure _
  · exact .bind (constant_plain _ _) fun _ => .pure _

theorem indexBy_plain (slot : Int) (key : Operand) (pos : Position) : Plain (indexBy slot key pos) := by
  have hindex (key : Operand) : Plain (return .index slot (← dischargeTop key pos) : GenM Operand) :=
    .bind (dischargeTop_plain key pos) fun _ => .pure _
  unfold indexBy
  split
  · exact .bind (constant_plain _ pos) fun _ => .pure _
  · split
    · exact .pure _
    · exact hindex _
  · exact hindex key

theorem store_plain (target : Operand) (value : UInt8) (isConst : Bool) : Plain (store target value isConst) := by
  cases target with
  | field | element | index => cases isConst <;> exact .emit rfl
  | _ => exact .pure _

theorem assign_plain (target e : Operand) (pos : Position) : Plain (assign target e pos) := by
  have hstore : Plain (constantOrSlot e pos >>= fun p => store target p.1 p.2) :=
    .bind (constantOrSlot_plain e pos) fun p => store_plain target p.1 p.2
  cases target with
  | slot s => exact discharge_plain e _ pos
  | global key =>
      unfold assign assignGlobal
      dsimp only
      split
      · exact .emit rfl
      · refine .bind (constantOrSlot_plain e pos) fun p => ?_
        split <;> exact .emit rfl
  | _ => exact hstore

end Gen

end MiniLua

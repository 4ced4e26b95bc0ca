import MiniLua.Compile.Generate

/-!
What each step of code generation does to the chunk and to the next free slot. Code and constants only grow, and an
operand takes up the slots between the top before it and the top behind it.
-/

namespace MiniLua

theorem Chunk.eq_of_sameConstant {v w : Value} (h : Chunk.sameConstant v w = true) : v = w := by
  cases v <;> cases w <;> simp only [Chunk.sameConstant, Value.equal, beq_iff_eq, reduceCtorEq] at h
  case nil.nil => rfl
  case float.float x y =>
    cases x; cases y
    exact congrArg _ (congrArg _ h)
  case str.str s t => exact congrArg _ (Str.ext_bytes h)
  all_goals exact congrArg _ h

/-- A constant keeps its place, and the pool has at most as many constants as before or one more. -/
theorem Chunk.addConstant_some {c c' : Chunk} {v : Value} {k : Nat} (h : c.addConstant v = some (k, c')) :
    c'.constants[k]? = some v ∧ (∀ (i : Nat) w, c.constants[i]? = some w → c'.constants[i]? = some w) ∧
      c'.code = c.code ∧ c'.locals = c.locals ∧
      (c.constants.size ≤ maxConstants → c'.constants.size ≤ maxConstants) := by
  unfold addConstant at h
  split at h
  · next i hi =>
    obtain ⟨rfl, rfl⟩ := Prod.mk.inj (Option.some.inj h)
    obtain ⟨hlt, hs, -⟩ := Array.findIdx?_eq_some_iff_getElem.mp hi
    have he : c.constants[i] = v := eq_of_sameConstant hs
    exact ⟨by rw [Array.getElem?_eq_getElem hlt, he], fun _ _ hw => hw, rfl, rfl, id⟩
  · split at h
    · next hlt =>
      obtain ⟨rfl, rfl⟩ := Prod.mk.inj (Option.some.inj h)
      refine ⟨by simp, fun i w hw => ?_, rfl, rfl, fun _ => ?_⟩
      · obtain ⟨hi, rfl⟩ := Array.getElem?_eq_some_iff.mp hw
        simp [Array.getElem?_push, Nat.ne_of_lt hi]
      · rw [Array.size_push]
        exact hlt
    · cases h

namespace Gen

variable {α β : Type} {g g' : Gen}

theorem run_bind_ok {x : GenM α} {f : α → GenM β} {b : β} (h : (x >>= f).run g = .ok (b, g')) :
    ∃ a g₁, x.run g = .ok (a, g₁) ∧ (f a).run g₁ = .ok (b, g') := by
  rw [StateT.run_bind] at h
  cases hx : x.run g with
  | error e =>
      rw [hx] at h
      cases h
  | ok r =>
      rw [hx] at h
      exact ⟨r.1, r.2, rfl, h⟩

theorem run_pure_ok {a b : α} : (pure a : GenM α).run g = .ok (b, g') ↔ b = a ∧ g' = g := by
  change Except.ok (a, g) = .ok (b, g') ↔ _
  simp [eq_comm]

theorem run_throw_ok {f : SourceFault} {a : α} : ¬ (throw f : GenM α).run g = .ok (a, g') := by
  intro h
  cases h

theorem run_fail_ok {cause : Cause} {pos : Position} {a : α} : ¬ (fail cause pos : GenM α).run g = .ok (a, g') :=
  run_throw_ok

theorem run_get_bind (f : Gen → GenM β) : (get >>= f).run g = (f g).run g := rfl

theorem run_set_bind {s : Gen} (f : PUnit → GenM β) : (set s >>= f).run g = (f ⟨⟩).run s := rfl

theorem run_set_ok {s : Gen} {u : PUnit} : (set s : GenM PUnit).run g = .ok (u, g') ↔ g' = s := by
  change Except.ok (⟨⟩, s) = .ok (u, g') ↔ _
  simp [eq_comm]

theorem run_modify_ok {f : Gen → Gen} {u : PUnit} : (modify f : GenM PUnit).run g = .ok (u, g') ↔ g' = f g := by
  change Except.ok (⟨⟩, f g) = .ok (u, g') ↔ _
  simp [eq_comm]

theorem constant_ok {v : Value} {pos : Position} {k : Nat} (h : (constant v pos).run g = .ok (k, g')) :
    ∃ c, g.chunk.addConstant v = some (k, c) ∧ g' = { g with chunk := c } := by
  rw [constant, run_get_bind] at h
  split at h
  · next k' c hc =>
    rw [run_set_bind] at h
    obtain ⟨rfl, rfl⟩ := run_pure_ok.mp h
    exact ⟨c, hc, rfl⟩
  · exact absurd h run_fail_ok

theorem allocate_ok {pos : Position} {n : Nat} (h : (allocate pos).run g = .ok (n, g')) :
    g.top < maxSlots ∧ n = g.top ∧ g' = { g with top := g.top + 1 } := by
  rw [allocate, run_get_bind] at h
  split at h
  · next ht =>
    rw [run_set_bind] at h
    obtain ⟨rfl, rfl⟩ := run_pure_ok.mp h
    exact ⟨ht, rfl, rfl⟩
  · exact absurd h run_fail_ok

theorem discharge_ok {e : Operand} {dst : Nat} {pos : Position} {u : Unit}
    (h : (discharge e dst pos).run g = .ok (u, g')) :
    ∃ code c, e.plan dst.toUInt8 g.chunk = .ok (code, c) ∧ g' = { g with chunk := code.foldl Chunk.emit c } := by
  rw [discharge, run_get_bind] at h
  split at h
  · next code c hp => exact ⟨code, c, hp, run_set_ok.mp h⟩
  · exact absurd h run_fail_ok

/-- What holds between two statements and everywhere inside one. -/
structure Ready (g : Gen) : Prop where
  locals_le_top : g.chunk.locals.size ≤ g.top
  top_le : g.top ≤ maxSlots
  slot_eq : ∀ (i : Nat) l, g.chunk.locals[i]? = some l → l.slot.toInt = i
  constants_le : g.chunk.constants.size ≤ Chunk.maxConstants

/-- The code `is` was added behind, and constants and locals are still where they were. -/
structure Grows (g : Gen) (is : List Instruction) (g' : Gen) : Prop where
  code : g'.chunk.code.toList = g.chunk.code.toList ++ is
  constants : ∀ (k : Nat) v, g.chunk.constants[k]? = some v → g'.chunk.constants[k]? = some v
  locals : g'.chunk.locals = g.chunk.locals
  constants_le : g.chunk.constants.size ≤ Chunk.maxConstants → g'.chunk.constants.size ≤ Chunk.maxConstants

namespace Grows

theorem refl (g : Gen) : Grows g [] g := ⟨by simp, fun _ _ h => h, rfl, id⟩

theorem trans {g₁ : Gen} {is js : List Instruction} (h : Grows g is g₁) (h' : Grows g₁ js g') : Grows g (is ++ js) g' := by
  refine ⟨?_, fun k v hk => h'.constants k v (h.constants k v hk), h'.locals.trans h.locals,
    fun hc => h'.constants_le (h.constants_le hc)⟩
  rw [h'.code, h.code, List.append_assoc]

/-- Only the top has moved. -/
theorem of_chunk_eq (h : g'.chunk = g.chunk) : Grows g [] g' := by
  refine ⟨by simp [h], fun k v hk => by rw [h]; exact hk, by rw [h], fun hc => by rw [h]; exact hc⟩

theorem ready {is : List Instruction} (h : Grows g is g') (hg : Ready g) (hl : g.chunk.locals.size ≤ g'.top)
    (ht : g'.top ≤ maxSlots) : Ready g' :=
  ⟨by rw [h.locals]; exact hl, ht, by rw [h.locals]; exact hg.slot_eq, h.constants_le hg.constants_le⟩

end Grows

theorem constant_grows {v : Value} {pos : Position} {k : Nat} (h : (constant v pos).run g = .ok (k, g')) :
    Grows g [] g' ∧ g'.top = g.top ∧ g'.chunk.constants[k]? = some v := by
  obtain ⟨c, hc, rfl⟩ := constant_ok h
  obtain ⟨hk, hconst, hcode, hlocals, hle⟩ := Chunk.addConstant_some hc
  exact ⟨⟨by simp [hcode], hconst, hlocals, hle⟩, rfl, hk⟩

theorem emit_grows {op : Opcode} {a b c : UInt8} {u : Unit} (h : (emit op a b c).run g = .ok (u, g')) :
    Grows g [{ op := op.code, a, b, c }] g' ∧ g'.top = g.top := by
  obtain rfl := run_modify_ok.mp h
  exact ⟨⟨by simp [Chunk.emit], fun _ _ hk => hk, rfl, id⟩, rfl⟩

theorem foldl_emit_grows (is : List Instruction) (g : Gen) (n : Nat) :
    Grows g is { chunk := is.foldl Chunk.emit g.chunk, top := n } := by
  induction is generalizing g with
  | nil => exact .of_chunk_eq rfl
  | cons i is ih =>
      have hi : Grows g [i] { g with chunk := g.chunk.emit i } :=
        ⟨by simp [Chunk.emit], fun _ _ hk => hk, rfl, id⟩
      exact hi.trans (ih { g with chunk := g.chunk.emit i })

theorem plan_grows {e : Operand} {dst : UInt8} {code : List Instruction} {c : Chunk}
    (h : e.plan dst g.chunk = .ok (code, c)) (n : Nat) :
    Grows g code { chunk := code.foldl Chunk.emit c, top := n } := by
  have hload {v : Value} (h : Operand.loadConstant v dst g.chunk = .ok (code, c)) : Grows g [] { g with chunk := c } := by
    unfold Operand.loadConstant at h
    split at h
    · next k c' hc =>
      obtain ⟨-, rfl⟩ := Prod.mk.inj (Except.ok.inj h)
      obtain ⟨-, hconst, hcode, hlocals, hle⟩ := Chunk.addConstant_some hc
      exact ⟨by simp [hcode], hconst, hlocals, hle⟩
    · cases h
  have hg : Grows g [] { g with chunk := c } := by
    cases e with
    | float x | str content => exact hload h
    | slot s =>
        simp only [Operand.plan] at h
        split at h <;> cases h <;> exact .refl g
    | other code s key => cases h
    | nil | bool | int | global | index | field | element => cases h; exact .refl g
  exact hg.trans (foldl_emit_grows code { g with chunk := c } n)

/-- A slot that an operand mentions is that of a local, or the one temporary from `a` to `b`. -/
def Spans (locals a b n : Nat) : Prop := n < locals ∧ b = a ∨ n = a ∧ b = a + 1

/-- The operand mentions locals, and every temporary from the top of `g` to that of `g'`, each once and in order. -/
def Occupies (g g' : Gen) : Operand → Prop
  | .nil | .bool _ | .int _ | .float _ | .str _ | .global _ => g'.top = g.top
  | .slot s | .field s _ | .element s _ => ∃ n : Nat, s = n ∧ Spans g.chunk.locals.size g.top g'.top n
  | .index s key => ∃ n k b : Nat, s = n ∧ key = k ∧
      Spans g.chunk.locals.size g.top b n ∧ Spans g.chunk.locals.size b g'.top k
  | .other .. => False

theorem Spans.lt {locals a b n : Nat} (h : Spans locals a b n) (hl : locals ≤ a) : n < b := by
  rcases h with ⟨hn, rfl⟩ | ⟨rfl, rfl⟩ <;> omega

theorem Spans.le {locals a b n : Nat} (h : Spans locals a b n) : a ≤ b := by
  rcases h with ⟨-, rfl⟩ | ⟨-, rfl⟩ <;> omega

theorem Occupies.top_le {e : Operand} (h : Occupies g g' e) : g.top ≤ g'.top := by
  cases e with
  | nil | bool | int | float | str | global => exact Nat.le_of_eq (Eq.symm h)
  | slot | field | element => obtain ⟨n, -, hn⟩ := h; exact hn.le
  | index => obtain ⟨n, k, b, -, -, hn, hk⟩ := h; exact Nat.le_trans hn.le hk.le
  | other => cases h

theorem release_spans {a b n : Nat} (h : Spans g.chunk.locals.size a b n) (hl : g.chunk.locals.size ≤ a)
    (ht : g.top = b) : (release n).run g = .ok ((), { g with top := a }) := by
  change Except.ok ((), if _ then _ else _) = _
  congr 2
  rcases h with ⟨hn, rfl⟩ | ⟨rfl, rfl⟩
  · rw [if_neg (by omega), ← ht]
  · rw [if_pos (by omega), ht]
    rfl

theorem releaseOperand_occupies {e : Operand} (h : Occupies g g' e) (hl : g'.chunk.locals = g.chunk.locals)
    (hg : Ready g) : (releaseOperand e).run g' = .ok ((), { g' with top := g.top }) := by
  have hle := hg.locals_le_top
  rw [← hl] at hle
  cases e with
  | nil | bool | int | float | str | global =>
      have ht : g'.top = g.top := h
      rw [← ht]
      rfl
  | slot | field | element =>
      obtain ⟨n, rfl, hn⟩ := h
      rw [← hl] at hn
      exact release_spans hn hle rfl
  | index =>
      obtain ⟨n, k, b, rfl, rfl, hn, hk⟩ := h
      rw [← hl] at hn hk
      rw [releaseOperand, StateT.run_bind, release_spans hk (Nat.le_trans hle hn.le) rfl]
      exact release_spans (g := { g' with top := b }) hn hle rfl
  | other => cases h

/-- An operand goes to the slot where its temporaries began. -/
theorem dischargeNext_ok {e : Operand} {pos : Position} {n : Nat} {g'' : Gen} (he : Occupies g g' e)
    (hl : g'.chunk.locals = g.chunk.locals) (hg : Ready g) (h : (dischargeNext e pos).run g' = .ok (n, g'')) :
    n = g.top ∧ g.top < maxSlots ∧
      ∃ code c, e.plan n.toUInt8 g'.chunk = .ok (code, c) ∧
        g'' = { chunk := code.foldl Chunk.emit c, top := g.top + 1 } := by
  obtain ⟨_, g₁, hr, h⟩ := run_bind_ok h
  obtain ⟨-, rfl⟩ := Prod.mk.inj (Except.ok.inj (hr.symm.trans (releaseOperand_occupies he hl hg)))
  obtain ⟨dst, g₂, ha, h⟩ := run_bind_ok h
  obtain ⟨ht, rfl, rfl⟩ := allocate_ok ha
  obtain ⟨_, g₃, hd, h⟩ := run_bind_ok h
  obtain ⟨code, c, hp, rfl⟩ := discharge_ok hd
  obtain ⟨rfl, rfl⟩ := run_pure_ok.mp h
  exact ⟨rfl, ht, code, c, hp, rfl⟩

end Gen

end MiniLua

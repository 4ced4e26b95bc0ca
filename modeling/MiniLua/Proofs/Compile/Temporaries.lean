import MiniLua.Proofs.Compile.Constants
import MiniLua.Proofs.Compile.Sites

/-!
Temporaries. What an expression leaves takes up a few slots from the top on, without a gap, and gives them all back when
it is placed. So values that are placed one after the other lie one behind the other.
-/

namespace MiniLua

/-- The slots that an operand mentions. -/
def Operand.slots : Operand → List Int
  | .slot s | .field s _ | .element s _ => [s]
  | .index s key | .other _ s key => [s, key]
  | _ => []

/-- Only a constant that the full pool lacks keeps an operand from being placed. -/
theorem Operand.plan_error {e : Operand} {dst : UInt8} {c : Chunk} {f : PlanFault}
    (he : ∀ code s key, e ≠ .other code s key) (h : e.plan dst c = .error f) : ∃ v, c.addConstant v = none := by
  have hload {v : Value} (h : loadConstant v dst c = .error f) : ∃ v, c.addConstant v = none := by
    unfold loadConstant at h
    split at h
    · cases h
    · next hnone => exact ⟨v, hnone⟩
  cases e with
  | float | str => exact hload h
  | slot s =>
      simp only [plan] at h
      split at h <;> cases h
  | other code s key => exact absurd rfl (he code s key)
  | nil | bool | int | index | field | element | global => cases h

namespace Gen

variable {g g' : Gen} {e : Operand}

theorem Ready.exists_local (hg : Ready g) {n : Nat} (hn : n < g.chunk.locals.size) :
    ∃ l ∈ g.chunk.locals, l.slot.toInt = n := by
  refine ⟨g.chunk.locals[n], Array.getElem_mem hn, hg.slot_eq n _ (Array.getElem?_eq_getElem hn)⟩

/-- The slot `s` is that of a local, or a temporary from `a` to `b`. -/
def Mentionable (locals : Array LocalInfo) (a b : Nat) (s : Int) : Prop :=
  (∃ l ∈ locals, l.slot.toInt = s) ∨ (a : Int) ≤ s ∧ s < b

theorem Spans.mentionable {a b n : Nat} (hg : Ready g) (h : Spans g.chunk.locals.size a b n) :
    Mentionable g.chunk.locals a b n := by
  rcases h with ⟨hn, -⟩ | ⟨rfl, rfl⟩
  · exact .inl (hg.exists_local hn)
  · exact .inr ⟨Int.le_refl _, by omega⟩

theorem Spans.le_succ {locals a b n : Nat} (h : Spans locals a b n) : b ≤ a + 1 := by
  rcases h with ⟨-, rfl⟩ | ⟨-, rfl⟩ <;> omega

theorem Spans.eq_of_le {locals a b n i : Nat} (h : Spans locals a b n) (hi : a ≤ i) (hib : i < b) : i = n := by
  rcases h with ⟨-, rfl⟩ | ⟨rfl, rfl⟩ <;> omega

/-- An operand mentions locals and temporaries, and each of its temporaries. -/
theorem Occupies.slots (h : Occupies g g' e) (hg : Ready g) :
    g'.top ≤ g.top + 2 ∧ (∀ s ∈ e.slots, Mentionable g.chunk.locals g.top g'.top s) ∧
      ∀ i : Nat, g.top ≤ i → i < g'.top → (i : Int) ∈ e.slots := by
  cases e with
  | nil | bool | int | float | str | global =>
      have htop : g'.top = g.top := h
      exact ⟨by omega, List.forall_mem_nil _, fun i hi hi' => by omega⟩
  | slot | field | element =>
      obtain ⟨n, rfl, hn⟩ := h
      refine ⟨Nat.le_succ_of_le hn.le_succ, List.forall_mem_singleton.mpr (hn.mentionable hg), fun i hi hi' => ?_⟩
      rw [hn.eq_of_le hi hi']
      exact List.mem_singleton_self _
  | index =>
      obtain ⟨n, k, b, rfl, rfl, hn, hk⟩ := h
      have hle := hn.le
      have hle' := hk.le
      have htwo := Nat.le_trans hk.le_succ (Nat.succ_le_succ hn.le_succ)
      refine ⟨htwo, List.forall_mem_cons.mpr ⟨?_, ?_⟩, fun i hi hi' => ?_⟩
      · exact (hn.mentionable hg).imp_right fun hs => ⟨hs.1, by omega⟩
      · exact List.forall_mem_singleton.mpr ((hk.mentionable hg).imp_right fun hs => ⟨by omega, hs.2⟩)
      · -- The temporaries of the table come first, then those of the key.
        by_cases hb : i < b
        · rw [hn.eq_of_le hi hb]
          exact List.mem_cons_self
        · rw [hk.eq_of_le (Nat.le_of_not_lt hb) hi']
          exact List.mem_cons_of_mem _ (List.mem_singleton_self _)
  | other => cases h

theorem run_bind_error {α β : Type} {x : GenM α} {k : α → GenM β} {f : SourceFault} (h : (x >>= k).run g = .error f) :
    x.run g = .error f ∨ ∃ a g₁, x.run g = .ok (a, g₁) ∧ (k a).run g₁ = .error f := by
  rw [StateT.run_bind] at h
  cases hx : x.run g with
  | error f' =>
      rw [hx] at h
      exact .inl (congrArg _ (Except.error.inj h))
  | ok r =>
      rw [hx] at h
      exact .inr ⟨r.1, r.2, rfl, h⟩

theorem allocate_error {pos : Position} {f : SourceFault} (h : (allocate pos).run g = .error f) :
    f = ⟨.tooManySlots, pos⟩ ∧ maxSlots ≤ g.top := by
  rw [allocate, run_get_bind] at h
  split at h
  · cases h
  · next hfull => exact ⟨(Except.error.inj h).symm, Nat.le_of_not_lt hfull⟩

theorem discharge_error {dst : Nat} {pos : Position} {f : SourceFault} (he : ∀ code s key, e ≠ .other code s key)
    (h : (discharge e dst pos).run g = .error f) :
    f = ⟨.tooManyConstants, pos⟩ ∧ Chunk.maxConstants ≤ g.chunk.constants.size := by
  rw [discharge, run_get_bind] at h
  split at h
  · cases h
  · next hplan =>
    obtain ⟨v, hnone⟩ := Operand.plan_error he hplan
    exact ⟨(Except.error.inj h).symm, (Chunk.addConstant_eq_none_iff.mp hnone).1⟩

/-- Placing an operand fails only if all slots are in use or all constants are. -/
theorem dischargeNext_error {pos : Position} {f : SourceFault} (he : Occupies g g' e)
    (hl : g'.chunk.locals = g.chunk.locals) (hg : Ready g) (h : (dischargeNext e pos).run g' = .error f) :
    f = ⟨.tooManySlots, pos⟩ ∧ maxSlots ≤ g.top ∨
      f = ⟨.tooManyConstants, pos⟩ ∧ Chunk.maxConstants ≤ g'.chunk.constants.size := by
  have hother : ∀ code s key, e ≠ .other code s key := by
    rintro code s key rfl
    exact he
  rw [dischargeNext, run_bind_of_ok (releaseOperand_occupies he hl hg)] at h
  rcases run_bind_error h with h | ⟨dst, g₁, halloc, h⟩
  · have hfull := allocate_error h
    exact .inl hfull
  · obtain ⟨-, -, rfl⟩ := allocate_ok halloc
    rcases run_bind_error h with h | ⟨_, g₂, -, h⟩
    · have hfull := discharge_error hother h
      exact .inr hfull
    · cases h

theorem table_top {opened : Position} {fs : Fields} (hfs : fs.Whole) (hg : Ready g)
    (h : (expression (.table opened fs)).run g = .ok (e, g')) : e = .slot g.top ∧ g'.top = g.top + 1 := by
  obtain ⟨rfl, hput⟩ := table_puts (fieldsImplement fs hfs) hg h
  rcases hput.spans with ⟨hlt, -⟩ | ⟨-, htop⟩
  · exact absurd hg.locals_le_top (Nat.not_le.mpr hlt)
  · exact ⟨rfl, htop⟩

/-- The three ways in which the placing of an operand ends. -/
theorem dischargeNext_cases {x : Locals → EvalM Value} (h : Leaves g x e g') (hg : Ready g) (pos : Position) :
    ((dischargeNext e pos).run g' = .error ⟨.tooManySlots, pos⟩ ∧ g.top = maxSlots) ∨
      ((dischargeNext e pos).run g' = .error ⟨.tooManyConstants, pos⟩ ∧
        g'.chunk.constants.size = Chunk.maxConstants) ∨
      ∃ g'', (dischargeNext e pos).run g' = .ok (g.top, g'') ∧ g''.top = g.top + 1 ∧ Puts g x g.top g'' := by
  obtain ⟨is, hgrows, -⟩ := h.code
  cases hrun : (dischargeNext e pos).run g' with
  | error f =>
      rcases dischargeNext_error h.occupies hgrows.locals hg hrun with ⟨rfl, hfull⟩ | ⟨rfl, hfull⟩
      · exact .inl ⟨rfl, Nat.le_antisymm hg.top_le hfull⟩
      · exact .inr (.inl ⟨rfl, Nat.le_antisymm h.ready.constants_le hfull⟩)
  | ok r =>
      obtain ⟨hput, hn, htop⟩ := h.dischargeNext hg hrun
      rw [hn] at hput
      exact .inr (.inr ⟨r.2, by rw [← hn], htop, hput⟩)

/-- What an expression leaves takes up at most two temporaries, from the top on and without a gap, and is placed where
the first of them was. A constructor leaves its table in the first slot. So wherever a run of a compiled program comes
to a call or a move into a table, the values that it takes lie in the slots behind the one that it names, in the order
of their expressions in the program. -/
theorem temporaries_contiguous :
    (∀ (name : Bytes) (b : Block) (g : Gen), (∀ s ∈ b, s.Whole) →
      (block b).run { chunk := { name }, top := 0 } = .ok ((), g) → Ready g) ∧
    (∀ (g g' : Gen) (fuel : Nat) (ts rest : List Token) (e : Exp) (op : Operand), Ready g →
      Parser.expression fuel ts = .done e rest → (expression e).run g = .ok (op, g') →
      Ready g' ∧ g.top ≤ g'.top ∧ g'.top ≤ g.top + 2 ∧
      (∀ s ∈ op.slots, Mentionable g.chunk.locals g.top g'.top s) ∧
      (∀ i : Nat, g.top ≤ i → i < g'.top → (i : Int) ∈ op.slots) ∧
      ∀ pos,
        ((dischargeNext op pos).run g' = .error ⟨.tooManySlots, pos⟩ ∧ g.top = maxSlots) ∨
        ((dischargeNext op pos).run g' = .error ⟨.tooManyConstants, pos⟩ ∧
          g'.chunk.constants.size = Chunk.maxConstants) ∨
        ∃ g'', (dischargeNext op pos).run g' = .ok (g.top, g'') ∧ g''.top = g.top + 1 ∧
          Puts g (Eval.expression · e) g.top g'') ∧
    (∀ (g g' : Gen) (fuel : Nat) (ts rest : List Token) (opened : Position) (fs : Fields) (op : Operand), Ready g →
      Parser.fields fuel ts = .done fs rest → (expression (.table opened fs)).run g = .ok (op, g') →
      op = .slot g.top ∧ g'.top = g.top + 1) ∧
    ∀ (source name : Bytes) (c : Chunk), Chunk.compile source name = .ok c →
      let gatherings := (Block.ofTokens (Scanner.ofSource source none).tokens.1).gatherings 0
      c.code.toList.countP (·.gathers) = gatherings.length ∧
      ∀ pre i post, c.code.toList = pre ++ i :: post → i.gathers = true →
        ∃ w, gatherings[pre.countP (·.gathers)]? = some w ∧ w.Fits i ∧
          ∀ m m' : Machine, (ExecM.steps c pre).run { m with stack := #[] } = (.ok (), m') →
            w.Gathered c { m with stack := #[] } i pre m' := by
  refine ⟨fun name b g hb h => (block_locals hb (clear_start name) h).2.toReady, ?_, ?_, ?_⟩
  · intro g g' fuel ts rest e op hg hparse h
    have hsplits := Parser.expression_splits fuel ts
    rw [hparse] at hsplits
    have hleaves := expLeaves e hsplits hg h
    obtain ⟨htop, hslots, hall⟩ := hleaves.occupies.slots hg
    exact ⟨hleaves.ready, hleaves.occupies.top_le, htop, hslots, hall, dischargeNext_cases hleaves hg⟩
  · intro g g' fuel ts rest opened fs op hg hparse h
    have hsplits := Parser.fields_splits fuel ts
    rw [hparse] at hsplits
    exact table_top hsplits hg h
  · intro source name c h gatherings
    have hsited := Chunk.compile_sited h
    refine ⟨(hsited {}).count, fun pre i post hcode hi => ?_⟩
    obtain ⟨w, hw, hfits, -⟩ := (hsited {}).site pre i post hcode hi
    refine ⟨w, hw, hfits, fun m m' hs => ?_⟩
    obtain ⟨w', hw', -, hgathered⟩ := (hsited { m with stack := #[] }).site pre i post hcode hi
    obtain rfl := Option.some.inj (hw.symm.trans hw')
    exact hgathered [] _ m' ⟨rfl, Nat.zero_le _⟩ hs

end Gen

end MiniLua

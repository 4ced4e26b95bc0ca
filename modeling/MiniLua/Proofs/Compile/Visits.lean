import MiniLua.Proofs.Compile.Names

/-!
The states in which the generator comes to the variables of a program. In each of them the locals are those that the
statements before have declared.
-/

namespace MiniLua

namespace Gen

variable {α β : Type}

/-- Running `x` from `g` comes to an end for which `P` holds. -/
def After (x : GenM α) (g : Gen) (P : α → Gen → Prop) : Prop := ∃ a g', x.run g = .ok (a, g') ∧ P a g'

theorem after_iff {x : GenM α} {g g' : Gen} {a : α} (h : x.run g = .ok (a, g')) (P : α → Gen → Prop) :
    After x g P ↔ P a g' := by
  constructor
  · rintro ⟨b, g₁, h', hP⟩
    obtain ⟨rfl, rfl⟩ := Prod.mk.inj (Except.ok.inj (h.symm.trans h'))
    exact hP
  · exact fun hP => ⟨a, g', h, hP⟩

theorem run_bind_of_ok {x : GenM α} {f : α → GenM β} {g g' : Gen} {a : α} (h : x.run g = .ok (a, g')) :
    (x >>= f).run g = (f a).run g' := by
  rw [StateT.run_bind, h]
  rfl

end Gen

open Gen

mutual

/-- From the state `g`, generating code for the tree comes to the variable `v` in the state `s`. -/
def Exp.Visits (v : Name) (s : Gen) : Exp → Gen → Prop
  | .literal .., _ | .fault _, _ => False
  | .table opened fs, g =>
    After (allocate opened) g fun table g₁ =>
      After (emit .newTable table.toUInt8 0 0) g₁ fun _ g₂ => fs.Visits v s table {} g₂
  | .minus _ e, g | .paren e _, g | .field e _ _, g | .faultAfter e _, g => e.Visits v s g
  | .var name, g => name = v ∧ g = s
  | .index base opened key _, g =>
    base.Visits v s g ∨
      After (do dischargeTop (← expression base) opened) g fun _ g₁ => key.Visits v s g₁

def Fields.Visits (v : Name) (s : Gen) (table : Nat) (tally : Tally) : Fields → Gen → Prop
  | .done _, _ => False
  | .stop e, g => e.Visits v s g
  | .positional e rest, g =>
    e.Visits v s g ∨
      After (do dischargeNext (← expression e) e.last) g fun _ g₁ =>
        let tally := tally.addPositional
        if tally.pending = groupSize then
          After (flush table tally.pending) g₁ fun _ g₂ => rest.Visits v s table { tally with pending := 0 } g₂
        else rest.Visits v s table tally g₁
  | .named name assign value rest, g =>
    After (do checkKey (.str name.text) name.pos; indexBy table (.str name.text) assign) g
        (fun _ g₁ => value.Visits v s g₁) ∨
      After (storeEntry table (.str name.text) name.pos assign (expression value) value.last g.top) g fun _ g₁ =>
        rest.Visits v s table tally.addKeyed g₁
  | .keyed opened key assign value rest, g =>
    key.Visits v s g ∨
      After (expression key) g fun k g₁ =>
        After (do checkKey k opened; indexBy table k assign) g₁ (fun _ g₂ => value.Visits v s g₂) ∨
          After (storeEntry table k opened assign (expression value) value.last g.top) g₁ fun _ g₂ =>
            rest.Visits v s table tally.addKeyed g₂

end

def Exp.VisitsIn (v : Name) (s : Gen) : List Exp → Gen → Prop
  | [], _ => False
  | e :: es, g =>
    e.Visits v s g ∨ After (do dischargeNext (← expression e) e.last) g fun _ g₁ => VisitsIn v s es g₁

def Stat.Visits (v : Name) (s : Gen) : Stat → Gen → Prop
  | .declare _ none, _ => False
  | .declare _ (some e), g | .construct e, g | .stop e, g => e.Visits v s g
  | .assign target value, g => target.Visits v s g ∨ After (expression target) g fun _ g₁ => value.Visits v s g₁
  | .call callee args _, g =>
    callee.Visits v s g ∨
      After (do dischargeNext (← expression callee) callee.last) g fun _ g₁ => Exp.VisitsIn v s args g₁

def Block.Visits (v : Name) (s : Gen) : Block → Gen → Prop
  | [], _ => False
  | st :: rest, g => st.Visits v s g ∨ After (statement st) g fun _ g₁ => Visits v s rest (settle g₁)

namespace Gen

/-- What is visited are the variables among the mentions, in states that have the locals of `g`. -/
structure Sees (g : Gen) (ms : List Mention) (V : Name → Gen → Prop) : Prop where
  mem_iff : ∀ v, v ∈ ms.filterMap Mention.varName? ↔ ∃ s, V v s
  locals : ∀ v s, V v s → s.chunk.locals = g.chunk.locals
  resolves : ∀ v s, V v s → ∃ op s', (resolve v).run s = .ok (op, s')

namespace Sees

variable {g g₁ : Gen} {ms ms' : List Mention} {V V' : Name → Gen → Prop}

theorem none : Sees g [] fun _ _ => False := by
  refine ⟨fun v => ?_, fun _ _ h => h.elim, fun _ _ h => h.elim⟩
  simp

theorem congr (h : Sees g ms V) (hms : ms'.filterMap Mention.varName? = ms.filterMap Mention.varName?) :
    Sees g ms' V := by
  refine ⟨fun v => ?_, h.locals, h.resolves⟩
  rw [hms]
  exact h.mem_iff v

theorem or (h : Sees g ms V) (h' : Sees g ms' V') : Sees g (ms ++ ms') fun v s => V v s ∨ V' v s := by
  refine ⟨fun v => ?_, fun v s => ?_, fun v s => ?_⟩
  · rw [List.filterMap_append, List.mem_append, h.mem_iff, h'.mem_iff, exists_or]
  · exact Or.rec (h.locals v s) (h'.locals v s)
  · exact Or.rec (h.resolves v s) (h'.resolves v s)

theorem after {α : Type} {x : GenM α} {a : α} {W : Name → Gen → α → Gen → Prop} (hx : x.run g = .ok (a, g₁))
    (hl : g₁.chunk.locals = g.chunk.locals) (h : Sees g₁ ms fun v s => W v s a g₁) :
    Sees g ms fun v s => After x g (W v s) := by
  simp only [after_iff hx]
  exact ⟨h.mem_iff, fun v s hv => (h.locals v s hv).trans hl, h.resolves⟩

end Sees

/-- The locals stay as they are, and the constants within their bound. -/
theorem Uses.kept {α : Type} {pending : Chunk → α → List Bytes} {names : Chunk → List Bytes} {x : GenM α} {g g' : Gen}
    {a : α} (hx : Uses g.chunk.locals pending names x) (hc : g.chunk.constants.size ≤ Chunk.maxConstants)
    (h : x.run g = .ok (a, g')) :
    g'.chunk.locals = g.chunk.locals ∧ g'.chunk.constants.size ≤ Chunk.maxConstants := by
  obtain ⟨is, hgrows, -⟩ := hx g a g' h rfl hc
  exact ⟨hgrows.locals, hgrows.constants_le hc⟩

/-- An expression is generated and placed, and what follows finds the locals as they were. -/
theorem place_ok {β : Type} {e : Exp} {k : Nat → GenM β} {g g' : Gen} {b : β} (he : e.Whole)
    (hc : g.chunk.constants.size ≤ Chunk.maxConstants)
    (h : (do k (← dischargeNext (← expression e) e.last)).run g = .ok (b, g')) :
    ∃ op g₁ n g₂, (expression e).run g = .ok (op, g₁) ∧
      (do dischargeNext (← expression e) e.last).run g = .ok (n, g₂) ∧ g₂.chunk.locals = g.chunk.locals ∧
      g₂.chunk.constants.size ≤ Chunk.maxConstants ∧ (k n).run g₂ = .ok (b, g') := by
  obtain ⟨op, g₁, hexp, h₁⟩ := run_bind_ok h
  obtain ⟨n, g₂, hnext, h₂⟩ := run_bind_ok h₁
  obtain ⟨hl₁, hc₁⟩ := (expression_uses e he).kept hc hexp
  obtain ⟨hl₂, hc₂⟩ := (dischargeNext_uses op e.last).kept hc₁ hnext
  exact ⟨op, g₁, n, g₂, hexp, (run_bind_of_ok hexp).trans hnext, hl₂.trans hl₁, hc₂, h₂⟩

/-- The value of an entry is generated where its key has been checked and placed. -/
theorem storeEntry_sees {table base : Nat} {key : Operand} {entry assign last : Position} {value : GenM Operand} {g g' : Gen}
    {u : Unit} {ms : List Mention} {W : Name → Gen → Gen → Prop} (hc : g.chunk.constants.size ≤ Chunk.maxConstants)
    (h : (storeEntry table key entry assign value last base).run g = .ok (u, g'))
    (hvalue : ∀ {g₁ g₂ op}, g₁.chunk.constants.size ≤ Chunk.maxConstants → value.run g₁ = .ok (op, g₂) →
      Sees g₁ ms (W · · g₁)) :
    Sees g ms fun v s => After (do checkKey key entry; indexBy table key assign) g fun _ g₁ => W v s g₁ := by
  obtain ⟨_, g₁, hcheck, h₁⟩ := run_bind_ok h
  obtain ⟨target, g₂, hindex, h₂⟩ := run_bind_ok h₁
  obtain ⟨op, g₃, hrun, -⟩ := run_bind_ok h₂
  obtain ⟨hl₁, hc₁⟩ := (checkKey_uses key entry).kept hc hcheck
  obtain ⟨hl₂, hc₂⟩ := (indexBy_uses (fun _ _ h => h) table key assign).kept hc₁ hindex
  exact .after ((run_bind_of_ok hcheck).trans hindex) (hl₂.trans hl₁) (hvalue hc₂ hrun)

mutual

theorem expression_sees {e : Exp} {g g' : Gen} {op : Operand} (he : e.Whole)
    (hc : g.chunk.constants.size ≤ Chunk.maxConstants) (h : (expression e).run g = .ok (op, g')) :
    Sees g e.mentions fun v s => e.Visits v s g := by
  cases e with
  | literal => exact .none
  | fault | faultAfter => cases he
  | table opened fs =>
      obtain ⟨table, g₁, halloc, h₁⟩ := run_bind_ok h
      rw [run_get_bind] at h₁
      obtain ⟨_, g₂, hemit, h₂⟩ := run_bind_ok h₁
      obtain ⟨tally, g₃, hfields, -⟩ := run_bind_ok h₂
      obtain ⟨hl₁, hc₁⟩ := (allocate_uses opened).kept hc halloc
      obtain ⟨hl₂, hc₂⟩ := (emit_uses _ _ _ _).kept hc₁ hemit
      exact .after halloc hl₁ (.after hemit hl₂ (fields_sees he hc₂ hfields))
  | minus pos operand =>
      obtain ⟨_, _, hop, -⟩ := run_bind_ok h
      exact expression_sees (e := operand) he.2 hc hop
  | var name =>
      refine ⟨fun v => ?_, ?_, ?_⟩
      · change v ∈ [name] ↔ ∃ s, name = v ∧ g = s
        simp [eq_comm]
      · rintro v s ⟨-, rfl⟩
        rfl
      · rintro v s ⟨rfl, rfl⟩
        exact ⟨op, g', h⟩
  | paren inner closed => exact expression_sees (e := inner) he hc h
  | field base dot name =>
      obtain ⟨_, _, hbase, -⟩ := run_bind_ok h
      exact (expression_sees (e := base) he hc hbase).congr (by simp [Exp.mentions, Mention.varName?])
  | index base opened key closed =>
      obtain ⟨b, g₁, hbase, h₁⟩ := run_bind_ok h
      obtain ⟨slot, g₂, hslot, h₂⟩ := run_bind_ok h₁
      obtain ⟨k, g₃, hkey, -⟩ := run_bind_ok h₂
      obtain ⟨hl₁, hc₁⟩ := (expression_uses base he.1).kept hc hbase
      obtain ⟨hl₂, hc₂⟩ := (dischargeTop_uses b opened).kept hc₁ hslot
      exact (expression_sees he.1 hc hbase).or
        (.after ((run_bind_of_ok hbase).trans hslot) (hl₂.trans hl₁) (expression_sees he.2 hc₂ hkey))

theorem fields_sees {fs : Fields} {g g' : Gen} {table : Nat} {tally tally' : Tally} (hfs : fs.Whole)
    (hc : g.chunk.constants.size ≤ Chunk.maxConstants) (h : (fields table tally fs).run g = .ok (tally', g')) :
    Sees g fs.mentions fun v s => fs.Visits v s table tally g := by
  cases fs with
  | done => exact .none
  | stop => cases hfs
  | positional e rest =>
      obtain ⟨op, g₁, n, g₂, he, hplace, hl, hc₂, h₂⟩ := place_ok hfs.1 hc h
      refine (expression_sees hfs.1 hc he).or (.after hplace hl ?_)
      dsimp only at h₂ ⊢
      split at h₂
      · next hfull =>
        obtain ⟨_, g₃, hflush, h₃⟩ := run_bind_ok h₂
        obtain ⟨hl₃, hc₃⟩ := (flush_uses table _).kept hc₂ hflush
        simp only [if_pos hfull]
        exact .after hflush hl₃ (fields_sees hfs.2 hc₃ h₃)
      · next hfull =>
        simp only [if_neg hfull]
        exact fields_sees hfs.2 hc₂ h₂
  | named name assign value rest =>
      rw [fields, run_get_bind] at h
      obtain ⟨_, g₁, hentry, h₁⟩ := run_bind_ok h
      obtain ⟨hl₁, hc₁⟩ := (storeEntry_uses _ _ _ _ (expression_uses value hfs.1) _ _).kept hc hentry
      have hvalue := storeEntry_sees (W := fun v s g => value.Visits v s g) hc hentry (expression_sees hfs.1)
      exact (hvalue.or (.after hentry hl₁ (fields_sees hfs.2 hc₁ h₁))).congr (by simp [Fields.mentions, Mention.varName?])
  | keyed opened key assign value rest =>
      rw [fields, run_get_bind] at h
      obtain ⟨k, g₁, hkey, h₁⟩ := run_bind_ok h
      obtain ⟨_, g₂, hentry, h₂⟩ := run_bind_ok h₁
      obtain ⟨hl₁, hc₁⟩ := (expression_uses key hfs.1).kept hc hkey
      obtain ⟨hl₂, hc₂⟩ := (storeEntry_uses _ _ _ _ (expression_uses value hfs.2.1) _ _).kept hc₁ hentry
      have hvalue := storeEntry_sees (W := fun v s g => value.Visits v s g) hc₁ hentry (expression_sees hfs.2.1)
      exact (expression_sees hfs.1 hc hkey).or
        (.after hkey hl₁ (hvalue.or (.after hentry hl₂ (fields_sees hfs.2.2 hc₂ h₂))))

end

theorem arguments_sees {es : List Exp} {g g' : Gen} {u : Unit} (hes : ∀ e ∈ es, e.Whole)
    (hc : g.chunk.constants.size ≤ Chunk.maxConstants) (h : (arguments es).run g = .ok (u, g')) :
    Sees g (es.flatMap Exp.mentions) fun v s => Exp.VisitsIn v s es g := by
  induction es generalizing g with
  | nil => exact .none
  | cons e es ih =>
      obtain ⟨he, hes⟩ := List.forall_mem_cons.mp hes
      obtain ⟨op, g₁, n, g₂, hexp, hplace, hl, hc₂, h₂⟩ := place_ok he hc h
      rw [List.flatMap_cons]
      exact (expression_sees he hc hexp).or (.after hplace hl (ih hes hc₂ h₂))

theorem statement_sees {st : Stat} {g g' : Gen} {u : Unit} (hst : st.Whole)
    (hc : g.chunk.constants.size ≤ Chunk.maxConstants) (h : (statement st).run g = .ok (u, g')) :
    Sees g st.mentions fun v s => st.Visits v s g := by
  cases st with
  | declare name init =>
      obtain ⟨-, g₁, -, hinit⟩ := declare_ok h
      cases init with
      | none => exact Sees.none.congr rfl
      | some e =>
          obtain ⟨op, g₂, hexp, -⟩ := hinit
          exact (expression_sees (hst e rfl) hc hexp).congr rfl
  | assign target value =>
      obtain ⟨t, g₁, htarget, h₁⟩ := run_bind_ok h
      obtain ⟨op, g₂, hvalue, -⟩ := run_bind_ok h₁
      obtain ⟨hl₁, hc₁⟩ := (expression_uses target hst.2.1).kept hc htarget
      exact (expression_sees hst.2.1 hc htarget).or (.after htarget hl₁ (expression_sees hst.2.2 hc₁ hvalue))
  | call callee args stop =>
      obtain ⟨op, g₁, fn, g₂, hcallee, hplace, hl, hc₂, h₂⟩ := place_ok hst.1 hc h
      obtain ⟨_, g₃, hargs, -⟩ := run_bind_ok h₂
      exact (expression_sees hst.1 hc hcallee).or (.after hplace hl (arguments_sees hst.2.1 hc₂ hargs))
  | construct e =>
      obtain ⟨op, g₁, hexp, -⟩ := run_bind_ok h
      cases e with
      | table => exact expression_sees hst hc hexp
      | _ => cases hst
  | stop => cases hst

theorem mem_localsAfter {ls : Array LocalInfo} {st : Stat} {l : LocalInfo} :
    l ∈ localsAfter ls st ↔ l ∈ ls ∨ ∃ d ∈ st.declared, l = entry d ls.size := by
  unfold localsAfter
  cases st.declared with
  | none => simp
  | some name => simp

theorem prefix_localsAfter (ls : Array LocalInfo) (st : Stat) : ls.toList <+: (localsAfter ls st).toList := by
  unfold localsAfter
  cases st.declared with
  | none => exact List.prefix_rfl
  | some name =>
      rw [Array.toList_push]
      exact List.prefix_append ..

theorem block_locals {b : Block} {g g' : Gen} {u : Unit} (hb : ∀ st ∈ b, st.Whole) (hg : Clear g)
    (h : (block b).run g = .ok (u, g')) : g.chunk.locals.toList <+: g'.chunk.locals.toList ∧ Clear g' := by
  induction b generalizing g with
  | nil =>
      obtain ⟨-, rfl⟩ := run_pure_ok.mp h
      exact ⟨List.prefix_rfl, hg⟩
  | cons st b ih =>
      obtain ⟨hst, hb⟩ := List.forall_mem_cons.mp hb
      obtain ⟨g₁, hrun, hrest⟩ := block_cons_ok h
      obtain ⟨is, hfollows, hlocals, -⟩ := statement_names hst hg hrun
      obtain ⟨hpre, hclear⟩ := ih hb hfollows.clear hrest
      refine ⟨.trans ?_ hpre, hclear⟩
      change g.chunk.locals.toList <+: g₁.chunk.locals.toList
      rw [hlocals]
      exact prefix_localsAfter _ _

/-- The locals of a block are those from before and those that its statements declare. -/
theorem block_declared {b : Block} {g g' : Gen} {u : Unit} {l : LocalInfo} (hb : ∀ st ∈ b, st.Whole) (hg : Clear g)
    (h : (block b).run g = .ok (u, g')) (hl : l ∈ g'.chunk.locals) :
    l ∈ g.chunk.locals ∨ ∃ st ∈ b, ∃ d ∈ st.declared, ∃ i, l = entry d i := by
  induction b generalizing g with
  | nil =>
      obtain ⟨-, rfl⟩ := run_pure_ok.mp h
      exact .inl hl
  | cons st b ih =>
      obtain ⟨hst, hb⟩ := List.forall_mem_cons.mp hb
      obtain ⟨g₁, hrun, hrest⟩ := block_cons_ok h
      obtain ⟨is, hfollows, hlocals, -⟩ := statement_names hst hg hrun
      rcases ih hb hfollows.clear hrest with hl | ⟨st', hst', hdeclared⟩
      · have hl : l ∈ g₁.chunk.locals := hl
        rw [hlocals, mem_localsAfter] at hl
        rcases hl with hl | ⟨d, hd, heq⟩
        · exact .inl hl
        · exact .inr ⟨st, List.mem_cons_self, d, hd, _, heq⟩
      · exact .inr ⟨st', List.mem_cons_of_mem _ hst', hdeclared⟩

/-- A variable of a block is resolved in a state `s` that has no other locals than those of `g` and those that the
statements before have declared. Locals that are declared later come behind them. -/
structure Scoped (b : Block) (g g' : Gen) (v : Name) (s : Gen) : Prop where
  split : ∃ before st after, b = before ++ st :: after ∧ v ∈ st.variables ∧
    ∀ l ∈ s.chunk.locals, l ∈ g.chunk.locals ∨ ∃ st' ∈ before, ∃ d ∈ st'.declared, ∃ i, l = entry d i
  locals : s.chunk.locals.toList <+: g'.chunk.locals.toList
  resolves : ∃ op s', (resolve v).run s = .ok (op, s')

theorem block_scoped {b : Block} {g g' s : Gen} {u : Unit} {v : Name} (hb : ∀ st ∈ b, st.Whole) (hg : Clear g)
    (h : (block b).run g = .ok (u, g')) (hv : b.Visits v s g) : Scoped b g g' v s := by
  induction b generalizing g with
  | nil => cases hv
  | cons st b ih =>
      obtain ⟨hst, hb'⟩ := List.forall_mem_cons.mp hb
      obtain ⟨g₁, hrun, hrest⟩ := block_cons_ok h
      obtain ⟨is, hfollows, hlocals, -⟩ := statement_names hst hg hrun
      have hsees := statement_sees hst hg.constants_le hrun
      rcases hv with hv | hv
      -- Within a statement no local is declared, so its variables see the locals of the state before it.
      · have hs := hsees.locals v s hv
        refine ⟨⟨[], st, b, rfl, (hsees.mem_iff v).mpr ⟨s, hv⟩, fun l hl => .inl (hs ▸ hl)⟩, ?_, hsees.resolves v s hv⟩
        rw [hs]
        exact (block_locals hb hg h).1
      · have hscoped := ih hb' hfollows.clear hrest ((after_iff hrun _).mp hv)
        obtain ⟨before, st', after, rfl, hmem, hscope⟩ := hscoped.split
        refine ⟨⟨st :: before, st', after, rfl, hmem, fun l hl => ?_⟩, hscoped.locals, hscoped.resolves⟩
        rcases hscope l hl with hl | ⟨st'', hst'', hdeclared⟩
        · have hl : l ∈ g₁.chunk.locals := hl
          rw [hlocals, mem_localsAfter] at hl
          rcases hl with hl | ⟨d, hd, rfl⟩
          · exact .inl hl
          · exact .inr ⟨st, List.mem_cons_self, d, hd, _, rfl⟩
        · exact .inr ⟨st'', List.mem_cons_of_mem _ hst'', hdeclared⟩

/-- The generator comes to all the variables of a block. -/
theorem block_visits_iff {b : Block} {g g' : Gen} {u : Unit} {v : Name} (hb : ∀ st ∈ b, st.Whole) (hg : Clear g)
    (h : (block b).run g = .ok (u, g')) : v ∈ b.mentions.filterMap Mention.varName? ↔ ∃ s, b.Visits v s g := by
  induction b generalizing g with
  | nil => simp [Block.mentions, Block.Visits]
  | cons st b ih =>
      obtain ⟨hst, hb⟩ := List.forall_mem_cons.mp hb
      obtain ⟨g₁, hrun, hrest⟩ := block_cons_ok h
      obtain ⟨is, hfollows, -, -⟩ := statement_names hst hg hrun
      have hsees := statement_sees hst hg.constants_le hrun
      simp only [Block.Visits, after_iff hrun, exists_or, ← hsees.mem_iff, ← ih hb hfollows.clear hrest]
      rw [Block.mentions, List.flatMap_cons, List.filterMap_append, List.mem_append]
      rfl

end Gen

end MiniLua

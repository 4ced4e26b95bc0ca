import MiniLua.Proofs.Compile.Gatherings
import MiniLua.Proofs.Compile.Visits

/-!
The code of a program and its gatherings. Step by step with the generator: a piece of code that is run where its slots
exist comes to the gatherings of its tree, and what waits in the slots above a function or a table still waits there
when the next value is put behind it.
-/

namespace MiniLua

open ExecM

namespace Gen

variable {α : Type}

section

variable (c : Chunk) (start : Machine)

/-- The machine has run the code so far, and has the slots below `top`. -/
def At (top : Nat) (before : List Instruction) (m : Machine) : Prop :=
  (steps c before).run start = (.ok (), m) ∧ top ≤ m.stack.size

/-- The machine has run the code so far. A value with `P` is in the slot `base`, and those of `es` are behind it. -/
def Waits (scope : Nat) (P : Value → Prop) (base : Nat) (es : List Exp) (before : List Instruction) (m : Machine) :
    Prop :=
  (steps c before).run start = (.ok (), m) ∧
    ∃ v vs, P v ∧ m.Holds base (v :: vs) ∧ Evaluates c (c.locals.take scope) start before es vs

/-- The code from `g` to `g'`, run after code for which `A` holds, comes to the gatherings `ws`. -/
def Tracks (A : List Instruction → Machine → Prop) (g : Gen) (ws : List Gathering) (g' : Gen) : Prop :=
  ∃ is, g'.chunk.code.toList = g.chunk.code.toList ++ is ∧ Sited c start A is ws

/-- A run of the code from `g` to `g'` leads from `A` to `B`. -/
def Passes (A : List Instruction → Machine → Prop) (g : Gen) (B : List Instruction → Machine → Prop) (g' : Gen) :
    Prop :=
  ∃ is, g'.chunk.code.toList = g.chunk.code.toList ++ is ∧
    ∀ before m m', A before m → (steps c is).run m = (.ok (), m') → B (before ++ is) m'

/-- The values that can take entries. -/
def isTable (v : Value) : Prop := ∃ id, v = .table id

end

variable {c : Chunk} {start : Machine} {A B : List Instruction → Machine → Prop} {g g₁ g₂ g' : Gen}
  {ws us : List Gathering}

namespace Tracks

theorem refl (g : Gen) : Tracks c start A g [] g :=
  ⟨[], by rw [List.append_nil], .of_plain (List.forall_mem_nil _)⟩

theorem mono (h : Tracks c start B g ws g') (hA : ∀ before m, A before m → B before m) : Tracks c start A g ws g' := by
  obtain ⟨is, hcode, hsited⟩ := h
  exact ⟨is, hcode, hsited.mono hA⟩

theorem trans (h : Tracks c start A g ws g₁) (hp : Passes c A g B g₁) (h' : Tracks c start B g₁ us g') :
    Tracks c start A g (ws ++ us) g' := by
  obtain ⟨is, hcode, hsited⟩ := h
  obtain ⟨is', hcode', hpass⟩ := hp
  obtain ⟨js, hcode₂, hsited₂⟩ := h'
  obtain rfl : is = is' := List.append_cancel_left (hcode.symm.trans hcode')
  exact ⟨is ++ js, by rw [hcode₂, hcode, List.append_assoc], hsited.append hpass hsited₂⟩

theorem plain {x : GenM α} {a : α} (h : Tracks c start A g ws g₁) (hx : Plain x) (hr : x.run g₁ = .ok (a, g')) :
    Tracks c start A g ws g' := by
  obtain ⟨is, hcode, hsited⟩ := h
  obtain ⟨js, hcode', hjs⟩ := hx g₁ a g' hr
  exact ⟨is ++ js, by rw [hcode', hcode, List.append_assoc], hsited.append_plain hjs⟩

end Tracks

theorem Passes.refl (A : List Instruction → Machine → Prop) (g : Gen) : Passes c A g A g := by
  refine ⟨[], by rw [List.append_nil], fun before m m' hm hs => ?_⟩
  obtain rfl : m = m' := (Prod.mk.inj hs).2
  rw [List.append_nil]
  exact hm

theorem Passes.trans {C : List Instruction → Machine → Prop} (h : Passes c A g B g₁) (h' : Passes c B g₁ C g') :
    Passes c A g C g' := by
  obtain ⟨is, hcode, hpass⟩ := h
  obtain ⟨js, hcode', hpass'⟩ := h'
  refine ⟨is ++ js, by rw [hcode', hcode, List.append_assoc], fun before m m' hm hs => ?_⟩
  obtain ⟨m₁, hs₁, hs₂⟩ := exists_steps_append hs
  rw [← List.append_assoc]
  exact hpass' _ m₁ m' (hpass before m m₁ hm hs₁) hs₂

theorem Passes.at {top : Nat} {is : List Instruction} (hg : g'.chunk.code.toList = g.chunk.code.toList ++ is)
    (h : ∀ m m', g.top ≤ m.stack.size → (steps c is).run m = (.ok (), m') → top ≤ m'.stack.size) :
    Passes c (At c start g.top) g (At c start top) g' :=
  ⟨is, hg, fun _ m m' hm hs => ⟨(steps_append_ok hm.1).trans hs, h m m' hm.2 hs⟩⟩

theorem Leaves.passes {x : Locals → EvalM Value} {e : Operand} (h : Leaves g x e g') (hc : Covers c g') :
    Passes c (At c start g.top) g (At c start g'.top) g' := by
  obtain ⟨is, hgrows, hcomp⟩ := h.code
  exact .at hgrows.code fun m m' hm hs => ((hcomp c m hc hm).ends hs).2

theorem Puts.passes {x : Locals → EvalM Value} {n : Nat} (h : Puts g x n g') (hc : Covers c g') :
    Passes c (At c start g.top) g (At c start g'.top) g' := by
  obtain ⟨is, hgrows, hyield⟩ := h.code
  refine .at hgrows.code fun m m' hm hs => ?_
  obtain ⟨v, -, hframe, -⟩ := (hyield c m hc hm).ends hs
  exact hframe.2

section

variable {scope base : Nat} {P : Value → Prop} {es : List Exp}

theorem Waits.at (htop : g.top = base + 1 + es.length) {before : List Instruction} {m : Machine}
    (h : Waits c start scope P base es before m) : At c start g.top before m := by
  obtain ⟨hm, v, vs, -, hholds, heval⟩ := h
  refine ⟨hm, ?_⟩
  rw [htop, ← heval.length_eq]
  exact hholds.size_le

/-- Where slots below the top are kept, the values in them wait on. -/
theorem Passes.waits {is : List Instruction} (hg : g'.chunk.code.toList = g.chunk.code.toList ++ is)
    (htop : g.top = base + 1 + es.length)
    (h : ∀ m m' v, P v → g.top ≤ m.stack.size → m.stack[base]? = some v → (steps c is).run m = (.ok (), m') →
      m.Agrees g.top m') :
    Passes c (Waits c start scope P base es) g (Waits c start scope P base es) g' := by
  refine ⟨is, hg, fun before m m' hm hs => ?_⟩
  have hsize := (hm.at htop).2
  obtain ⟨hm, v, vs, hv, hholds, heval⟩ := hm
  refine ⟨(steps_append_ok hm).trans hs, v, vs, hv, hholds.of_agrees ?_, heval.more is⟩
  rw [heval.slots_eq, ← htop]
  exact h m m' v hv hsize hholds.head hs

/-- The value of one more expression joins those that wait. -/
theorem Puts.waits {e : Exp} (h : Puts g (Eval.expression · e) g.top g') (hc : Covers c g')
    (hl : g.chunk.locals = c.locals.take scope) (htop : g.top = base + 1 + es.length) :
    Passes c (Waits c start scope P base es) g (Waits c start scope P base (es ++ [e])) g' := by
  obtain ⟨is, hgrows, hyield⟩ := h.code
  refine ⟨is, hgrows.code, fun before m m' hm hs => ?_⟩
  have hsize := (hm.at htop).2
  obtain ⟨hm, v, vs, hv, hholds, heval⟩ := hm
  obtain ⟨u, hx, hframe, hu⟩ := (hyield c m hc hsize).ends hs
  have hlength : base + (v :: vs).length = g.top := (heval.slots_eq base v).trans htop.symm
  refine ⟨(steps_append_ok hm).trans hs, v, vs ++ [u], hv, ?_, heval.concat hm hs (by rw [← hl]; exact hx)⟩
  exact (hholds.of_agrees (by rw [hlength]; exact hframe.1)).concat (by rw [hlength]; exact hu)

/-- What waits behind `base` is gathered by an instruction for `base`. -/
theorem sited_gather {op : Opcode} {n : Nat} (hop : op = .call ∨ op = .setList) (hbase : base < 256)
    (hn : n < 256) (hes : es.length = n) :
    Sited c start (Waits c start scope P base es)
      [{ op := op.code, a := base.toUInt8, b := n.toUInt8 }] [⟨op, es, scope⟩] := by
  refine .singleton ?_ ⟨Opcode.ofCode?_code op, ?_⟩ ?_
  · rcases hop with rfl | rfl <;> rfl
  · rw [hes]
    exact toNat_toUInt8 hn
  · rintro before m ⟨-, v, vs, -, hholds, heval⟩
    refine ⟨vs, ?_, heval⟩
    rw [toNat_toUInt8 hbase]
    exact hholds.tail

theorem flush_tracks {table n : Nat} {u : Unit} (ht : table < 256) (hn : n < 256) (hes : es.length = n)
    (h : (flush table n).run g = .ok (u, g')) :
    Tracks c start (Waits c start scope P table es) g [⟨.setList, es, scope⟩] g' := by
  obtain ⟨_, g₁, hemit, h₁⟩ := run_bind_ok h
  obtain rfl := run_modify_ok.mp h₁
  exact ⟨_, (emit_grows hemit).1.code, sited_gather (.inr rfl) ht hn hes⟩

theorem flush_passes {table n : Nat} {u : Unit} (ht : table < 256) (hn : n < 256) (hes : es.length = n)
    (h : (flush table n).run g = .ok (u, g')) :
    Passes c (Waits c start scope isTable table es) g (Waits c start scope isTable table []) g' := by
  obtain ⟨-, is, hgrows, hyield⟩ := flush_implements ht hn h
  refine ⟨is, hgrows.code, ?_⟩
  rintro before m m' ⟨hm, _, vs, ⟨id, rfl⟩, hholds, heval⟩ hs
  obtain ⟨_, -, hheld, -⟩ := (hyield c m id vs (heval.length_eq.trans hes) hholds).ends hs
  exact ⟨(steps_append_ok hm).trans hs, _, [], ⟨id, rfl⟩, hheld, .nil _⟩

end

/-- Constants that are known behind a piece of code were known before it or are new. -/
theorem Uses.covers {pending : Chunk → α → List Bytes} {names : Chunk → List Bytes} {x : GenM α} {a : α}
    (h : Uses g.chunk.locals pending names x) (hr : x.run g = .ok (a, g'))
    (hle : g.chunk.constants.size ≤ Chunk.maxConstants) (hc : Covers c g') : Covers c g := by
  obtain ⟨is, hgrows, -⟩ := h g a g' hr rfl hle
  exact hc.of_grows hgrows

section

variable (c start)

/-- What the induction says of an expression. -/
def ExpTracks (e : Exp) : Prop :=
  ∀ ⦃g g' : Gen⦄ ⦃op : Operand⦄ ⦃scope : Nat⦄, Ready g → g.chunk.locals = c.locals.take scope → Covers c g' →
    (expression e).run g = .ok (op, g') → Tracks c start (At c start g.top) g (e.gatherings scope) g'

/-- What the induction says of the entries of a constructor, up to its closing brace. -/
def FieldsTrack (fs : Fields) : Prop :=
  ∀ ⦃g g₁ g' : Gen⦄ ⦃table scope : Nat⦄ ⦃tally tally' : Tally⦄ ⦃es : List Exp⦄ ⦃u : PUnit⦄, Ready g →
    g.chunk.locals = c.locals.take scope → g.chunk.locals.size ≤ table → g.top = table + 1 + tally.pending →
    tally.pending < groupSize → es.length = tally.pending → Covers c g' →
    (fields table tally fs).run g = .ok (tally', g₁) →
    (if 0 < tally'.pending then flush table tally'.pending else pure ⟨⟩ : GenM PUnit).run g₁ = .ok (u, g') →
    Tracks c start (Waits c start scope isTable table es) g (fs.gatherings scope es) g'

end

/-- An expression that is placed behind the values that wait. -/
theorem place_tracks {e : Exp} {op : Operand} {pos : Position} {n base scope : Nat} {P : Value → Prop} {es : List Exp}
    (hw : e.Whole) (he : ExpTracks c start e) (hg : Ready g) (hl : g.chunk.locals = c.locals.take scope)
    (htop : g.top = base + 1 + es.length) (hc : Covers c g') (hexp : (expression e).run g = .ok (op, g₁))
    (hnext : (dischargeNext op pos).run g₁ = .ok (n, g')) :
    Tracks c start (Waits c start scope P base es) g (e.gatherings scope) g' ∧
      Passes c (Waits c start scope P base es) g (Waits c start scope P base (es ++ [e])) g' := by
  have hleaves := expLeaves e hw hg hexp
  obtain ⟨hput, rfl, -⟩ := hleaves.dischargeNext hg hnext
  have hc₁ := (dischargeNext_uses op pos).covers hnext hleaves.ready.constants_le hc
  refine ⟨((he hg hl hc₁ hexp).plain (dischargeNext_plain op pos) hnext).mono fun _ _ hm => hm.at htop, ?_⟩
  exact hput.waits hc hl htop

/-- An entry with an explicit key: first the gatherings of the key, then those of the value. -/
theorem storeEntry_tracks {x : Locals → EvalM Value} {key : Operand} {value : Exp} {table scope : Nat} {es : List Exp}
    {entry assign last : Position} {u : Unit} (hkey : Leaves g x key g₁) (hg : Ready g)
    (hl : g.chunk.locals = c.locals.take scope) (htop : g.top = table + 1 + es.length) (hw : value.Whole)
    (hvalue : ExpTracks c start value)
    (hks : Tracks c start (Waits c start scope isTable table es) g ws g₁) (hc : Covers c g')
    (h : (storeEntry table key entry assign (expression value) last g.top).run g₁ = .ok (u, g')) :
    Tracks c start (Waits c start scope isTable table es) g (ws ++ value.gatherings scope) g' ∧
      Passes c (Waits c start scope isTable table es) g (Waits c start scope isTable table es) g' := by
  have ht : table < g.top := by omega
  obtain ⟨_, _, is, hgrows, hyield⟩ := hkey.storeEntry hg ht (expLeaves value hw) h
  obtain ⟨_, _, hcheck, h₁⟩ := run_bind_ok h
  rw [checkKey_ok hcheck] at h₁
  obtain ⟨target, g₂, hindex, h₂⟩ := run_bind_ok h₁
  obtain ⟨op, g₃, hval, h₃⟩ := run_bind_ok h₂
  obtain ⟨hready₂, -, is₂, hgrows₂, hyield₂⟩ := hkey.indexBy hg ht hindex
  have hleaves := expLeaves value hw hready₂ hval
  obtain ⟨is₃, hgrows₃, -⟩ := hleaves.code
  have hc₃ : Covers c g₃ := by
    have hstore (p : UInt8 × Bool) :
        Uses g₃.chunk.locals nothing (fun _ => []) (do store target p.1 p.2; setTop g.top) :=
      .skip (store_uses target p.1 p.2) fun _ => setTop_uses g.top
    exact ((constantOrSlot_uses op last).last hstore).covers h₃ hleaves.ready.constants_le hc
  have hplain : Plain (constantOrSlot op last >>= fun p => do store target p.1 p.2; setTop g.top) :=
    .bind (constantOrSlot_plain op last) fun p => .bind (store_plain target p.1 p.2) fun _ => .modify fun _ => rfl
  -- The key is in its place before the code of the value begins.
  have hpass₂ : Passes c (Waits c start scope isTable table es) g (At c start g₂.top) g₂ := by
    refine ⟨is₂, hgrows₂.code, fun before m m' hm hs => ?_⟩
    have hsize := (hm.at htop).2
    obtain ⟨hm, v, vs, -, hholds, -⟩ := hm
    obtain ⟨_, -, hframe, -⟩ := (hyield₂ c m v (hc₃.of_grows hgrows₃) hsize hholds.head).ends hs
    exact ⟨(steps_append_ok hm).trans hs, hframe.2⟩
  constructor
  · have htracks := hvalue hready₂ (hgrows₂.locals.trans hl) hc₃ hval
    exact (hks.plain (indexBy_plain table key assign) hindex).trans hpass₂ (htracks.plain hplain h₃)
  · refine .waits hgrows.code htop fun m m' v hv hm hhead hs => ?_
    obtain ⟨id, rfl⟩ := hv
    obtain ⟨_, -, hframe⟩ := (hyield c m id hc hm hhead).ends hs
    exact hframe.1

theorem fieldsTrack_done (closed : Position) : FieldsTrack c start (.done closed) := by
  intro g g₁ g' table scope tally tally' es u hg hl hle htop hp hes hc h hclose
  obtain ⟨rfl, rfl⟩ := run_pure_ok.mp h
  have hlt := hg.top_le
  simp only [maxSlots, groupSize] at hlt hp
  rw [Fields.gatherings]
  split at hclose
  · next hpos =>
    rw [if_neg (by rw [List.isEmpty_iff_length_eq_zero]; omega)]
    exact flush_tracks (by omega) (by omega) hes hclose
  · next hpos =>
    obtain ⟨-, rfl⟩ := run_pure_ok.mp hclose
    rw [if_pos (by rw [List.isEmpty_iff_length_eq_zero]; omega)]
    exact .refl _

theorem closed_grows {fs : Fields} {table : Nat} {tally tally' : Tally} {u : PUnit} (hfs : fs.Whole) (hg : Ready g)
    (h : (fields table tally fs).run g = .ok (tally', g₁))
    (hclose : (if 0 < tally'.pending then flush table tally'.pending else pure ⟨⟩ : GenM PUnit).run g₁ = .ok (u, g')) :
    ∃ is, Grows g is g' := by
  obtain ⟨is, hgrows, -⟩ := fields_uses table tally fs hfs g tally' g₁ h rfl hg.constants_le
  split at hclose
  · obtain ⟨js, hgrows', -⟩ := flush_uses table tally'.pending g₁ _ g' hclose rfl (hgrows.constants_le hg.constants_le)
    exact ⟨is ++ js, hgrows.trans hgrows'⟩
  · obtain ⟨-, rfl⟩ := run_pure_ok.mp hclose
    exact ⟨is, hgrows⟩

theorem fieldsTrack_positional {e : Exp} {rest : Fields} (hw : e.Whole) (hr : rest.Whole) (he : ExpTracks c start e)
    (hrest : FieldsTrack c start rest) : FieldsTrack c start (.positional e rest) := by
  intro g g₁ g' table scope tally tally' es u hg hl hle htop hp hes hc h hclose
  obtain ⟨op, g₂, hexp, h₁⟩ := run_bind_ok h
  obtain ⟨n, g₃, hnext, h₂⟩ := run_bind_ok h₁
  obtain ⟨hput, rfl, htop₃⟩ := (expLeaves e hw hg hexp).dischargeNext hg hnext
  obtain ⟨is₃, hgrows₃, -⟩ := hput.code
  have hl₃ := hgrows₃.locals.trans hl
  have hle₃ : g₃.chunk.locals.size ≤ table := by rw [hgrows₃.locals]; exact hle
  have ht : table < 256 := by
    have := hput.ready.top_le
    simp only [maxSlots] at this
    omega
  have htop' : g.top = table + 1 + es.length := by rw [hes]; exact htop
  have hlen : (es ++ [e]).length = tally.pending + 1 := by rw [List.length_append, hes]; rfl
  dsimp only [Tally.addPositional] at h₂
  rw [Fields.gatherings, hes]
  by_cases hfull : tally.pending + 1 = groupSize
  · rw [if_pos hfull] at h₂ ⊢
    obtain ⟨_, g₄, hflush, h₃⟩ := run_bind_ok h₂
    have hn : tally.pending + 1 < 256 := by rw [hfull]; decide
    obtain ⟨htop₄, is₄, hgrows₄, -⟩ := flush_implements ht hn hflush
    have hready₄ : Ready g₄ := hgrows₄.ready hput.ready (by omega) (by rw [htop₄]; exact ht)
    obtain ⟨is₅, hgrows₅⟩ := closed_grows hr hready₄ h₃ hclose
    obtain ⟨htracks, hpass⟩ := place_tracks hw he hg hl htop' (hc.of_grows (hgrows₄.trans hgrows₅)) hexp hnext
    refine htracks.trans hpass ((flush_tracks ht hn hlen hflush).trans (flush_passes ht hn hlen hflush) ?_)
    exact hrest hready₄ (hgrows₄.locals.trans hl₃) (by rw [hgrows₄.locals]; exact hle₃) (by exact htop₄)
      (Nat.zero_lt_succ 49) rfl hc h₃ hclose
  · rw [if_neg hfull] at h₂ ⊢
    obtain ⟨is₄, hgrows₄⟩ := closed_grows hr hput.ready h₂ hclose
    obtain ⟨htracks, hpass⟩ := place_tracks hw he hg hl htop' (hc.of_grows hgrows₄) hexp hnext
    refine htracks.trans hpass (hrest hput.ready hl₃ hle₃ ?_ ?_ hlen hc h₂ hclose)
    · rw [htop₃, htop]
      rfl
    · change tally.pending + 1 < groupSize
      omega

/-- An entry with an explicit key, and the entries behind it. -/
theorem FieldsTrack.entry {rest : Fields} (hrest : FieldsTrack c start rest) {x : Locals → EvalM Value} {key : Operand}
    {value : Exp} {table scope : Nat} {es : List Exp} {tally tally' : Tally} {entry assign last : Position} {u : PUnit}
    (hkey : Leaves g x key g₁) (hg : Ready g) (hl : g.chunk.locals = c.locals.take scope)
    (hle : g.chunk.locals.size ≤ table) (htop : g.top = table + 1 + tally.pending) (hp : tally.pending < groupSize)
    (hes : es.length = tally.pending) (hw : value.Whole) (hr : rest.Whole) (hvalue : ExpTracks c start value)
    (hks : Covers c g₁ → Tracks c start (Waits c start scope isTable table es) g ws g₁) (hc : Covers c g')
    (h : (do storeEntry table key entry assign (expression value) last g.top; fields table tally.addKeyed rest :
      GenM Tally).run g₁ = .ok (tally', g₂))
    (hclose : (if 0 < tally'.pending then flush table tally'.pending else pure ⟨⟩ : GenM PUnit).run g₂ = .ok (u, g')) :
    Tracks c start (Waits c start scope isTable table es) g
      (ws ++ (value.gatherings scope ++ rest.gatherings scope es)) g' := by
  obtain ⟨_, g₃, hentry, h₂⟩ := run_bind_ok h
  obtain ⟨hready₃, htop₃, is₃, hgrows₃, -⟩ := hkey.storeEntry hg (by omega) (expLeaves value hw) hentry
  obtain ⟨is₄, hgrows₄⟩ := closed_grows hr hready₃ h₂ hclose
  have hc₃ := hc.of_grows hgrows₄
  have hc₁ := (storeEntry_uses table key entry assign (expression_uses value hw) last g.top).covers hentry
    hkey.ready.constants_le hc₃
  obtain ⟨htracks, hpass⟩ := storeEntry_tracks hkey hg hl (by rw [hes]; exact htop) hw hvalue (hks hc₁) hc₃ hentry
  have htop₄ : g₃.top = table + 1 + tally.addKeyed.pending := htop₃.trans htop
  rw [← List.append_assoc]
  exact htracks.trans hpass (hrest hready₃ (hgrows₃.locals.trans hl) (by rw [hgrows₃.locals]; exact hle) htop₄ hp hes hc
    h₂ hclose)

theorem fieldsTrack_named {name : Name} {assign : Position} {value : Exp} {rest : Fields} (hw : value.Whole)
    (hr : rest.Whole) (hv : ExpTracks c start value) (hrest : FieldsTrack c start rest) :
    FieldsTrack c start (.named name assign value rest) := by
  intro g g₁ g' table scope tally tally' es u hg hl hle htop hp hes hc h hclose
  rw [fields, run_get_bind] at h
  exact hrest.entry (.literal rfl hg) hg hl hle htop hp hes hw hr hv (fun _ => .refl g) hc h hclose

theorem fieldsTrack_keyed {opened : Position} {key : Exp} {assign : Position} {value : Exp} {rest : Fields}
    (hk : key.Whole) (hw : value.Whole) (hr : rest.Whole) (hkey : ExpTracks c start key) (hv : ExpTracks c start value)
    (hrest : FieldsTrack c start rest) : FieldsTrack c start (.keyed opened key assign value rest) := by
  intro g g₁ g' table scope tally tally' es u hg hl hle htop hp hes hc h hclose
  rw [fields, run_get_bind] at h
  obtain ⟨op, g₂, hexp, h₁⟩ := run_bind_ok h
  refine hrest.entry (expLeaves key hk hg hexp) hg hl hle htop hp hes hw hr hv (fun hc₂ => ?_) hc h₁ hclose
  exact (hkey hg hl hc₂ hexp).mono fun _ _ hm => hm.at (by rw [hes]; exact htop)

theorem expTracks_table {opened : Position} {fs : Fields} (hw : fs.Whole) (hfs : FieldsTrack c start fs) :
    ExpTracks c start (.table opened fs) := by
  intro g g' op scope hg hl hc h
  obtain ⟨ht, -, g₁, g₂, g₃, tally, hgrows₁, htop₁, hfields, hclose, hpatch⟩ := table_ok h
  have hle := hg.locals_le_top
  have hready₁ : Ready g₁ := hgrows₁.ready hg (by rw [htop₁]; exact Nat.le_succ_of_le hle) (by rw [htop₁]; exact ht)
  obtain ⟨is', hgrows₃⟩ := closed_grows hw hready₁ hfields hclose
  obtain ⟨-, hconst, hgrows⟩ := patch_grows (hgrows₁.trans hgrows₃) hpatch
  have hc₃ : Covers c g₃ := fun k v hk => hc k v (by rw [hconst]; exact hk)
  obtain ⟨is, hcode, hsited⟩ := hfs hready₁ (hgrows₁.locals.trans hl) (by rw [hgrows₁.locals]; exact hle)
    (by exact htop₁) (Nat.zero_lt_succ 49) (List.length_nil (α := Exp)) hc₃ hfields hclose
  obtain rfl : is = is' := List.append_cancel_left (hcode.symm.trans hgrows₃.code)
  refine ⟨_, hgrows.code, ?_⟩
  -- The size hints change the first instruction only, which makes the table whatever they are.
  rw [Exp.gatherings]
  refine (Sited.of_plain (List.forall_mem_singleton.mpr rfl)).append (fun before m m' hm hs => ?_) hsited
  obtain ⟨id, -, hheld, -⟩ := (yields_newTable ht hm.2 _ _).ends hs
  exact ⟨(steps_append_ok hm.1).trans hs, _, [], ⟨id, rfl⟩, hheld, .nil _⟩

theorem expTracks_field {base : Exp} {dot : Position} {name : Name} (hw : base.Whole) (hb : ExpTracks c start base) :
    ExpTracks c start (.field base dot name) := by
  intro g g' op scope hg hl hc h
  obtain ⟨b, g₁, hbase, h₁⟩ := run_bind_ok h
  have huses : Uses g₁.chunk.locals nothing b.globals
      (do return Operand.field (← dischargeTop b dot) (← constant (.ofBytes name.text) name.pos)) :=
    (dischargeTop_uses b dot).last fun _ => (constant_uses _ _).map fun _ _ => rfl
  have hplain : Plain (do return Operand.field (← dischargeTop b dot) (← constant (.ofBytes name.text) name.pos)) :=
    .bind (dischargeTop_plain b dot) fun _ => .bind (constant_plain _ _) fun _ => .pure _
  have hc₁ := huses.covers h₁ (expLeaves base hw hg hbase).ready.constants_le hc
  rw [Exp.gatherings]
  exact (hb hg hl hc₁ hbase).plain hplain h₁

theorem expTracks_index {base key : Exp} {opened closed : Position} (hw : base.Whole) (hk : key.Whole)
    (hb : ExpTracks c start base) (hkey : ExpTracks c start key) :
    ExpTracks c start (.index base opened key closed) := by
  intro g g' op scope hg hl hc h
  obtain ⟨b, g₁, hbase, h₁⟩ := run_bind_ok h
  obtain ⟨s, g₂, htop, h₂⟩ := run_bind_ok h₁
  obtain ⟨k, g₃, hexp, h₃⟩ := run_bind_ok h₂
  have hleaves₁ := expLeaves base hw hg hbase
  obtain ⟨n, rfl, hput⟩ := hleaves₁.dischargeTop hg htop
  have hleaves₃ := expLeaves key hk hput.ready hexp
  obtain ⟨is₂, hgrows₂, -⟩ := hput.code
  obtain ⟨is₃, hgrows₃, -⟩ := hleaves₃.code
  have hc₃ := (indexBy_uses (fun _ _ h => h) n k key.last).covers h₃ hleaves₃.ready.constants_le hc
  have hc₂ := hc₃.of_grows hgrows₃
  have hc₁ := (dischargeTop_uses b opened).covers htop hleaves₁.ready.constants_le hc₂
  have hfirst := (hb hg hl hc₁ hbase).plain (dischargeTop_plain b opened) htop
  have hsecond := (hkey hput.ready (hgrows₂.locals.trans hl) hc₃ hexp).plain (indexBy_plain n k key.last) h₃
  rw [Exp.gatherings]
  exact hfirst.trans (hput.passes hc₂) hsecond

mutual

/-- The code of an expression comes to its gatherings. -/
theorem expTracks (e : Exp) (he : e.Whole) : ExpTracks c start e := by
  cases e with
  | literal l pos =>
      intro g g' op scope hg hl hc h
      obtain ⟨-, rfl⟩ := run_pure_ok.mp h
      rw [Exp.gatherings]
      exact .refl _
  | var name =>
      intro g g' op scope hg hl hc h
      rw [Exp.gatherings]
      exact (Tracks.refl g).plain (resolve_plain name) h
  | table opened fs => exact expTracks_table he (fieldsTrack fs he)
  | minus pos operand =>
      intro g g' op scope hg hl hc h
      obtain ⟨op', g₁, hop, h₁⟩ := run_bind_ok h
      obtain ⟨-, rfl⟩ := run_pure_ok.mp h₁
      rw [Exp.gatherings]
      exact expTracks operand he.2 hg hl hc hop
  | paren inner closed =>
      intro g g' op scope hg hl hc h
      rw [Exp.gatherings]
      exact expTracks inner he hg hl hc h
  | field base dot name => exact expTracks_field he (expTracks base he)
  | index base opened key closed => exact expTracks_index he.1 he.2 (expTracks base he.1) (expTracks key he.2)
  | fault | faultAfter => exact he.elim

theorem fieldsTrack (fs : Fields) (hfs : fs.Whole) : FieldsTrack c start fs := by
  cases fs with
  | done closed => exact fieldsTrack_done closed
  | stop e => exact hfs.elim
  | positional e rest => exact fieldsTrack_positional hfs.1 hfs.2 (expTracks e hfs.1) (fieldsTrack rest hfs.2)
  | named name assign value rest =>
      exact fieldsTrack_named hfs.1 hfs.2 (expTracks value hfs.1) (fieldsTrack rest hfs.2)
  | keyed opened key assign value rest =>
      exact fieldsTrack_keyed hfs.1 hfs.2.1 hfs.2.2 (expTracks key hfs.1) (expTracks value hfs.2.1)
        (fieldsTrack rest hfs.2.2)

end

/-- Arguments join the values that wait behind `base`, one after the other. -/
theorem arguments_track {es waiting : List Exp} {base scope : Nat} {P : Value → Prop} {u : Unit}
    (hes : ∀ e ∈ es, e.Whole) (hg : Ready g) (hl : g.chunk.locals = c.locals.take scope)
    (htop : g.top = base + 1 + waiting.length) (hc : Covers c g') (h : (arguments es).run g = .ok (u, g')) :
    Tracks c start (Waits c start scope P base waiting) g (es.flatMap (·.gatherings scope)) g' ∧
      Passes c (Waits c start scope P base waiting) g (Waits c start scope P base (waiting ++ es)) g' := by
  induction es generalizing g waiting with
  | nil =>
      obtain ⟨-, rfl⟩ := run_pure_ok.mp h
      rw [List.append_nil]
      exact ⟨.refl _, .refl _ _⟩
  | cons e es ih =>
      obtain ⟨he, hes⟩ := List.forall_mem_cons.mp hes
      obtain ⟨op, g₁, hexp, h₁⟩ := run_bind_ok h
      obtain ⟨n, g₂, hnext, h₂⟩ := run_bind_ok h₁
      obtain ⟨hput, rfl, htop₂⟩ := (expLeaves e he hg hexp).dischargeNext hg hnext
      obtain ⟨is₂, hgrows₂, -⟩ := hput.code
      obtain ⟨-, -, is₃, hgrows₃, -⟩ := arguments_implement hes hput.ready h₂
      obtain ⟨htracks, hpass⟩ := place_tracks he (expTracks e he) hg hl htop (hc.of_grows hgrows₃) hexp hnext
      have htop' : g₂.top = base + 1 + (waiting ++ [e]).length := by
        rw [htop₂, htop, List.length_append]
        rfl
      obtain ⟨htracks', hpass'⟩ := ih hes hput.ready (hgrows₂.locals.trans hl) htop' h₂
      rw [List.append_assoc] at hpass'
      exact ⟨htracks.trans hpass htracks', hpass.trans hpass'⟩

theorem call_tracks {callee : Exp} {args : List Exp} {scope : Nat} {u : Unit} (hcallee : callee.Whole)
    (hargs : ∀ e ∈ args, e.Whole) (hg : Clear g) (hl : g.chunk.locals = c.locals.take scope) (hc : Covers c g')
    (h : (statement (.call callee args none)).run g = .ok (u, g')) :
    Tracks c start (At c start g.top) g ((Stat.call callee args none).gatherings scope) g' := by
  obtain ⟨op, g₁, hexp, h₁⟩ := run_bind_ok h
  obtain ⟨n, g₂, hnext, h₂⟩ := run_bind_ok h₁
  obtain ⟨_, g₃, hrun, h₃⟩ := run_bind_ok h₂
  have hleaves := expLeaves callee hcallee hg.toReady hexp
  obtain ⟨hput, rfl, htop₂⟩ := hleaves.dischargeNext hg.toReady hnext
  obtain ⟨hready₃, htop₃, is₃, hgrows₃, -⟩ := arguments_implement hargs hput.ready hrun
  obtain ⟨is₂, hgrows₂, hyield₂⟩ := hput.code
  obtain ⟨hgrows₄, -⟩ := emit_grows h₃
  have hc₃ := hc.of_grows hgrows₄
  have hc₂ := hc₃.of_grows hgrows₃
  have hc₁ := (dischargeNext_uses op callee.last).covers hnext hleaves.ready.constants_le hc₂
  have hfirst : Tracks c start (At c start g.top) g (callee.gatherings scope) g₂ :=
    (expTracks callee hcallee hg.toReady hl hc₁ hexp).plain (dischargeNext_plain op callee.last) hnext
  have hplaced : Passes c (At c start g.top) g (Waits c start scope (fun _ => True) g.top []) g₂ := by
    refine ⟨is₂, hgrows₂.code, fun before m m' hm hs => ?_⟩
    obtain ⟨f, -, -, hf⟩ := (hyield₂ c m hc₂ hm.2).ends hs
    exact ⟨(steps_append_ok hm.1).trans hs, f, [], trivial, .singleton hf, .nil _⟩
  have htop : g₂.top = g.top + 1 + ([] : List Exp).length := htop₂
  obtain ⟨htracks, hpass⟩ := arguments_track hargs hput.ready (hgrows₂.locals.trans hl) htop hc₃ hrun
  have hlen := hready₃.top_le
  simp only [maxSlots] at hlen
  refine hfirst.trans hplaced (htracks.trans hpass ⟨_, hgrows₄.code, ?_⟩)
  exact sited_gather (.inl rfl) (by omega) (by omega) rfl

/-- The code of a statement comes to its gatherings. -/
theorem statement_tracks {s : Stat} {scope : Nat} {u : Unit} (hs : s.Whole) (hg : Clear g)
    (hl : g.chunk.locals = c.locals.take scope) (hc : Covers c g') (h : (statement s).run g = .ok (u, g')) :
    Tracks c start (At c start g.top) g (s.gatherings scope) g' := by
  cases s with
  | declare name init =>
      obtain ⟨-, g₁, rfl, hinit⟩ := declare_ok h
      have hvalue : Tracks c start (At c start g.top) g ((Stat.declare name init).gatherings scope) g₁ := by
        cases init with
        | none => exact (Tracks.refl g).plain (.emit rfl) hinit
        | some e =>
            obtain ⟨op, g₂, hexp, hdischarge⟩ := hinit
            have hleaves := expLeaves e (hs e rfl) hg.toReady hexp
            have hc₂ := (discharge_uses op _ e.last).covers hdischarge hleaves.ready.constants_le hc
            exact (expTracks e (hs e rfl) hg.toReady hl hc₂ hexp).plain (discharge_plain op _ e.last) hdischarge
      exact hvalue
  | assign target value =>
      obtain ⟨t, g₁, htarget, h₁⟩ := run_bind_ok h
      obtain ⟨op, g₂, hvalue, h₂⟩ := run_bind_ok h₁
      have hleaves₁ := expLeaves target hs.2.1 hg.toReady htarget
      have hleaves₂ := expLeaves value hs.2.2 hleaves₁.ready hvalue
      obtain ⟨is₁, hgrows₁, -⟩ := hleaves₁.code
      obtain ⟨is₂, hgrows₂, -⟩ := hleaves₂.code
      have hc₂ := (assign_uses t op value.last).covers h₂ hleaves₂.ready.constants_le hc
      have hc₁ := hc₂.of_grows hgrows₂
      refine Tracks.trans (expTracks target hs.2.1 hg.toReady hl hc₁ htarget) (hleaves₁.passes hc₁) ?_
      have hl₁ := hgrows₁.locals.trans hl
      exact (expTracks value hs.2.2 hleaves₁.ready hl₁ hc₂ hvalue).plain (assign_plain t op value.last) h₂
  | call callee args end_ =>
      obtain ⟨hcallee, hargs, rfl⟩ := hs
      exact call_tracks hcallee hargs hg hl hc h
  | construct e =>
      obtain ⟨op, g₁, hexp, h₁⟩ := run_bind_ok h
      obtain ⟨-, rfl⟩ := run_pure_ok.mp h₁
      cases e with
      | table opened fs =>
          have hw : (Exp.table opened fs).Whole := hs
          exact expTracks (.table opened fs) hw hg.toReady hl hc hexp
      | literal | minus | var | paren | field | index | fault | faultAfter => exact hs.elim
  | stop e => exact hs.elim

theorem size_localsAfter (ls : Array LocalInfo) (s : Stat) :
    (localsAfter ls s).size = if s.declared.isSome then ls.size + 1 else ls.size := by
  unfold localsAfter
  cases s.declared with
  | none => rfl
  | some name => exact Array.size_push ..

theorem take_of_prefix {ls ls' : Array LocalInfo} (h : ls.toList <+: ls'.toList) : ls = ls'.take ls.size := by
  apply Array.toList_inj.mp
  rw [Array.take_eq_extract, Array.toList_extract, List.extract_eq_take_drop]
  exact List.prefix_iff_eq_take.mp h

/-- The code of a program comes to its gatherings. -/
theorem block_tracks {b : Block} {u : Unit} (hb : ∀ s ∈ b, s.Whole) (hg : Clear g) (h : (block b).run g = .ok (u, g')) :
    Tracks g'.chunk start (At g'.chunk start g.top) g (b.gatherings g.chunk.locals.size) g' := by
  induction b generalizing g with
  | nil =>
      obtain ⟨-, rfl⟩ := run_pure_ok.mp h
      exact .refl _
  | cons s b ih =>
      have hl := take_of_prefix (block_locals hb hg h).1
      obtain ⟨hs, hb⟩ := List.forall_mem_cons.mp hb
      obtain ⟨g₁, hstat, hrest⟩ := block_cons_ok h
      obtain ⟨is, hfollows, hsafe⟩ := statement_safe hs hg hstat
      obtain ⟨is', hfollows', -⟩ := block_safe hb hfollows.clear hrest
      obtain ⟨-, -, hlocals, -⟩ := statement_names hs hg hstat
      have hc : Covers g'.chunk g₁ := hfollows'.constants
      have hpass : Passes g'.chunk (At g'.chunk start g.top) g (At g'.chunk start (settle g₁).top) g₁ :=
        .at hfollows.code fun m m' hm hs => (hsafe g'.chunk m hc hm).ends hs
      have htracks := ih hb hfollows.clear hrest
      have hscope : (settle g₁).chunk.locals.size = (localsAfter g.chunk.locals s).size := by
        rw [← hlocals]
        rfl
      rw [hscope, size_localsAfter] at htracks
      exact (statement_tracks hs hg hl hc hstat).trans hpass htracks

end Gen

/-- A run of a compiled program comes to the gatherings of the program. -/
theorem Chunk.compile_sited {source name : Bytes} {c : Chunk} (h : Chunk.compile source name = .ok c)
    (start : Machine) :
    Sited c start (Gen.At c start 0) c.code.toList
      ((Block.ofTokens (Scanner.ofSource source none).tokens.1).gatherings 0) := by
  obtain ⟨hwhole, g, hrun, rfl⟩ := Chunk.compile_ok h
  obtain ⟨is, hcode, hsited⟩ := Gen.block_tracks hwhole (Gen.clear_start name) hrun
  obtain rfl : g.chunk.code.toList = is := hcode
  exact hsited

example :
    let source := Text.utf8 "local t = {1, x = f, {2}} print(t, 3)"
    let gatherings := (Block.ofTokens (Scanner.ofSource source none).tokens.1).gatherings 0
    gatherings.map (fun w => (w.op, w.exps.length, w.scope)) =
      [(.setList, 1, 0), (.setList, 2, 0), (.call, 2, 1)] := by decide +kernel

end MiniLua

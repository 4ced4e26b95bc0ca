import MiniLua.Proofs.Compile.Operands
import MiniLua.Proofs.Tree.Whole

/-!
The code of expressions, by induction over the tree: it agrees with the evaluation of the expression. In a constructor
the entries that wait lie in the slots above their table, in order.
-/

namespace MiniLua

open ExecM

/-- Moving the waiting values into their table. -/
theorem yields_setList {c : Chunk} {m : Machine} {table id n : Nat} {waiting : List Value} (ht : table < 256)
    (hn : n < 256) (hlen : waiting.length = n) (h : m.Holds table (.table id :: waiting)) :
    Yields c [{ op := Opcode.setList.code, a := table.toUInt8, b := n.toUInt8 }] m (EvalM.append id waiting)
      fun _ m' => m'.Holds table [.table id] ∧ m.Agrees (table + 1) m' := by
  subst hlen
  have hsize := h.size_le
  have hrun : (setList table waiting.length).run m = (.ok (), { m.setTable id ((m.table id).append byteHash waiting) with
      stack := m.stack.extract 0 (table + 1) }) := by
    rw [setList, run_bind_ok (run_get m), if_neg (by omega)]
    have htable : m.stack.getD table .nil = .table id := by
      rw [Array.getD_eq_getD_getElem?, h.head]
      rfl
    rw [htable, h.tail.extract_eq hsize]
    rfl
  have hstack : ∀ i < table + 1, (m.stack.extract 0 (table + 1))[i]? = m.stack[i]? := by
    intro i hi
    rw [Array.getElem?_extract, if_pos (by omega), Nat.zero_add]
  have hstep : (steps c [{ op := Opcode.setList.code, a := table.toUInt8, b := waiting.length.toUInt8 }]).run m =
      (setList table waiting.length).run m := by
    rw [steps_singleton]
    simp only [step, Instruction.opcode?, Opcode.ofCode?_code]
    rw [toNat_toUInt8 ht, toNat_toUInt8 hn]
  refine .ok (hstep.trans hrun) rfl ⟨.singleton ?_, hstack⟩
  rw [← h.head]
  exact hstack table (by omega)

/-- A new table starts empty and with nothing waiting for it; size hints play no part. -/
theorem yields_newTable {c : Chunk} {m : Machine} {table : Nat} (ht : table < 256) (hs : table ≤ m.stack.size)
    (a b : UInt8) :
    Yields c [{ op := Opcode.newTable.code, a := table.toUInt8, b := a, c := b }] m EvalM.newTable
      fun id m' => m'.Holds table [.table id] ∧ m.Agrees table m' := by
  have hstep : (steps c [{ op := Opcode.newTable.code, a := table.toUInt8, b := a, c := b }]).run m =
      (.ok (), { m.write table (.table m.tables.size) with tables := m.tables.push .empty }) := by
    rw [steps_singleton]
    simp only [step, Instruction.opcode?, Opcode.ofCode?_code]
    rw [run_bind_ok (run_get m)]
    have hslot : table.toUInt8.toNat ≤ m.stack.size := by rw [toNat_toUInt8 ht]; exact hs
    have hset := setSlot_run hslot (.table m.tables.size)
    rw [toNat_toUInt8 ht] at hset
    exact run_bind_ok hset
  exact .ok hstep rfl ⟨.singleton (m.write_stack_self hs _), m.agrees_write (Nat.le_refl _) _⟩

namespace Gen

variable {g g' : Gen}

theorem flush_implements {table n : Nat} {u : Unit} (ht : table < 256) (hn : n < 256)
    (h : (flush table n).run g = .ok (u, g')) :
    g'.top = table + 1 ∧ ∃ is, Grows g is g' ∧ ∀ c m id waiting, waiting.length = n → m.Holds table (.table id :: waiting) →
      Yields c is m (EvalM.append id waiting) fun _ m' => m'.Holds table [.table id] ∧ m.Agrees (table + 1) m' := by
  obtain ⟨_, g₁, hemit, h⟩ := run_bind_ok h
  obtain ⟨hgrows, -⟩ := emit_grows hemit
  obtain rfl := run_modify_ok.mp h
  refine ⟨rfl, _, hgrows.trans (.of_chunk_eq rfl), fun c m id waiting hlen hb => ?_⟩
  exact yields_setList ht hn hlen hb

/-- Patching replaces the first of the added instructions. -/
theorem patch_grows {i : Instruction} {is : List Instruction} {t : Tally} {u : Unit} {g₁ : Gen}
    (hg : Grows g (i :: is) g₁) (h : (patch g.chunk.code.size t).run g₁ = .ok (u, g')) :
    g'.top = g₁.top ∧ g'.chunk.constants = g₁.chunk.constants ∧
      Grows g ({ i with b := (min t.positional 255).toUInt8, c := (min t.keyed 255).toUInt8 } :: is) g' := by
  obtain rfl := run_modify_ok.mp h
  refine ⟨rfl, rfl, ?_, hg.constants, hg.locals, hg.constants_le⟩
  have hsize : g.chunk.code.size = g.chunk.code.toList.length := by simp
  simp only [Array.toList_modify, hg.code, hsize]
  rw [List.modify_eq_take_drop, List.take_left, List.drop_left]
  rfl

/-- What remains at the closing brace: the entries that still wait, and the size hints. -/
theorem close_implements {table n : Nat} {u : PUnit} (ht : table < 256) (hn : n < 256) (htop : g.top = table + 1 + n)
    (h : (if 0 < n then flush table n else pure ⟨⟩ : GenM PUnit).run g = .ok (u, g')) :
    g'.top = table + 1 ∧ ∃ is, Grows g is g' ∧ ∀ c m id waiting, waiting.length = n → m.Holds table (.table id :: waiting) →
      Yields c is m (if waiting.isEmpty then pure ⟨⟩ else EvalM.append id waiting)
        fun _ m' => m'.Holds table [.table id] ∧ m.Agrees (table + 1) m' := by
  split at h
  · next hpos =>
    obtain ⟨htop', is, hgrows, hyield⟩ := flush_implements ht hn h
    refine ⟨htop', is, hgrows, fun c m id waiting hlen hb => ?_⟩
    rw [if_neg (by cases waiting <;> simp_all)]
    exact hyield c m id waiting hlen hb
  · next hpos =>
    obtain ⟨-, rfl⟩ := run_pure_ok.mp h
    refine ⟨by omega, [], .refl _, fun c m id waiting hlen hb => ?_⟩
    obtain rfl : waiting = [] := List.eq_nil_of_length_eq_zero (by omega)
    exact .pure ⟨hb, .refl _ _⟩

/-- What the induction says of the entries of a constructor. -/
def FieldsImplement (fs : Fields) : Prop :=
  ∀ {g g' : Gen} {table : Nat} {tally tally' : Tally}, Ready g → g.chunk.locals.size ≤ table →
    g.top = table + 1 + tally.pending → tally.pending < groupSize →
    (fields table tally fs).run g = .ok (tally', g') →
    Ready g' ∧ g'.top = table + 1 + tally'.pending ∧ tally'.pending < groupSize ∧
      ∃ is, Grows g is g' ∧ ∀ c m id waiting, Covers c g' → waiting.length = tally.pending →
        m.Holds table (.table id :: waiting) →
        Yields c is m (Eval.fields (m.locals g.chunk.locals) id waiting fs) fun rest m' =>
          rest.length = tally'.pending ∧ m'.Holds table (.table id :: rest) ∧ m.Agrees table m'

/-- What the induction says of an expression. -/
def ExpLeaves (e : Exp) : Prop :=
  ∀ {g g' : Gen} {op : Operand}, Ready g → (expression e).run g = .ok (op, g') →
    Leaves g (Eval.expression · e) op g'

theorem fieldsImplement_positional {e : Exp} {rest : Fields} (he : ExpLeaves e) (hrest : FieldsImplement rest) :
    FieldsImplement (.positional e rest) := by
  intro g g' table tally tally' hg hl htop hp h
  obtain ⟨op, g₁, hexp, h₁⟩ := run_bind_ok h
  obtain ⟨n, g₂, hnext, h₂⟩ := run_bind_ok h₁
  obtain ⟨hput, rfl, htop₂⟩ := (he hg hexp).dischargeNext hg hnext
  obtain ⟨is₂, hgrows₂, hyield₂⟩ := hput.code
  have hl₂ : g₂.chunk.locals.size ≤ table := by rw [hgrows₂.locals]; exact hl
  have ht : table < 256 := by
    have := hput.ready.top_le
    simp only [maxSlots] at this
    omega
  have hsize {m : Machine} {id : Nat} {waiting : List Value} (hlen : waiting.length = tally.pending)
      (hb : m.Holds table (.table id :: waiting)) : g.top ≤ m.stack.size := by
    rw [htop, ← hlen]
    exact hb.size_le
  -- The value of the entry joins those that wait.
  have hjoin {m m₂ : Machine} {id : Nat} {waiting : List Value} {v : Value} (hlen : waiting.length = tally.pending)
      (hb : m.Holds table (.table id :: waiting)) (hf : Framed g g₂ m m₂) (hv : m₂.stack[g.top]? = some v) :
      m₂.Holds table (.table id :: (waiting ++ [v])) := by
    have hlength : table + (Value.table id :: waiting).length = g.top := by
      rw [htop, ← hlen, List.length_cons]
      omega
    exact (hb.of_agrees (by rw [hlength]; exact hf.1)).concat (by rw [hlength]; exact hv)
  dsimp only [Tally.addPositional] at h₂
  by_cases hfull : tally.pending + 1 = groupSize
  · rw [if_pos hfull] at h₂
    obtain ⟨_, g₃, hflush, h₃⟩ := run_bind_ok h₂
    obtain ⟨htop₃, is₃, hgrows₃, hyield₃⟩ := flush_implements ht (by rw [hfull]; decide) hflush
    have hl₃ : g₃.chunk.locals.size ≤ table := by rw [hgrows₃.locals]; exact hl₂
    have hready₃ : Ready g₃ := hgrows₃.ready hput.ready (by omega) (by rw [htop₃]; exact ht)
    obtain ⟨hready, htop', hp', is₄, hgrows₄, hyield₄⟩ := hrest hready₃ hl₃ (by exact htop₃)
      (Nat.zero_lt_succ 49) h₃
    refine ⟨hready, htop', hp', is₂ ++ (is₃ ++ is₄), hgrows₂.trans (hgrows₃.trans hgrows₄),
      fun c m id waiting hc hlen hb => ?_⟩
    refine (hyield₂ c m (hc.of_grows (hgrows₃.trans hgrows₄)) (hsize hlen hb)).bind ?_
    rintro v m₂ ⟨hframe, hv⟩
    rw [if_pos (by rw [hlen]; exact hfull)]
    refine (hyield₃ c m₂ id (waiting ++ [v]) (by simp [hlen]) (hjoin hlen hb hframe hv)).bind ?_
    rintro _ m₃ ⟨hb₃, hagree₃⟩
    have hlocals : m₃.locals g₃.chunk.locals = m.locals g.chunk.locals := by
      rw [hgrows₃.locals, hagree₃.locals (by omega), hframe.locals hg hgrows₂.locals]
    rw [← hlocals]
    refine (hyield₄ c m₃ id [] hc rfl hb₃).mono ?_
    rintro rest' m' ⟨hlen', hb', hagree'⟩
    exact ⟨hlen', hb', ((hframe.1.mono (by omega)).trans (hagree₃.mono (by omega))).trans hagree'⟩
  · rw [if_neg hfull] at h₂
    obtain ⟨hready, htop', hp', is₃, hgrows₃, hyield₃⟩ := hrest hput.ready hl₂
      (by rw [htop₂, htop]; rfl) (by change tally.pending + 1 < groupSize; omega) h₂
    refine ⟨hready, htop', hp', is₂ ++ is₃, hgrows₂.trans hgrows₃, fun c m id waiting hc hlen hb => ?_⟩
    refine (hyield₂ c m (hc.of_grows hgrows₃) (hsize hlen hb)).bind ?_
    rintro v m₂ ⟨hframe, hv⟩
    rw [if_neg (by rw [hlen]; exact hfull), ← hframe.locals hg hgrows₂.locals]
    refine (hyield₃ c m₂ id (waiting ++ [v]) hc (by simp [hlen]) (hjoin hlen hb hframe hv)).mono ?_
    rintro rest' m' ⟨hlen', hb', hagree'⟩
    exact ⟨hlen', hb', (hframe.1.mono (by omega)).trans hagree'⟩

/-- An entry with an explicit key, and the entries behind it. -/
theorem FieldsImplement.entry {rest : Fields} (hrest : FieldsImplement rest) {x y : Locals → EvalM Value} {key : Operand}
    {g₁ : Gen} {table : Nat} {tally tally' : Tally} {entry assign last : Position} {value : GenM Operand} (hg : Ready g)
    (hl : g.chunk.locals.size ≤ table) (htop : g.top = table + 1 + tally.pending) (hp : tally.pending < groupSize)
    (hkey : Leaves g x key g₁)
    (hvalue : ∀ {g₂ g₃ : Gen} {e : Operand}, Ready g₂ → value.run g₂ = .ok (e, g₃) → Leaves g₂ y e g₃)
    (h : (do storeEntry table key entry assign value last g.top; fields table tally.addKeyed rest : GenM Tally).run g₁ =
      .ok (tally', g')) :
    Ready g' ∧ g'.top = table + 1 + tally'.pending ∧ tally'.pending < groupSize ∧
      ∃ is, Grows g is g' ∧ ∀ c m id waiting, Covers c g' → waiting.length = tally.pending →
        m.Holds table (.table id :: waiting) →
        Yields c is m
          (do
            let k ← x (m.locals g.chunk.locals)
            let v ← y (m.locals g.chunk.locals)
            EvalM.store (.table id) k v
            Eval.fields (m.locals g.chunk.locals) id waiting rest)
          fun rest m' => rest.length = tally'.pending ∧ m'.Holds table (.table id :: rest) ∧ m.Agrees table m' := by
  obtain ⟨_, g₂, hentry, h₂⟩ := run_bind_ok h
  obtain ⟨hready₂, htop₂, is₂, hgrows₂, hyield₂⟩ := hkey.storeEntry hg (by omega) hvalue hentry
  have htop₃ : g₂.top = table + 1 + tally.addKeyed.pending := htop₂.trans htop
  obtain ⟨hready, htop', hp', is₃, hgrows₃, hyield₃⟩ := hrest hready₂ (by rw [hgrows₂.locals]; exact hl) htop₃ hp h₂
  refine ⟨hready, htop', hp', is₂ ++ is₃, hgrows₂.trans hgrows₃, fun c m id waiting hc hlen hb => ?_⟩
  have hsize : g.top ≤ m.stack.size := by rw [htop, ← hlen]; exact hb.size_le
  have hstep := (hyield₂ c m id (hc.of_grows hgrows₃) hsize hb.head).bind fun _ m₂ hframe => by
    have hb₂ : m₂.Holds table (.table id :: waiting) := by
      refine hb.of_agrees (hframe.1.mono ?_)
      rw [htop, ← hlen, List.length_cons]
      omega
    have hrest := (hyield₃ c m₂ id waiting hc hlen hb₂).mono fun rest' m' h' =>
      And.intro h'.1 (And.intro h'.2.1 ((hframe.1.mono (by omega : table ≤ g.top)).trans h'.2.2))
    rw [hframe.locals hg hgrows₂.locals] at hrest
    exact hrest
  simpa only [bind_assoc] using hstep

theorem fieldsImplement_named {name : Name} {assign : Position} {value : Exp} {rest : Fields} (hv : ExpLeaves value)
    (hrest : FieldsImplement rest) : FieldsImplement (.named name assign value rest) := by
  intro g g' table tally tally' hg hl htop hp h
  rw [fields, run_get_bind] at h
  exact hrest.entry hg hl htop hp (.literal rfl hg) hv h

theorem fieldsImplement_keyed {opened : Position} {key : Exp} {assign : Position} {value : Exp} {rest : Fields}
    (hk : ExpLeaves key) (hv : ExpLeaves value) (hrest : FieldsImplement rest) :
    FieldsImplement (.keyed opened key assign value rest) := by
  intro g g' table tally tally' hg hl htop hp h
  rw [fields, run_get_bind] at h
  obtain ⟨op, g₁, hkey, h₁⟩ := run_bind_ok h
  exact hrest.entry hg hl htop hp (hk hg hkey) hv h₁

theorem fieldsImplement_done (closed : Position) : FieldsImplement (.done closed) := by
  intro g g' table tally tally' hg hl htop hp h
  obtain ⟨rfl, rfl⟩ := run_pure_ok.mp h
  exact ⟨hg, htop, hp, [], .refl g', fun c m id waiting hc hlen hb => .pure ⟨hlen, hb, .refl _ _⟩⟩

theorem Ready.numbered (hg : Ready g) : Locals.Numbered g.chunk.locals.toList :=
  fun i l hl => hg.slot_eq i l (by simpa using hl)

theorem Ready.lookup_eq (hg : Ready g) {m : Machine} (hm : g.top ≤ m.stack.size) (name : Bytes) :
    (m.locals g.chunk.locals).lookup name =
      (g.chunk.locals.toList.reverse.find? (·.name == name)).bind fun l => m.stack[l.slot.toInt.toNat]? := by
  have hle := Nat.le_trans hg.locals_le_top hm
  rw [Machine.locals, Locals.lookup_ofSlots (by simpa using hle) hg.numbered]
  simp only [Array.getElem?_toList]

/-- A name is resolved to the slot of a local, or to a constant for a global. -/
theorem resolve_cases {name : Name} {op : Operand} (hg : Ready g) (h : (resolve name).run g = .ok (op, g')) :
    (∃ l, ∃ n : Nat, g.chunk.locals.toList.reverse.find? (·.name == name.text) = some l ∧ l.slot.toInt = n ∧
        n < g.chunk.locals.size ∧ op = .slot n ∧ g' = g) ∨
      (g.chunk.locals.toList.reverse.find? (·.name == name.text) = none ∧ ∃ k : Nat, op = .global k ∧
        (constant (.ofBytes name.text) name.pos).run g = .ok (k, g')) := by
  rw [resolve, run_get_bind] at h
  split at h
  · next l hl =>
    obtain ⟨rfl, rfl⟩ := run_pure_ok.mp h
    obtain ⟨n, hn⟩ := List.mem_iff_getElem?.mp (List.mem_reverse.mp (List.mem_of_find?_eq_some hl))
    have hlt := (List.getElem?_eq_some_iff.mp hn).1
    have hslot := hg.numbered n l hn
    exact .inl ⟨l, n, hl, hslot, by simpa using hlt, by rw [hslot], rfl⟩
  · next hl =>
    obtain ⟨k, g₁, hk, h⟩ := run_bind_ok h
    obtain ⟨rfl, rfl⟩ := run_pure_ok.mp h
    exact .inr ⟨hl, k, rfl, hk⟩

theorem resolve_leaves {name : Name} {op : Operand} (hg : Ready g) (h : (resolve name).run g = .ok (op, g')) :
    Leaves g (Eval.lookup · name.text) op g' := by
  rcases resolve_cases hg h with ⟨l, n, hl, hslot, hn, rfl, rfl⟩ | ⟨hl, k, rfl, hk⟩
  · have hlt := Nat.lt_of_lt_of_le hn hg.locals_le_top
    refine ⟨hg, ⟨n, rfl, .inl ⟨hn, rfl⟩⟩, [], .refl _, fun c m hc hm => ?_⟩
    have hv : m.stack[n]? = some m.stack[n] := Array.getElem?_eq_getElem (Nat.lt_of_lt_of_le hlt hm)
    refine .ok rfl (.slot (Nat.lt_of_lt_of_le hlt hg.top_le) hv) ?_ ⟨.refl _ _, hm⟩
    simp only [Eval.lookup, hg.lookup_eq hm, hl, Option.bind_some, hslot, Int.toNat_natCast, hv]
    rfl
  · obtain ⟨hgrows, htop, hconst⟩ := constant_grows hk
    refine ⟨constant_ready hg hk, htop, [], hgrows, fun c m hc hm => ?_⟩
    refine .ok rfl (.global (constant_lt hg hk) (hc k _ hconst)) ?_ ⟨.refl _ _, by rw [htop]; exact hm⟩
    simp only [Eval.lookup, hg.lookup_eq hm, hl]
    rfl

theorem expLeaves_literal (l : Literal) (pos : Position) : ExpLeaves (.literal l pos) := by
  intro g g' op hg h
  obtain ⟨rfl, rfl⟩ := run_pure_ok.mp h
  exact .literal (by cases l <;> rfl) hg

theorem locates_field {base : Exp} {dot : Position} {name : Name} {op : Operand} (hb : ExpLeaves base) (hg : Ready g)
    (h : (expression (.field base dot name)).run g = .ok (op, g')) :
    Locates g (fun locals => do return (← Eval.expression locals base, .ofBytes name.text)) op g' := by
  obtain ⟨b, g₁, hbase, h₁⟩ := run_bind_ok h
  obtain ⟨s, g₂, htop, h₂⟩ := run_bind_ok h₁
  obtain ⟨k, g₃, hk, h₃⟩ := run_bind_ok h₂
  obtain ⟨n, rfl, hput⟩ := (hb hg hbase).dischargeTop hg htop
  obtain ⟨rfl, rfl⟩ := run_pure_ok.mp h₃
  obtain ⟨is, hgrows, hyield⟩ := hput.code
  obtain ⟨hgrows', htop', hconst⟩ := constant_grows hk
  have hall := hgrows.trans hgrows'
  rw [List.append_nil] at hall
  refine ⟨constant_ready hput.ready hk, trivial, ⟨n, rfl, by rw [htop']; exact hput.spans⟩, is, hall, fun c m hc hm => ?_⟩
  refine (hyield c m (hc.of_grows hgrows') hm).map ?_
  rintro t m' ⟨⟨hagree, hsize⟩, ht⟩
  exact ⟨⟨hagree, by rw [htop']; exact hsize⟩, .field (hput.lt hg) (constant_lt hput.ready hk) ht (hc k _ hconst)⟩

theorem locates_index {base key : Exp} {opened closed : Position} {op : Operand} (hb : ExpLeaves base)
    (hk : ExpLeaves key) (hg : Ready g) (h : (expression (.index base opened key closed)).run g = .ok (op, g')) :
    Locates g (fun locals => do
      let t ← Eval.expression locals base
      return (t, ← Eval.expression locals key)) op g' := by
  obtain ⟨b, g₁, hbase, h₁⟩ := run_bind_ok h
  obtain ⟨s, g₂, htop, h₂⟩ := run_bind_ok h₁
  obtain ⟨k, g₃, hkey, h₃⟩ := run_bind_ok h₂
  obtain ⟨n, rfl, hput⟩ := (hb hg hbase).dischargeTop hg htop
  obtain ⟨is, hgrows, hyield⟩ := hput.code
  have hn := hput.spans.lt hg.locals_le_top
  obtain ⟨hready, hindexes, is', hgrows', hyield'⟩ := (hk hput.ready hkey).indexBy hput.ready hn h₃
  refine ⟨hready, hindexes.isEntry, hindexes.occupies hgrows.locals hput.spans, is ++ is', hgrows.trans hgrows',
    fun c m hc hm => ?_⟩
  refine (hyield c m (hc.of_grows hgrows') hm).bind ?_
  rintro t m₂ ⟨hframe, ht⟩
  rw [← hframe.locals hg hgrows.locals]
  refine (hyield' c m₂ t hc hframe.2 ht).map ?_
  rintro key' m' ⟨hframe', hplace⟩
  exact ⟨hframe.trans hframe' hput.spans.le, hplace⟩

theorem expLeaves_field {base : Exp} {dot : Position} {name : Name} (hb : ExpLeaves base) :
    ExpLeaves (.field base dot name) := by
  intro g g' op hg h
  have := (locates_field hb hg h).leaves
  simpa only [bind_assoc, pure_bind, Eval.expression] using this

theorem expLeaves_index {base key : Exp} {opened closed : Position} (hb : ExpLeaves base) (hk : ExpLeaves key) :
    ExpLeaves (.index base opened key closed) := by
  intro g g' op hg h
  have := (locates_index hb hk hg h).leaves
  simpa only [bind_assoc, pure_bind, Eval.expression] using this

theorem eval_table (locals : Locals) (opened : Position) (fs : Fields) :
    Eval.expression locals (.table opened fs) = EvalM.newTable >>= fun id => Eval.fields locals id [] fs >>= fun waiting =>
      (if waiting.isEmpty then pure ⟨⟩ else EvalM.append id waiting) >>= fun _ => pure (.table id) := by
  rw [Eval.expression]
  congr 1
  funext id
  congr 1
  funext waiting
  by_cases h : waiting.isEmpty
  · simp only [h, if_pos, pure_bind]
  · simp only [h, if_neg, Bool.false_eq_true, not_false_eq_true]

/-- The code of a constructor: the table, its entries, those that still wait, and the size hints. -/
theorem table_ok {opened : Position} {fs : Fields} {op : Operand}
    (h : (expression (.table opened fs)).run g = .ok (op, g')) :
    g.top < maxSlots ∧ op = .slot g.top ∧ ∃ g₁ g₂ g₃ tally,
      Grows g [{ op := Opcode.newTable.code, a := g.top.toUInt8 }] g₁ ∧ g₁.top = g.top + 1 ∧
      (fields g.top {} fs).run g₁ = .ok (tally, g₂) ∧
      (if 0 < tally.pending then flush g.top tally.pending else pure ⟨⟩ : GenM PUnit).run g₂ = .ok (⟨⟩, g₃) ∧
      (patch g.chunk.code.size tally).run g₃ = .ok ((), g') := by
  obtain ⟨table, g₀, halloc, h₁⟩ := run_bind_ok h
  obtain ⟨ht, rfl, rfl⟩ := allocate_ok halloc
  rw [run_get_bind] at h₁
  obtain ⟨_, g₁, hemit, h₂⟩ := run_bind_ok h₁
  obtain ⟨hgrows, htop⟩ := emit_grows hemit
  obtain ⟨tally, g₂, hfields, h₃⟩ := run_bind_ok h₂
  have hclosing : ((if 0 < tally.pending then flush g.top tally.pending else pure ⟨⟩) >>= fun _ => do
      patch g.chunk.code.size tally
      return Operand.slot g.top).run g₂ = .ok (op, g') := by
    rw [← h₃]
    split <;> rfl
  obtain ⟨_, g₃, hclose, h₄⟩ := run_bind_ok hclosing
  obtain ⟨_, g₄, hpatch, h₅⟩ := run_bind_ok h₄
  obtain ⟨rfl, rfl⟩ := run_pure_ok.mp h₅
  have hmoved : Grows g [] { g with top := g.top + 1 } := .of_chunk_eq rfl
  exact ⟨ht, rfl, g₁, g₂, g₃, tally, hmoved.trans hgrows, htop, hfields, hclose, hpatch⟩

theorem table_puts {opened : Position} {fs : Fields} {op : Operand} (hfs : FieldsImplement fs) (hg : Ready g)
    (h : (expression (.table opened fs)).run g = .ok (op, g')) :
    op = .slot g.top ∧ Puts g (Eval.expression · (.table opened fs)) g.top g' := by
  obtain ⟨ht, rfl, g₂, g₃, g₄, tally, hgrows₂, htop₂, hfields, hclose, hpatch⟩ := table_ok h
  have hle := hg.locals_le_top
  have hready₂ : Ready g₂ := hgrows₂.ready hg (by rw [htop₂]; exact Nat.le_succ_of_le hle) (by rw [htop₂]; exact ht)
  obtain ⟨hready₃, htop₃, hp₃, is₃, hgrows₃, hyield₃⟩ :=
    hfs hready₂ (by rw [hgrows₂.locals]; exact hle) (by exact htop₂) (Nat.zero_lt_succ 49) hfields
  obtain ⟨htop₄, is₄, hgrows₄, hyield₄⟩ := close_implements ht (Nat.lt_trans hp₃ (by decide)) htop₃ hclose
  obtain ⟨htop₅, hconst₅, hgrows₅⟩ := patch_grows (hgrows₂.trans (hgrows₃.trans hgrows₄)) hpatch
  have htop : g'.top = g.top + 1 := htop₅.trans htop₄
  refine ⟨rfl, hgrows₅.ready hg (by omega) (by rw [htop]; exact ht), .inr ⟨rfl, htop⟩, _, hgrows₅, fun c m hc hm => ?_⟩
  have hc₄ : Covers c g₄ := fun k v hk => hc k v (by rw [hconst₅]; exact hk)
  beta_reduce
  rw [eval_table]
  refine (yields_newTable ht hm _ _).bind ?_
  rintro id m₂ ⟨hb₂, hagree₂⟩
  have hlocals : m₂.locals g₂.chunk.locals = m.locals g.chunk.locals := by
    rw [hgrows₂.locals, hagree₂.locals hle]
  rw [← hlocals]
  refine (hyield₃ c m₂ id [] (hc₄.of_grows hgrows₄) rfl hb₂).bind ?_
  rintro waiting m₃ ⟨hlen, hb₃, hagree₃⟩
  refine (hyield₄ c m₃ id waiting hlen hb₃).map ?_
  rintro _ m₄ ⟨hb₄, hagree₄⟩
  refine ⟨⟨(hagree₂.trans hagree₃).trans (hagree₄.mono (by omega)), ?_⟩, hb₄.head⟩
  rw [htop]
  exact hb₄.size_le

theorem expLeaves_table {opened : Position} {fs : Fields} (hfs : FieldsImplement fs) : ExpLeaves (.table opened fs) := by
  intro g g' op hg h
  obtain ⟨rfl, hput⟩ := table_puts hfs hg h
  exact hput.leaves hg

/-- A number, with its minus signs and parentheses, is left as a literal. -/
theorem numeral_literal {e : Exp} (he : e.isNumeral = true) {op : Operand}
    (h : (expression e).run g = .ok (op, g')) : (∃ i, op = .int i) ∨ ∃ x, op = .float x := by
  fun_induction Exp.isNumeral e generalizing op with
  | case1 i pos =>
      obtain ⟨rfl, -⟩ := run_pure_ok.mp h
      exact .inl ⟨i, rfl⟩
  | case2 x pos =>
      obtain ⟨rfl, -⟩ := run_pure_ok.mp h
      exact .inr ⟨x, rfl⟩
  | case3 pos operand ih =>
      obtain ⟨op', g₁, hop, h₁⟩ := run_bind_ok h
      obtain ⟨rfl, rfl⟩ := run_pure_ok.mp h₁
      rcases ih he hop with ⟨i, rfl⟩ | ⟨x, rfl⟩
      · exact .inl ⟨-i, rfl⟩
      · exact .inr ⟨x.neg, rfl⟩
  | case4 inner pos ih => exact ih he h
  | case5 => cases he

theorem expLeaves_minus {pos : Position} {operand : Exp} (he : operand.isNumeral = true) (ho : ExpLeaves operand) :
    ExpLeaves (.minus pos operand) := by
  intro g g' op hg h
  obtain ⟨op', g₁, hop, h₁⟩ := run_bind_ok h
  obtain ⟨rfl, rfl⟩ := run_pure_ok.mp h₁
  obtain ⟨hready, hocc, is, hgrows, hcomp⟩ := ho hg hop
  obtain ⟨v, hv, hneg, hocc'⟩ : ∃ v, op'.literal? = some v ∧ (negate op').literal? = some v.negate ∧
      Occupies g g' (negate op') := by
    rcases numeral_literal he hop with ⟨i, rfl⟩ | ⟨x, rfl⟩
    · exact ⟨.int i, rfl, rfl, hocc⟩
    · exact ⟨.float x, rfl, rfl, hocc⟩
  refine ⟨hready, hocc', is, hgrows, fun c m hc hm => .of_yields (((hcomp c m hc hm).literal hv).map ?_)⟩
  rintro _ m' ⟨rfl, hframe⟩
  exact ⟨.literal hneg, hframe⟩

mutual

/-- The code of an expression agrees with its evaluation. -/
theorem expLeaves (e : Exp) (he : e.Whole) : ExpLeaves e := by
  cases e with
  | literal l pos => exact expLeaves_literal l pos
  | var name => exact resolve_leaves
  | table opened fs => exact expLeaves_table (fieldsImplement fs he)
  | minus pos operand => exact expLeaves_minus he.1 (expLeaves operand he.2)
  | paren inner closed => exact expLeaves inner he
  | field base dot name => exact expLeaves_field (expLeaves base he)
  | index base opened key closed => exact expLeaves_index (expLeaves base he.1) (expLeaves key he.2)
  | fault | faultAfter => exact he.elim

theorem fieldsImplement (fs : Fields) (hfs : fs.Whole) : FieldsImplement fs := by
  cases fs with
  | done closed => exact fieldsImplement_done closed
  | stop e => exact hfs.elim
  | positional e rest => exact fieldsImplement_positional (expLeaves e hfs.1) (fieldsImplement rest hfs.2)
  | named name assign value rest => exact fieldsImplement_named (expLeaves value hfs.1) (fieldsImplement rest hfs.2)
  | keyed opened key assign value rest =>
      exact fieldsImplement_keyed (expLeaves key hfs.1) (expLeaves value hfs.2.1) (fieldsImplement rest hfs.2.2)

end

end Gen

end MiniLua

import MiniLua.Editor.Analysis
import MiniLua.Proofs.Compile.Acceptance
import MiniLua.Proofs.Tree.Mentions

/-!
The names of a program and of its code. Every way in which the generator uses the operand of a global leaves an
instruction that names it, and no other instruction names a global.
-/

namespace MiniLua

open Editor

namespace Editor

/-- The globals that a piece of code names, with the constants of a chunk. -/
def namesIn (c : Chunk) (is : List Instruction) : List Bytes := (is.flatMap globalOperands).filterMap (stringConstant? c)

theorem namesIn_append (c : Chunk) (is js : List Instruction) : namesIn c (is ++ js) = namesIn c is ++ namesIn c js := by
  rw [namesIn, List.flatMap_append, List.filterMap_append]
  rfl

theorem stringConstant?_ofBytes {c : Chunk} {k : UInt8} {bs : Bytes} (h : c.constants[k.toNat]? = some (.ofBytes bs)) :
    stringConstant? c k = some bs := by
  rw [stringConstant?, h]
  exact congrArg some (Str.bytes_ofBytes bs)

end Editor

/-- The global that an operand waits to be read from. -/
def Operand.globals (c : Chunk) : Operand → List Bytes
  | .global key => [UInt8.ofInt key].filterMap (stringConstant? c)
  | _ => []

theorem Operand.globals_of_literal {e : Operand} {v : Value} (h : e.literal? = some v) (c : Chunk) : e.globals c = [] := by
  cases e with
  | global => cases h
  | _ => rfl

theorem Operand.plan_names {e : Operand} {dst : UInt8} {pool pool' : Chunk} {code : List Instruction}
    (h : e.plan dst pool = .ok (code, pool')) (c : Chunk) : namesIn c code = e.globals c := by
  have hload {v : Value} (h : loadConstant v dst pool = .ok (code, pool')) : namesIn c code = [] := by
    unfold loadConstant at h
    split at h
    · cases h
      rfl
    · cases h
  cases e with
  | float | str => exact hload h
  | slot s =>
      simp only [plan] at h
      split at h <;> cases h <;> rfl
  | other => cases h
  | nil | bool | int | index | field | element | global =>
      cases h
      rfl

/-- The variables among the mentions that none of the locals stands for. -/
def unbound (ls : Array LocalInfo) (ms : List Mention) : List Bytes :=
  ((ms.filterMap Mention.varName?).map Name.text).filter fun n => ls.all (·.name != n)

theorem unbound_append (ls : Array LocalInfo) (ms ms' : List Mention) : unbound ls (ms ++ ms') = unbound ls ms ++ unbound ls ms' := by
  simp only [unbound, List.filterMap_append, List.map_append, List.filter_append]

theorem unbound_cons_of_ne {m : Mention} (hm : m.role ≠ .variable) (ls : Array LocalInfo) (ms : List Mention) :
    unbound ls (m :: ms) = unbound ls ms := by
  have hnone : m.varName? = none := if_neg hm
  rw [unbound, List.filterMap_cons_none hnone]
  rfl

theorem unbound_variable (ls : Array LocalInfo) (name : Name) :
    unbound ls [⟨.variable, name⟩] = if ls.all (·.name != name.text) then [name.text] else [] := by
  have hsome : (Mention.mk .variable name).varName? = some name := rfl
  rw [unbound, List.filterMap_cons_some hsome, List.filterMap_nil, List.map_singleton, List.filter_cons]
  rfl

theorem mem_unbound {ls : Array LocalInfo} {ms : List Mention} {n : Bytes} :
    n ∈ unbound ls ms ↔ (∀ l ∈ ls, l.name ≠ n) ∧ ∃ v ∈ ms.filterMap Mention.varName?, v.text = n := by
  rw [unbound, List.mem_filter, List.mem_map, and_comm, Array.all_eq_true_iff_forall_mem]
  simp only [bne_iff_ne]

namespace Gen

section

variable (ls : Array LocalInfo) {α : Type} (pending : Chunk → α → List Bytes) (names : Chunk → List Bytes)

/-- The code that is added names the globals `names`, but for those that the result waits to be read from. -/
def Uses (x : GenM α) : Prop :=
  ∀ g a g', x.run g = .ok (a, g') → g.chunk.locals = ls → g.chunk.constants.size ≤ Chunk.maxConstants →
    ∃ is, Grows g is g' ∧ ∀ c, Covers c g' → ∀ n, n ∈ namesIn c is ∨ n ∈ pending c a ↔ n ∈ names c

end

/-- No global waits. -/
def nothing {α : Type} (_ : Chunk) (_ : α) : List Bytes := []

variable {ls : Array LocalInfo} {α β : Type} {pending : Chunk → α → List Bytes} {pending' : Chunk → β → List Bytes}
  {names names' : Chunk → List Bytes}

namespace Uses

theorem pure (a : α) : Uses ls pending (pending · a) (Pure.pure a) := by
  intro g b g' h hl hc
  obtain ⟨rfl, rfl⟩ := run_pure_ok.mp h
  exact ⟨[], .refl _, fun c _ n => or_iff_right (List.not_mem_nil (a := n))⟩

theorem congr {x : GenM α} (h : Uses ls pending names x) (hnames : ∀ c n, n ∈ names c ↔ n ∈ names' c) :
    Uses ls pending names' x := by
  intro g a g' hrun hl hc
  obtain ⟨is, hgrows, hn⟩ := h g a g' hrun hl hc
  exact ⟨is, hgrows, fun c hcov n => (hn c hcov n).trans (hnames c n)⟩

theorem swap {x : GenM α} (h : Uses ls pending (fun c => names c ++ names' c) x) :
    Uses ls pending (fun c => names' c ++ names c) x :=
  h.congr fun c n => by rw [List.mem_append, List.mem_append, or_comm]

/-- What waits after the first part is named by the second part. -/
theorem bind {x : GenM α} {k : α → GenM β} (hx : Uses ls pending names x)
    (hk : ∀ a, Uses ls pending' (fun c => pending c a ++ names' c) (k a)) :
    Uses ls pending' (fun c => names c ++ names' c) (x >>= k) := by
  intro g b g' h hl hc
  obtain ⟨a, g₁, h₁, h₂⟩ := run_bind_ok h
  obtain ⟨is, hgrows, hn⟩ := hx g a g₁ h₁ hl hc
  obtain ⟨js, hgrows', hn'⟩ := hk a g₁ b g' h₂ (hgrows.locals.trans hl) (hgrows.constants_le hc)
  refine ⟨is ++ js, hgrows.trans hgrows', fun c hcov n => ?_⟩
  have hfirst := hn c (hcov.of_grows hgrows') n
  have hsecond := hn' c hcov n
  rw [namesIn_append, List.mem_append, List.mem_append, or_assoc, hsecond, List.mem_append, ← or_assoc, hfirst]

theorem andThen {x : GenM α} {k : α → GenM β} (hx : Uses ls nothing names x) (hk : ∀ a, Uses ls pending' names' (k a)) :
    Uses ls pending' (fun c => names c ++ names' c) (x >>= k) := hx.bind hk

/-- A last part that names no more than what waits. -/
theorem last {x : GenM α} {k : α → GenM β} (hx : Uses ls pending names x) (hk : ∀ a, Uses ls pending' (pending · a) (k a)) :
    Uses ls pending' names (x >>= k) := by
  have hk' (a : α) : Uses ls pending' (fun c => pending c a ++ []) (k a) := (hk a).congr fun c n => by rw [List.append_nil]
  apply (hx.bind hk').congr
  intro c n
  rw [List.append_nil]

/-- A part that names no global. -/
theorem skip {x : GenM α} {k : α → GenM β} (hx : Uses ls nothing (fun _ => []) x) (hk : ∀ a, Uses ls pending' names' (k a)) :
    Uses ls pending' names' (x >>= k) := hx.bind hk

/-- A result that no global waits in. -/
theorem map {x : GenM α} (hx : Uses ls nothing names x) {f : α → β} (hf : ∀ c a, pending' c (f a) = []) :
    Uses ls pending' names (x >>= fun a => Pure.pure (f a)) := by
  apply hx.last
  intro a
  exact (Uses.pure (f a)).congr fun c n => by rw [hf]; rfl

theorem get_bind {k : Gen → GenM α} (hk : ∀ g, g.chunk.locals = ls → Uses ls pending names (k g)) :
    Uses ls pending names (get >>= k) :=
  fun g a g' h hl hc => hk g hl g a g' h hl hc

theorem throw (f : SourceFault) : Uses ls pending names (MonadExcept.throw f) := fun _ _ _ h => absurd h run_throw_ok

theorem of_chunk_eq {u : Gen → Gen} (h : ∀ g, (u g).chunk = g.chunk) : Uses ls nothing (fun _ => []) (modify u) := by
  intro g a g' hrun hl hc
  obtain rfl := run_modify_ok.mp hrun
  exact ⟨[], .of_chunk_eq (h g), fun c _ n => or_self_iff⟩

end Uses

theorem emit_uses (op : Opcode) (a b d : UInt8) :
    Uses ls nothing (fun c => namesIn c [{ op := op.code, a, b, c := d }]) (emit op a b d) := by
  intro g u g' h hl hc
  exact ⟨_, (emit_grows h).1, fun c _ n => or_iff_left (List.not_mem_nil (a := n))⟩

theorem constant_uses (v : Value) (pos : Position) : Uses ls nothing (fun _ => []) (constant v pos) := by
  intro g k g' h hl hc
  exact ⟨[], (constant_grows h).1, fun c _ n => or_self_iff⟩

theorem allocate_uses (pos : Position) : Uses ls nothing (fun _ => []) (allocate pos) := by
  intro g n g' h hl hc
  obtain ⟨-, -, rfl⟩ := allocate_ok h
  exact ⟨[], .of_chunk_eq rfl, fun c _ n => or_self_iff⟩

theorem releaseOperand_uses (e : Operand) : Uses ls nothing (fun _ => []) (releaseOperand e) := by
  have hrelease (slot : Int) : Uses ls nothing (fun _ => []) (release slot) := by
    apply Uses.of_chunk_eq
    intro g
    split <;> rfl
  cases e with
  | slot | field | element => exact hrelease _
  | index => exact .skip (hrelease _) fun _ => hrelease _
  | _ => exact .pure _

theorem discharge_uses (e : Operand) (dst : Nat) (pos : Position) : Uses ls nothing e.globals (discharge e dst pos) := by
  intro g u g' h hl hc
  obtain ⟨code, pool, hplan, rfl⟩ := discharge_ok h
  refine ⟨code, plan_grows hplan g.top, fun c _ n => ?_⟩
  rw [Operand.plan_names hplan]
  exact or_iff_left (List.not_mem_nil (a := n))

theorem dischargeNext_uses (e : Operand) (pos : Position) : Uses ls nothing e.globals (dischargeNext e pos) := by
  exact .skip (releaseOperand_uses e) fun _ => .skip (allocate_uses pos) fun dst => (discharge_uses e dst pos).map fun _ _ => rfl

theorem dischargeTop_uses (e : Operand) (pos : Position) : Uses ls nothing e.globals (dischargeTop e pos) := by
  unfold dischargeTop
  split
  · exact .pure _
  · exact (dischargeNext_uses e pos).map fun _ _ => rfl

theorem constantOrSlot_uses (e : Operand) (pos : Position) : Uses ls nothing e.globals (constantOrSlot e pos) := by
  unfold constantOrSlot
  split
  · next v hv =>
    apply ((constant_uses v pos).map fun _ _ => rfl).congr
    intro c n
    rw [Operand.globals_of_literal hv]
  · exact (dischargeTop_uses e pos).map fun _ _ => rfl

theorem find?_eq_none_iff {name : Bytes} :
    ls.toList.reverse.find? (·.name == name) = none ↔ ls.all (·.name != name) = true := by
  rw [List.find?_eq_none, Array.all_eq_true_iff_forall_mem]
  simp

/-- A name is resolved to an operand that names it exactly if it is no local. -/
theorem resolve_uses (name : Name) : Uses ls Operand.globals (fun _ => unbound ls [⟨.variable, name⟩]) (resolve name) := by
  intro g op g' h hl hc
  rw [resolve, run_get_bind, hl] at h
  rw [unbound_variable]
  split at h
  · next l hfind =>
    obtain ⟨rfl, rfl⟩ := run_pure_ok.mp h
    have hall : ¬ ls.all (·.name != name.text) = true := fun hall => by simp [find?_eq_none_iff.mpr hall] at hfind
    rw [if_neg hall]
    exact ⟨[], .refl _, fun c _ n => or_self_iff⟩
  · next hfind =>
    obtain ⟨k, g₁, hk, h⟩ := run_bind_ok h
    obtain ⟨rfl, rfl⟩ := run_pure_ok.mp h
    obtain ⟨hgrows, -, hconst⟩ := constant_grows hk
    have hlt : k < 256 := Nat.lt_of_lt_of_le (Array.getElem?_eq_some_iff.mp hconst).1 (hgrows.constants_le hc)
    rw [if_pos (find?_eq_none_iff.mp hfind)]
    refine ⟨[], hgrows, fun c hcov n => ?_⟩
    have hname : stringConstant? c (UInt8.ofInt k) = some name.text := by
      apply stringConstant?_ofBytes
      rw [toNat_ofInt hlt]
      exact hcov k _ hconst
    rw [Operand.globals, List.filterMap_cons_some hname]
    exact or_iff_right (List.not_mem_nil (a := n))

/-- An entry of a table waits for no global. -/
theorem indexBy_uses {waiting : Chunk → Operand → List Bytes} (hw : ∀ c op, op.globals c = [] → waiting c op = [])
    (slot : Int) (key : Operand) (pos : Position) : Uses ls waiting key.globals (indexBy slot key pos) := by
  have hindex (key : Operand) : Uses ls waiting key.globals (return .index slot (← dischargeTop key pos)) :=
    (dischargeTop_uses key pos).map fun c _ => hw c _ rfl
  unfold indexBy
  split
  · exact (constant_uses _ pos).map fun c _ => hw c _ rfl
  · split
    · exact (Uses.pure _).congr fun c _ => by rw [hw c _ rfl]; rfl
    · exact hindex _
  · exact hindex key

theorem store_uses (target : Operand) (value : UInt8) (isConst : Bool) :
    Uses ls nothing (fun _ => []) (store target value isConst) := by
  cases target with
  | field | element | index => cases isConst <;> exact emit_uses _ _ _ _
  | _ => exact .pure _

theorem checkKey_uses (key : Operand) (pos : Position) : Uses ls nothing (fun _ => []) (checkKey key pos) := by
  unfold checkKey
  split
  · exact .throw _
  · split
    · exact .throw _
    · exact .pure _
  · exact .pure _

theorem setTop_uses (top : Nat) : Uses ls nothing (fun _ => []) (setTop top) := .of_chunk_eq fun _ => rfl

theorem storeEntry_uses {value : GenM Operand} (table : Nat) (key : Operand) (entry assign : Position)
    (hvalue : Uses ls Operand.globals names value) (last : Position) (base : Nat) :
    Uses ls nothing (fun c => key.globals c ++ names c) (storeEntry table key entry assign value last base) := by
  refine .skip (checkKey_uses key entry) fun _ => (indexBy_uses (fun _ _ _ => rfl) table key assign).andThen fun target => ?_
  have hstore (p : UInt8 × Bool) : Uses ls nothing (fun _ => []) (do store target p.1 p.2; setTop base) :=
    .skip (store_uses target p.1 p.2) fun _ => setTop_uses base
  exact hvalue.last fun op => (constantOrSlot_uses op last).last hstore

theorem flush_uses (table pending : Nat) : Uses ls nothing (fun _ => []) (flush table pending) :=
  .skip (emit_uses .setList _ _ _) fun _ => setTop_uses _

theorem negate_globals (c : Chunk) (op : Operand) : (negate op).globals c = op.globals c := by
  cases op <;> rfl

/-- The size hints of a table are no globals. -/
theorem table_uses {waiting : Chunk → Operand → List Bytes} (hw : ∀ c op, op.globals c = [] → waiting c op = [])
    {opened : Position} {fs : Fields} (hfs : ∀ table, Uses ls nothing (fun _ => unbound ls fs.mentions) (fields table {} fs)) :
    Uses ls waiting (fun _ => unbound ls fs.mentions) (expression (.table opened fs)) := by
  intro g op g' h hl hc
  obtain ⟨-, rfl, g₂, g₃, g₄, tally, hgrows₂, -, hfields, hclose, hpatch⟩ := table_ok h
  obtain ⟨is₃, hgrows₃, hn₃⟩ := hfs _ g₂ tally g₃ hfields (hgrows₂.locals.trans hl) (hgrows₂.constants_le hc)
  have hclose_uses : Uses ls nothing (fun _ => []) (if 0 < tally.pending then flush g.top tally.pending else pure ⟨⟩) := by
    split
    · exact flush_uses _ _
    · exact .pure _
  obtain ⟨is₄, hgrows₄, hn₄⟩ := hclose_uses g₃ _ g₄ hclose ((hgrows₂.trans hgrows₃).locals.trans hl)
    ((hgrows₂.trans hgrows₃).constants_le hc)
  obtain ⟨-, hconst₅, hgrows₅⟩ := patch_grows (hgrows₂.trans (hgrows₃.trans hgrows₄)) hpatch
  refine ⟨_, hgrows₅, fun c hcov n => ?_⟩
  have hcov₄ : Covers c g₄ := fun k v hk => hcov k v (by rw [hconst₅]; exact hk)
  have hbody := hn₃ c (hcov₄.of_grows hgrows₄) n
  have hclosed := hn₄ c hcov₄ n
  rw [hw c _ rfl]
  change n ∈ namesIn c (is₃ ++ is₄) ∨ n ∈ [] ↔ _
  simp only [nothing, List.not_mem_nil, or_false, iff_false] at hbody hclosed ⊢
  rw [namesIn_append, List.mem_append, or_iff_left hclosed, hbody]

theorem unbound_field (name : Name) : unbound ls [⟨.field, name⟩] = [] := rfl

mutual

theorem expression_uses (e : Exp) (he : e.Whole) :
    Uses ls Operand.globals (fun _ => unbound ls e.mentions) (expression e) := by
  cases e with
  | literal l pos => cases l <;> exact .pure _
  | table opened fs => exact table_uses (fun _ _ h => h) fun table => fields_uses table {} fs he
  | minus pos operand =>
      rw [expression]
      apply (expression_uses operand he.2).last
      intro op
      exact (Uses.pure (negate op)).congr fun c n => by rw [negate_globals]
  | var name => exact resolve_uses name
  | paren inner pos =>
      rw [expression]
      exact expression_uses inner he
  | field base dot name =>
      rw [expression, Exp.mentions, unbound_append, unbound_field, List.append_nil]
      exact (expression_uses base he).last fun op => (dischargeTop_uses op dot).last fun slot =>
        (constant_uses _ _).map fun _ _ => rfl
  | index base opened key closed =>
      rw [expression, Exp.mentions, unbound_append]
      exact (expression_uses base he.1).bind fun op => (dischargeTop_uses op opened).andThen fun slot =>
        (expression_uses key he.2).last fun op => indexBy_uses (fun _ _ h => h) slot op key.last
  | fault f => exact .throw f
  | faultAfter e f => cases he

theorem fields_uses (table : Nat) (tally : Tally) (fs : Fields) (hfs : fs.Whole) :
    Uses ls nothing (fun _ => unbound ls fs.mentions) (fields table tally fs) := by
  cases fs with
  | done closed => exact .pure _
  | stop e => cases hfs
  | positional e rest =>
      rw [fields, Fields.mentions, unbound_append]
      apply (expression_uses e hfs.1).bind
      intro op
      apply (dischargeNext_uses op e.last).andThen
      intro _
      dsimp only
      split
      · exact .skip (flush_uses _ _) fun _ => fields_uses table _ rest hfs.2
      · exact fields_uses table _ rest hfs.2
  | named name assign value rest =>
      rw [fields, Fields.mentions, unbound_cons_of_ne (by simp), unbound_append]
      apply Uses.get_bind
      intro g hg
      exact (storeEntry_uses table (.str name.text) name.pos assign (expression_uses value hfs.1) value.last g.top).andThen
        fun _ => fields_uses table _ rest hfs.2
  | keyed opened key assign value rest =>
      rw [fields, Fields.mentions, unbound_append, unbound_append]
      apply Uses.get_bind
      intro g hg
      apply (expression_uses key hfs.1).bind
      intro op
      have hentry := storeEntry_uses table op opened assign (expression_uses value hfs.2.1) value.last g.top
      exact (hentry.andThen fun _ => fields_uses table _ rest hfs.2.2).congr fun c n => by rw [List.append_assoc]

end

theorem arguments_uses (es : List Exp) (hes : ∀ e ∈ es, e.Whole) :
    Uses ls nothing (fun _ => unbound ls (es.flatMap Exp.mentions)) (arguments es) := by
  induction es with
  | nil => exact .pure _
  | cons e es ih =>
      rw [arguments, List.flatMap_cons, unbound_append]
      exact (expression_uses e (hes e List.mem_cons_self)).bind fun op => (dischargeNext_uses op e.last).andThen
        fun _ => ih fun e he => hes e (List.mem_cons_of_mem _ he)

theorem assignGlobal_uses (key : Int) (e : Operand) (pos : Position) :
    Uses ls nothing (fun c => (Operand.global key).globals c ++ e.globals c) (assignGlobal (UInt8.ofInt key) e pos) := by
  have hset (p : UInt8 × Bool) : Uses ls nothing (Operand.globals · (.global key))
      (emit (if p.2 then .setGlobalConst else .setGlobal) (UInt8.ofInt key) p.1 0) := by
    split <;> exact emit_uses _ _ _ _
  unfold assignGlobal
  split
  · next key' =>
    apply (emit_uses .setGlobalGlobal (UInt8.ofInt key) (UInt8.ofInt key') 0).congr
    intro c n
    rw [Operand.globals, Operand.globals, ← List.filterMap_append]
    rfl
  · exact ((constantOrSlot_uses e pos).andThen hset).swap

theorem assign_uses (target e : Operand) (pos : Position) :
    Uses ls nothing (fun c => target.globals c ++ e.globals c) (assign target e pos) := by
  have hstore : Uses ls nothing e.globals (constantOrSlot e pos >>= fun p => store target p.1 p.2) :=
    (constantOrSlot_uses e pos).last fun p => store_uses target p.1 p.2
  cases target with
  | slot s => exact discharge_uses e _ pos
  | global key => exact assignGlobal_uses key e pos
  | _ => exact hstore

theorem statement_uses {s : Stat} (hs : s.Whole) (hd : s.declared = none) :
    Uses ls nothing (fun _ => unbound ls s.mentions) (statement s) := by
  cases s with
  | declare => cases hd
  | assign target value =>
      rw [Stat.mentions, unbound_append]
      apply (expression_uses target hs.2.1).bind
      intro t
      exact ((expression_uses value hs.2.2).bind fun op => (assign_uses t op value.last).swap).swap
  | call callee args end_ =>
      obtain ⟨hcallee, hargs, rfl⟩ := hs
      rw [Stat.mentions, unbound_append]
      exact (expression_uses callee hcallee).bind fun op => (dischargeNext_uses op callee.last).andThen fun fn =>
        (arguments_uses args hargs).last fun _ => emit_uses .call _ _ _
  | construct e =>
      cases e with
      | table opened fs =>
          have htable : Uses ls nothing (fun _ => unbound ls fs.mentions) (expression (.table opened fs)) :=
            table_uses (fun _ _ _ => rfl) fun table => fields_uses table {} fs hs
          exact htable.map fun _ _ => rfl
      | _ => cases hs
  | stop e => cases hs

theorem declare_names {name : Name} {init : Option Exp} {g g' : Gen} {u : Unit} (hi : (Stat.declare name init).Whole)
    (hg : Clear g) (h : (declare name init).run g = .ok (u, g')) :
    ∃ is, Follows g is (settle g') ∧ g'.chunk.locals = g.chunk.locals.push (entry name g.chunk.locals.size) ∧
      ∀ c, Covers c g' → ∀ n, n ∈ namesIn c is ↔ n ∈ unbound g.chunk.locals (Stat.declare name init).mentions := by
  obtain ⟨hs, g₁, rfl, hinit⟩ := declare_ok h
  have hvalue : ∃ is, Grows g is g₁ ∧ ∀ c, Covers c g₁ → ∀ n,
      n ∈ namesIn c is ↔ n ∈ unbound g.chunk.locals (Stat.declare name init).mentions := by
    cases init with
    | none =>
        refine ⟨_, (emit_grows hinit).1, fun c _ n => ?_⟩
        rw [Stat.mentions, unbound_cons_of_ne (by simp)]
        rfl
    | some e =>
        obtain ⟨op, g₂, hexp, hdischarge⟩ := hinit
        obtain ⟨is, hgrows, hn⟩ := expression_uses e (hi e rfl) g op g₂ hexp rfl hg.constants_le
        obtain ⟨js, hgrows', hn'⟩ := discharge_uses op _ _ g₂ _ g₁ hdischarge hgrows.locals (hgrows.constants_le hg.constants_le)
        refine ⟨is ++ js, hgrows.trans hgrows', fun c hcov n => ?_⟩
        rw [Stat.mentions, unbound_cons_of_ne (by simp), ← hn c (hcov.of_grows hgrows') n, namesIn_append, List.mem_append,
          ← hn' c hcov n]
        simp [nothing]
  obtain ⟨is, hgrows, hn⟩ := hvalue
  exact ⟨is, ⟨hgrows.code, hgrows.constants, hg.push hs rfl hgrows⟩, by rw [hgrows.locals], hn⟩

/-- The locals behind a statement. -/
def localsAfter (ls : Array LocalInfo) (s : Stat) : Array LocalInfo :=
  match s.declared with
  | some name => ls.push (entry name ls.size)
  | none => ls

theorem forall_localsAfter_ne {s : Stat} {n : Bytes} :
    (∀ l ∈ localsAfter ls s, l.name ≠ n) ↔ (∀ l ∈ ls, l.name ≠ n) ∧ ¬ s.Declares n := by
  unfold localsAfter Stat.Declares
  cases s.declared with
  | none => simp
  | some name => simp [or_imp, forall_and, entry]

theorem statement_names {s : Stat} {g g' : Gen} {u : Unit} (hs : s.Whole) (hg : Clear g)
    (h : (statement s).run g = .ok (u, g')) :
    ∃ is, Follows g is (settle g') ∧ g'.chunk.locals = localsAfter g.chunk.locals s ∧
      ∀ c, Covers c g' → ∀ n, n ∈ namesIn c is ↔ n ∈ unbound g.chunk.locals s.mentions := by
  cases hd : s.declared with
  | none =>
      obtain ⟨is, hgrows, hn⟩ := statement_uses hs hd g u g' h rfl hg.constants_le
      refine ⟨is, hgrows.follows hg, ?_, fun c hcov n => ?_⟩
      · rw [localsAfter, hd]
        exact hgrows.locals
      · rw [← hn c hcov n]
        exact (or_iff_left (List.not_mem_nil (a := n))).symm
  | some name =>
      cases s with
      | declare name' init => exact declare_names hs hg h
      | _ => cases hd

/-- The code of a block names the free variables of the block that are no locals yet. -/
theorem block_globals {b : Block} {g g' : Gen} {u : Unit} (hb : ∀ s ∈ b, s.Whole) (hg : Clear g)
    (h : (block b).run g = .ok (u, g')) :
    ∃ is, Follows g is g' ∧ ∀ c, Covers c g' → ∀ n,
      n ∈ namesIn c is ↔ (∀ l ∈ g.chunk.locals, l.name ≠ n) ∧ b.Free n := by
  induction b generalizing g with
  | nil =>
      obtain ⟨-, rfl⟩ := run_pure_ok.mp h
      refine ⟨[], ⟨by simp, fun _ _ hk => hk, hg⟩, fun c _ n => ?_⟩
      simp [namesIn, Block.not_free_nil]
  | cons s b ih =>
      obtain ⟨hs, hb⟩ := List.forall_mem_cons.mp hb
      obtain ⟨g₁, hrun, hrest⟩ := block_cons_ok h
      obtain ⟨is, hfollows, hlocals, hn⟩ := statement_names hs hg hrun
      obtain ⟨js, hfollows', hn'⟩ := ih hb hfollows.clear hrest
      refine ⟨is ++ js, hfollows.trans hfollows', fun c hcov n => ?_⟩
      have hcov₁ : Covers c g₁ := fun k v hk => hcov k v (hfollows'.constants k v hk)
      have hscope : (∀ l ∈ (settle g₁).chunk.locals, l.name ≠ n) ↔ (∀ l ∈ g.chunk.locals, l.name ≠ n) ∧ ¬ s.Declares n := by
        change (∀ l ∈ g₁.chunk.locals, l.name ≠ n) ↔ _
        rw [hlocals, forall_localsAfter_ne]
      rw [namesIn_append, List.mem_append, hn c hcov₁ n, hn' c hcov n, hscope, mem_unbound, Block.free_cons]
      exact ⟨fun h => h.elim (fun h => ⟨h.1, .inl h.2⟩) fun h => ⟨h.1.1, .inr ⟨h.1.2, h.2⟩⟩,
        fun h => h.2.elim (fun hv => .inl ⟨h.1, hv⟩) fun hd => .inr ⟨⟨h.1, hd.1⟩, hd.2⟩⟩

end Gen

/-- No name is left where the end of the input follows what was taken away. -/
theorem Grammar.Takes.names_eq_nil {n : Nat} {us r : List Token} {t : Token}
    (h : Takes n ((us ++ [t]).map Token.lexeme) (Parser.lexemes r)) (hus : ∀ t ∈ us, t.lexeme.isLast = false)
    (heof : (Parser.head r).lexeme = .eof) : Parser.names r = [] := by
  cases r with
  | nil => rfl
  | cons t' r =>
      have ht : t.lexeme = .eof := by
        obtain ⟨w, hw, -⟩ := h
        have hmem : Lexeme.eof ∈ (us ++ [t]).map Token.lexeme :=
          hw ▸ List.mem_append_right w (List.mem_cons.mpr (.inl heof.symm))
        obtain ⟨t'', hmem, heq⟩ := List.mem_map.mp hmem
        rcases List.mem_append.mp hmem with hmem | hmem
        · cases (congrArg Lexeme.isLast heq).symm.trans (hus t'' hmem)
        · rw [← List.mem_singleton.mp hmem, heq]
      rw [List.map_append, List.map_singleton, ht] at h
      have hsingle := h.eq_eof (List.forall_mem_map.mpr hus) heof
      obtain rfl : r = [] := List.map_eq_nil_iff.mp (List.cons.inj hsingle).2
      exact Parser.names_of_not_isName heof rfl

/-- A program that is compiled has all the names of the source. -/
theorem mentions_of_compile {source name : Bytes} {c : Chunk} (h : Chunk.compile source name = .ok c) :
    let tokens := (Scanner.ofSource source none).tokens.1
    (Block.ofTokens tokens).mentions.map Mention.name = tokens.filterMap Token.name? := by
  intro tokens
  obtain ⟨-, g, hrun, -⟩ := Chunk.compile_ok h
  obtain ⟨r, hnames, hderives, heof⟩ := Parser.block_names (Gen.not_broken_of_block hrun)
  obtain ⟨us, t, hts, -, hus⟩ := Scanner.tokens_eq (Scanner.ofSource source none)
  have htakes : Grammar.Takes 0 (tokens.map Token.lexeme) (Parser.lexemes r) := hderives.takes
  have htokens : tokens = us ++ [t] := hts
  rw [htokens] at htakes
  rw [Parser.Names, htakes.names_eq_nil hus heof, List.append_nil] at hnames
  exact hnames.symm

end MiniLua

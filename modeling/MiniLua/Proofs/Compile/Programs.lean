import MiniLua.Proofs.Compile.Statements
import MiniLua.Proofs.Evaluation.Faults
import MiniLua.Proofs.Tree.Parsing

/-!
Programs. Code is generated for whole trees only, and executing it is evaluating the tree: the same outcome, output,
globals and tables.
-/

namespace MiniLua

namespace Gen

variable {g g' : Gen}

theorem storeEntry_ok {table base : Nat} {key : Operand} {entry assign last : Position} {value : GenM Operand} {u : Unit}
    (h : (storeEntry table key entry assign value last base).run g = .ok (u, g')) :
    ∃ g₁ op g₂, value.run g₁ = .ok (op, g₂) := by
  obtain ⟨_, _, -, h₁⟩ := run_bind_ok h
  obtain ⟨_, g₁, -, h₂⟩ := run_bind_ok h₁
  obtain ⟨op, g₂, hvalue, -⟩ := run_bind_ok h₂
  exact ⟨g₁, op, g₂, hvalue⟩

mutual

/-- Where reading stopped, no code is generated. -/
theorem not_broken_of_expression {e : Exp} {g g' : Gen} {op : Operand} (h : (expression e).run g = .ok (op, g')) :
    ¬ e.Broken := by
  cases e with
  | literal | var => exact id
  | table opened fs =>
      obtain ⟨_, _, -, h₁⟩ := run_bind_ok h
      rw [run_get_bind] at h₁
      obtain ⟨_, _, -, h₂⟩ := run_bind_ok h₁
      obtain ⟨_, _, hfields, -⟩ := run_bind_ok h₂
      exact not_broken_of_fields hfields
  | minus pos operand =>
      obtain ⟨_, _, hop, -⟩ := run_bind_ok h
      exact not_broken_of_expression (e := operand) hop
  | paren inner closed => exact not_broken_of_expression (e := inner) h
  | field base dot name =>
      obtain ⟨_, _, hbase, -⟩ := run_bind_ok h
      exact not_broken_of_expression (e := base) hbase
  | index base opened key closed =>
      obtain ⟨_, _, hbase, h₁⟩ := run_bind_ok h
      obtain ⟨_, _, -, h₂⟩ := run_bind_ok h₁
      obtain ⟨_, _, hkey, -⟩ := run_bind_ok h₂
      exact not_or.mpr ⟨not_broken_of_expression hbase, not_broken_of_expression hkey⟩
  | fault f => exact absurd h run_throw_ok
  | faultAfter e f =>
      obtain ⟨_, _, -, h₁⟩ := run_bind_ok h
      exact absurd h₁ run_throw_ok

theorem not_broken_of_fields {fs : Fields} {g g' : Gen} {table : Nat} {tally tally' : Tally}
    (h : (fields table tally fs).run g = .ok (tally', g')) : ¬ fs.Broken := by
  cases fs with
  | done closed => exact id
  | stop e =>
      obtain ⟨_, _, he, -⟩ := run_bind_ok h
      exact not_broken_of_expression he
  | positional e rest =>
      obtain ⟨_, _, he, h₁⟩ := run_bind_ok h
      obtain ⟨_, _, -, h₂⟩ := run_bind_ok h₁
      refine not_or.mpr ⟨not_broken_of_expression he, ?_⟩
      dsimp only at h₂
      split at h₂
      · obtain ⟨_, _, -, h₃⟩ := run_bind_ok h₂
        exact not_broken_of_fields h₃
      · exact not_broken_of_fields h₂
  | named name assign value rest =>
      rw [fields, run_get_bind] at h
      obtain ⟨_, _, hentry, h₁⟩ := run_bind_ok h
      obtain ⟨_, _, _, hvalue⟩ := storeEntry_ok hentry
      exact not_or.mpr ⟨not_broken_of_expression hvalue, not_broken_of_fields h₁⟩
  | keyed opened key assign value rest =>
      rw [fields, run_get_bind] at h
      obtain ⟨_, _, hkey, h₁⟩ := run_bind_ok h
      obtain ⟨_, _, hentry, h₂⟩ := run_bind_ok h₁
      obtain ⟨_, _, _, hvalue⟩ := storeEntry_ok hentry
      exact not_or.mpr ⟨not_broken_of_expression hkey,
        not_or.mpr ⟨not_broken_of_expression hvalue, not_broken_of_fields h₂⟩⟩

end

theorem not_broken_of_arguments {es : List Exp} {u : Unit} (h : (arguments es).run g = .ok (u, g')) :
    ∀ e ∈ es, ¬ e.Broken := by
  induction es generalizing g with
  | nil => exact List.forall_mem_nil _
  | cons e es ih =>
      obtain ⟨_, _, he, h₁⟩ := run_bind_ok h
      obtain ⟨_, _, -, h₂⟩ := run_bind_ok h₁
      exact List.forall_mem_cons.mpr ⟨not_broken_of_expression he, ih h₂⟩

theorem not_broken_of_statement {s : Stat} {u : Unit} (h : (statement s).run g = .ok (u, g')) : ¬ s.Broken := by
  cases s with
  | declare name init =>
      obtain ⟨-, _, -, hinit⟩ := declare_ok h
      rintro ⟨e, rfl, he⟩
      obtain ⟨_, _, hexp, -⟩ := hinit
      exact not_broken_of_expression hexp he
  | assign target value =>
      obtain ⟨_, _, htarget, h₁⟩ := run_bind_ok h
      obtain ⟨_, _, hvalue, -⟩ := run_bind_ok h₁
      exact not_or.mpr ⟨not_broken_of_expression htarget, not_broken_of_expression hvalue⟩
  | call callee args end_ =>
      obtain ⟨_, _, hcallee, h₁⟩ := run_bind_ok h
      obtain ⟨_, _, -, h₂⟩ := run_bind_ok h₁
      obtain ⟨_, _, hargs, h₃⟩ := run_bind_ok h₂
      rintro (hb | ⟨e, he, hb⟩ | hb)
      · exact not_broken_of_expression hcallee hb
      · exact not_broken_of_arguments hargs e he hb
      · cases end_ with
        | none => cases hb
        | some f => exact absurd h₃ run_throw_ok
  | construct e | stop e =>
      obtain ⟨_, _, he, -⟩ := run_bind_ok h
      exact not_broken_of_expression he

/-- Code is generated statement by statement, each with all temporaries free. -/
theorem block_cons_ok {s : Stat} {b : Block} {u : Unit} (h : (block (s :: b)).run g = .ok (u, g')) :
    ∃ g₁, (statement s).run g = .ok ((), g₁) ∧ (block b).run (settle g₁) = .ok ((), g') := by
  obtain ⟨_, g₁, hs, h₁⟩ := run_bind_ok h
  obtain ⟨n, g₂, hcount, h₂⟩ := run_bind_ok h₁
  obtain ⟨rfl, rfl⟩ : n = g₁.chunk.locals.size ∧ g₂ = g₁ := run_pure_ok.mp hcount
  obtain ⟨_, g₃, htop, h₃⟩ := run_bind_ok h₂
  obtain rfl := run_modify_ok.mp htop
  exact ⟨g₂, hs, h₃⟩

theorem not_broken_of_block {b : Block} {u : Unit} (h : (block b).run g = .ok (u, g')) : ∀ s ∈ b, ¬ s.Broken := by
  induction b generalizing g with
  | nil => exact List.forall_mem_nil _
  | cons s b ih =>
      obtain ⟨g₁, hs, hb⟩ := block_cons_ok h
      exact List.forall_mem_cons.mpr ⟨not_broken_of_statement hs, ih hb⟩

end Gen

/-- The program of a chunk is whole. -/
theorem Chunk.compile_ok {source name : Bytes} {c : Chunk} (h : Chunk.compile source name = .ok c) :
    let program := Block.ofTokens (Scanner.ofSource source none).tokens.1
    (∀ s ∈ program, s.Whole) ∧ ∃ g, (Gen.block program).run { chunk := { name }, top := 0 } = .ok ((), g) ∧ g.chunk = c := by
  intro program
  change Except.map _ ((Gen.block program).run { chunk := { name }, top := 0 }) = .ok c at h
  cases hrun : (Gen.block program).run { chunk := { name }, top := 0 } with
  | error f =>
      rw [hrun] at h
      cases h
  | ok r =>
      rw [hrun] at h
      refine ⟨?_, r.2, rfl, Except.ok.inj h⟩
      rcases Parser.block_splits _ (Scanner.ofSource source none).tokens.1 with hw | ⟨s, hs, hb⟩
      · exact hw
      · exact absurd hb (Gen.not_broken_of_block hrun s hs)

/-- None of the natives asks for a place on the stack. -/
def Machine.PlaceFree (m : Machine) : Prop := ∀ native ∈ m.natives, native.body.PlaceFree

theorem Yields.keeps {α : Type} {c : Chunk} {is : List Instruction} {m : Machine} {x : EvalM α}
    {Q : α → Machine → Prop} {P : Fault → Prop} (h : Yields c is m x Q) (hx : x.Meets P) :
    Yields c is m x fun a m' => Q a m' ∧ m'.natives = m.natives := by
  cases h with
  | fault hs hr => exact .fault hs hr
  | ok hs hr hQ => exact .ok hs hr ⟨hQ, hx.run_ok hr⟩

theorem yields_call {c : Chunk} {m : Machine} {fn : Nat} {f : Value} {args : List Value} (hm : m.PlaceFree)
    (hfn : fn < 256) (hn : args.length < 256) (h : m.Holds fn (f :: args)) :
    Yields c [Gen.callOf fn args.length] m (EvalM.call f args) fun _ m' => m.Extends m' := by
  rw [← toNat_toUInt8 hfn] at h
  have hs : (ExecM.steps c [Gen.callOf fn args.length]).run m = (ExecM.call fn.toUInt8 args.length).run m := by
    rw [ExecM.steps_singleton]
    simp only [Gen.callOf, ExecM.step, Instruction.opcode?, Opcode.ofCode?_code]
    rw [toNat_toUInt8 hn]
  have hx := ExecM.call_world hm h
  rcases hr : (ExecM.call fn.toUInt8 args.length).run m with ⟨r | r, m'⟩
  · rw [hr] at hs hx
    exact .fault hs hx
  · obtain ⟨hext, -⟩ := ExecM.call_extends h.head hr
    rw [hr] at hs hx
    exact .ok hs hx hext

namespace Gen

variable {g g' : Gen}

theorem call_yields {callee : Exp} {args : List Exp} {u : Unit} (hcallee : callee.Whole) (hargs : ∀ e ∈ args, e.Whole)
    (hg : Clear g) (h : (statement (.call callee args none)).run g = .ok (u, g')) :
    ∃ is, Grows g is g' ∧ ∀ c m, Covers c g' → g.top ≤ m.stack.size → m.PlaceFree →
      Yields c is m (do
        let f ← Eval.expression (m.locals g.chunk.locals) callee
        let vs ← Eval.arguments (m.locals g.chunk.locals) args
        EvalM.call f vs) fun _ m' => m.Agrees g.top m' ∧ g.top ≤ m'.stack.size := by
  obtain ⟨hlt, is, hgrows, hyield⟩ := call_prepares hcallee hargs hg h
  refine ⟨_, hgrows, fun c m hc hm hfree => ?_⟩
  have hmeets := (Eval.expression_meets (m.locals g.chunk.locals) callee).bind fun f =>
    (Eval.arguments_meets (m.locals g.chunk.locals) args).bind fun vs => .pure (f, vs)
  have hcall (p : Value × List Value) (m₁ : Machine) (h : (m.Agrees g.top m₁ ∧ p.2.length = args.length ∧
      m₁.Holds g.top (p.1 :: p.2)) ∧ m₁.natives = m.natives) :
      Yields c [callOf g.top args.length] m₁ (EvalM.call p.1 p.2) fun _ m' =>
        m.Agrees g.top m' ∧ g.top ≤ m'.stack.size := by
    obtain ⟨⟨hagree, hlen, hholds⟩, hnatives⟩ := h
    have hfree₁ : m₁.PlaceFree := by
      rw [Machine.PlaceFree, hnatives]
      exact hfree
    have hsize := hholds.size_le
    have hle : g.top ≤ m₁.stack.size := by omega
    rw [← hlen] at hlt ⊢
    refine (yields_call hfree₁ (by omega) (by omega) hholds).mono fun _ m' hext => ?_
    exact ⟨hagree.trans (hext.agrees.mono hle), Nat.le_trans hle hext.size_le⟩
  simpa only [bind_assoc, pure_bind] using ((hyield c m hc hm).keeps hmeets).bind hcall

/-- Executing the code of a statement is evaluating it. -/
theorem statement_yields {s : Stat} {u : Unit} (hs : s.Whole) (hg : Clear g)
    (h : (statement s).run g = .ok (u, g')) :
    ∃ is, Follows g is (settle g') ∧ ∀ c m, Covers c (settle g') → g.top ≤ m.stack.size → m.PlaceFree →
      Yields c is m (Eval.statement (m.locals g.chunk.locals) s) fun locals m' =>
        locals = m'.locals (settle g').chunk.locals ∧ (settle g').top ≤ m'.stack.size := by
  have henacts (h : Enacts g (Eval.statement · s) (settle g')) := h.imp fun is h =>
    And.intro h.1 fun c m hc hm (_ : m.PlaceFree) => h.2 c m hc hm
  cases s with
  | declare name init => exact henacts (declare_enacts hs hg h)
  | assign target value => exact henacts (assign_enacts hs.1 hs.2.1 hs.2.2 hg h)
  | construct e =>
      cases e with
      | table opened fs => exact henacts (construct_enacts hs hg h)
      | literal | minus | var | paren | field | index | fault | faultAfter => exact hs.elim
  | stop e => exact hs.elim
  | call callee args end_ =>
      obtain ⟨hcallee, hargs, rfl⟩ := hs
      obtain ⟨is, hgrows, hyield⟩ := call_yields hcallee hargs hg h
      refine ⟨is, hgrows.follows hg, fun c m hc hm hfree => ?_⟩
      simpa only [bind_assoc, Eval.statement] using hgrows.yields_kept hg (hyield c m hc hm hfree)

/-- Executing the code of a program is evaluating it. -/
theorem block_yields {b : Block} {u : Unit} (hb : ∀ s ∈ b, s.Whole) (hg : Clear g)
    (h : (block b).run g = .ok (u, g')) :
    ∃ is, Follows g is g' ∧ ∀ c m, Covers c g' → g.top ≤ m.stack.size → m.PlaceFree →
      Yields c is m (Eval.block (m.locals g.chunk.locals) b) fun _ _ => True := by
  induction b generalizing g with
  | nil =>
      obtain ⟨-, rfl⟩ := run_pure_ok.mp h
      exact ⟨[], ⟨by simp, fun _ _ hk => hk, hg⟩, fun c m hc hm hfree => .pure trivial⟩
  | cons s b ih =>
      obtain ⟨hs, hb⟩ := List.forall_mem_cons.mp hb
      obtain ⟨g₁, hstat, hrest⟩ := block_cons_ok h
      obtain ⟨is, hfollows, hyield⟩ := statement_yields hs hg hstat
      obtain ⟨is', hfollows', hyield'⟩ := ih hb hfollows.clear hrest
      refine ⟨is ++ is', hfollows.trans hfollows', fun c m hc hm hfree => ?_⟩
      have hc₁ : Covers c (settle g₁) := fun k v hk => hc k v (hfollows'.constants k v hk)
      refine ((hyield c m hc₁ hm hfree).keeps (Eval.statement_meets _ s)).bind ?_
      rintro _ m₁ ⟨⟨rfl, hsize⟩, hnatives⟩
      refine hyield' c m₁ hc hsize ?_
      rw [Machine.PlaceFree, hnatives]
      exact hfree

end Gen

theorem Gen.clear_start (name : Bytes) : Gen.Clear { chunk := { name }, top := 0 } := by
  refine ⟨⟨Nat.le_refl _, Nat.zero_le _, fun i l hl => ?_, Nat.zero_le _⟩, rfl⟩
  cases hl

/-- Executing a chunk has the outcome of evaluating the program, and leaves the same output, globals and tables. -/
theorem execute_eq_evaluate {source name : Bytes} {c : Chunk} (h : Chunk.compile source name = .ok c) {m : Machine}
    (hm : ∀ native ∈ m.natives, native.body.PlaceFree) :
    ((m.execute c).1, (m.execute c).2.world) =
      (Block.ofTokens (Scanner.ofSource source none).tokens.1).evaluate m.world := by
  obtain ⟨hwhole, g, hrun, rfl⟩ := Chunk.compile_ok h
  obtain ⟨is, hfollows, hyield⟩ := Gen.block_yields hwhole (Gen.clear_start name) hrun
  obtain rfl : g.chunk.code.toList = is := hfollows.code
  unfold Machine.execute Block.evaluate
  cases hyield g.chunk { m with stack := #[] } (fun _ _ hk => hk) (Nat.zero_le _) hm with
  | ok hs hx => rw [hs, show (Eval.block [] _).run m.world = _ from hx]
  | fault hs hx => rw [hs, show (Eval.block [] _).run m.world = _ from hx]

theorem execute_eq_evaluate_print :
    let source := Text.utf8 "local t = {1, x = 2} t[3] = t.x print(t[3], t.x.y)"
    let m := Machine.start {} []
    ∃ c, Chunk.compile source [] = .ok c ∧ ((m.execute c).1, (m.execute c).2.world) =
      (Block.ofTokens (Scanner.ofSource source none).tokens.1).evaluate m.world := by
  intro source m
  have hok : (Chunk.compile source []).isOk = true := by decide +kernel
  cases h : Chunk.compile source [] with
  | error f =>
      rw [h] at hok
      cases hok
  | ok c =>
      refine ⟨c, rfl, execute_eq_evaluate h fun native hn => ?_⟩
      obtain rfl : native = Print.native := by simpa using show native ∈ #[Print.native] from hn
      exact Print.native_placeFree

end MiniLua

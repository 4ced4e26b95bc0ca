import MiniLua.Proofs.Compile.Programs

/-!
Safety of generated code, whatever the natives do. At every statement the stack reaches at least to the top that the
generator counted with, so no slot or constant is missing; what is left are the faults of the program itself.
-/

namespace MiniLua

open ExecM

/-- The faults of the program and of the natives it calls. -/
inductive Fault.Expected (natives : Array Native) : Fault → Prop
  | ofEntry {f : Fault} (h : f.OfEntry) : Expected natives f
  | notCallable {kind : Kind} (h : kind ≠ .function) : Expected natives (.runtime (.notCallable kind))
  | ofNative {f : Fault} {native : Native} (hn : native ∈ natives) (h : native.body.EndsIn f) : Expected natives f

/-- The code runs to its end, where `Q` holds, or to a fault that is to be expected. -/
inductive Safe (c : Chunk) (is : List Instruction) (m : Machine) (Q : Machine → Prop) : Prop
  | ok {m' : Machine} (hs : (steps c is).run m = (.ok (), m')) (hn : m'.natives = m.natives) (hQ : Q m') : Safe c is m Q
  | fault {m' : Machine} {f : Fault} (hs : (steps c is).run m = (.error f, m')) (hf : f.Expected m.natives) : Safe c is m Q

section

variable {c : Chunk} {is js : List Instruction} {m : Machine} {Q R : Machine → Prop}

theorem Safe.mono (h : Safe c is m Q) (hQ : ∀ m', Q m' → R m') : Safe c is m R := by
  cases h with
  | ok hs hn h => exact .ok hs hn (hQ _ h)
  | fault hs hf => exact .fault hs hf

theorem Safe.append (h : Safe c is m Q) (h' : ∀ m', Q m' → Safe c js m' R) : Safe c (is ++ js) m R := by
  cases h with
  | fault hs hf => exact .fault (steps_append_error hs) hf
  | ok hs hn hQ =>
      cases h' _ hQ with
      | ok hs' hn' hR => exact .ok ((steps_append_ok hs).trans hs') (hn'.trans hn) hR
      | fault hs' hf =>
          rw [hn] at hf
          exact .fault ((steps_append_ok hs).trans hs') hf

/-- Code that agrees with an evaluation is as safe as the evaluation. -/
theorem Yields.safe {α : Type} {x : EvalM α} {Q : α → Machine → Prop} (h : Yields c is m x Q)
    (hx : x.Meets Fault.OfEntry) : Safe c is m fun m' => ∃ a, Q a m' := by
  cases h with
  | ok hs hr hQ => exact .ok hs (hx.run_ok hr) ⟨_, hQ⟩
  | fault hs hr => exact .fault hs (.ofEntry (hx.run_error hr))

theorem safe_call {fn n : Nat} {v : Value} (hfn : fn < 256) (hv : m.stack[fn]? = some v) :
    Safe c [Gen.callOf fn n] m fun m' => m.Extends m' := by
  rw [← toNat_toUInt8 hfn] at hv
  have hs : (steps c [Gen.callOf fn n]).run m = (call fn.toUInt8 n.toUInt8.toNat).run m := by
    rw [steps_singleton]
    simp only [Gen.callOf, step, Instruction.opcode?, Opcode.ofCode?_code]
  rcases hr : (call fn.toUInt8 n.toUInt8.toNat).run m with ⟨f | u, m'⟩
  · obtain ⟨-, hf⟩ := call_extends hv hr
    refine .fault (hs.trans hr) ?_
    rcases hf f rfl with ⟨hkind, rfl⟩ | ⟨native, hn, he⟩
    · exact .notCallable hkind
    · exact .ofNative hn he
  · obtain ⟨hext, -⟩ := call_extends hv hr
    exact .ok (hs.trans hr) hext.natives hext

end

namespace Gen

variable {g g' : Gen}

theorem Enacts.safe {x : Locals → EvalM Locals} (h : Enacts g x g') (hx : ∀ locals, (x locals).Meets Fault.OfEntry) :
    ∃ is, Follows g is g' ∧ ∀ c m, Covers c g' → g.top ≤ m.stack.size →
      Safe c is m fun m' => g'.top ≤ m'.stack.size := by
  obtain ⟨is, hfollows, hyield⟩ := h
  refine ⟨is, hfollows, fun c m hc hm => ((hyield c m hc hm).safe (hx _)).mono ?_⟩
  rintro m' ⟨locals, -, hsize⟩
  exact hsize

theorem call_safe {callee : Exp} {args : List Exp} {u : Unit} (hcallee : callee.Whole) (hargs : ∀ e ∈ args, e.Whole)
    (hg : Clear g) (h : (statement (.call callee args none)).run g = .ok (u, g')) :
    ∃ is, Follows g is (settle g') ∧ ∀ c m, Covers c (settle g') → g.top ≤ m.stack.size →
      Safe c is m fun m' => (settle g').top ≤ m'.stack.size := by
  obtain ⟨hlt, is, hgrows, hyield⟩ := call_prepares hcallee hargs hg h
  refine ⟨_, hgrows.follows hg, fun c m hc hm => ?_⟩
  have hmeets := (Eval.expression_meets (m.locals g.chunk.locals) callee).bind fun f =>
    (Eval.arguments_meets (m.locals g.chunk.locals) args).bind fun vs => .pure (f, vs)
  refine ((hyield c m hc hm).safe hmeets).append ?_
  rintro m₁ ⟨p, hagree, -, hholds⟩
  have hsize := hholds.size_le
  refine (safe_call (by omega) hholds.head).mono fun m' hext => ?_
  have hle : g.top ≤ m₁.stack.size := by omega
  exact (hgrows.kept hg (hagree.trans (hext.agrees.mono hle)) (Nat.le_trans hle hext.size_le)).2

/-- The code of a statement is safe, and leaves the stack as high as the next statement needs it. -/
theorem statement_safe {s : Stat} {u : Unit} (hs : s.Whole) (hg : Clear g) (h : (statement s).run g = .ok (u, g')) :
    ∃ is, Follows g is (settle g') ∧ ∀ c m, Covers c (settle g') → g.top ≤ m.stack.size →
      Safe c is m fun m' => (settle g').top ≤ m'.stack.size := by
  cases s with
  | declare name init => exact (declare_enacts hs hg h).safe fun locals => Eval.declare_meets locals name init
  | assign target value =>
      exact (assign_enacts hs.1 hs.2.1 hs.2.2 hg h).safe fun locals => Eval.assign_meets locals target value
  | construct e =>
      cases e with
      | table opened fs => exact (construct_enacts hs hg h).safe fun locals => Eval.construct_meets locals _
      | literal | minus | var | paren | field | index | fault | faultAfter => exact hs.elim
  | stop e => exact hs.elim
  | call callee args end_ =>
      obtain ⟨hcallee, hargs, rfl⟩ := hs
      exact call_safe hcallee hargs hg h

theorem block_safe {b : Block} {u : Unit} (hb : ∀ s ∈ b, s.Whole) (hg : Clear g)
    (h : (block b).run g = .ok (u, g')) :
    ∃ is, Follows g is g' ∧ ∀ c m, Covers c g' → g.top ≤ m.stack.size → Safe c is m fun _ => True := by
  induction b generalizing g with
  | nil =>
      obtain ⟨-, rfl⟩ := run_pure_ok.mp h
      exact ⟨[], ⟨by simp, fun _ _ hk => hk, hg⟩, fun c m hc hm => .ok rfl rfl trivial⟩
  | cons s b ih =>
      obtain ⟨hs, hb⟩ := List.forall_mem_cons.mp hb
      obtain ⟨g₁, hstat, hrest⟩ := block_cons_ok h
      obtain ⟨is, hfollows, hsafe⟩ := statement_safe hs hg hstat
      obtain ⟨is', hfollows', hsafe'⟩ := ih hb hfollows.clear hrest
      refine ⟨is ++ is', hfollows.trans hfollows', fun c m hc hm => ?_⟩
      have hc₁ : Covers c (settle g₁) := fun k v hk => hc k v (hfollows'.constants k v hk)
      exact (hsafe c m hc₁ hm).append fun m₁ hsize => hsafe' c m₁ hc hsize

end Gen

theorem Act.EndsIn.cases_on_fault {α : Type} {a : Act α} {f : Fault} (h : a.EndsIn f) :
    (∃ report, f = .raised report) ∨ ∃ misuse, f = .misuse misuse := by
  induction h with
  | raise report => exact .inl ⟨report, rfl⟩
  | misuse fault => exact .inr ⟨fault, rfl⟩
  | callSlot _ ih | argCount _ ih | arg _ ih | stackSize _ ih | push _ ih | getGlobal _ ih | setGlobal _ ih | write _ ih
  | inspect _ ih => exact ih

/-- A run of compiled code ends early only for indexing what is no table, calling what is no function, a nil or NaN key,
or a native that raises an error or misuses the machine. -/
theorem execute_fault {source name : Bytes} {c : Chunk} (h : Chunk.compile source name = .ok c) {m : Machine} {f : Fault}
    (hf : (m.execute c).1 = some f) :
    (∃ kind, kind ≠ .table ∧ f = .runtime (.notIndexable kind)) ∨
      (∃ kind, kind ≠ .function ∧ f = .runtime (.notCallable kind)) ∨ (∃ key, f = .runtime (.badKey key)) ∨
      ∃ native ∈ m.natives, native.body.EndsIn f ∧ ((∃ report, f = .raised report) ∨ ∃ misuse, f = .misuse misuse) := by
  obtain ⟨hwhole, g, hrun, rfl⟩ := Chunk.compile_ok h
  obtain ⟨is, hfollows, hsafe⟩ := Gen.block_safe hwhole (Gen.clear_start name) hrun
  obtain rfl : g.chunk.code.toList = is := hfollows.code
  unfold Machine.execute at hf
  cases hsafe g.chunk { m with stack := #[] } (fun _ _ hk => hk) (Nat.zero_le _) with
  | ok hs =>
      rw [hs] at hf
      cases hf
  | fault hs hexpected =>
      rw [hs] at hf
      obtain rfl := Option.some.inj hf
      cases hexpected with
      | ofEntry hentry =>
          cases hentry with
          | notIndexable hkind => exact .inl ⟨_, hkind, rfl⟩
          | badKey key => exact .inr (.inr (.inl ⟨key, rfl⟩))
      | notCallable hkind => exact .inr (.inl ⟨_, hkind, rfl⟩)
      | ofNative hn he => exact .inr (.inr (.inr ⟨_, hn, he, he.cases_on_fault⟩))

/-- A native that asks for its place on the stack and pushes it there. -/
def whereAmI : Native := ⟨Text.utf8 "f", .callSlot fun n => .push (.int (.ofNat n)) (.done 1)⟩

theorem execute_fault_nil_key :
    let source := Text.utf8 "local t = {1, {2}} f(t) t[t.x] = t"
    let m := Machine.register {} whereAmI
    let f : Fault := .runtime (.badKey .nil)
    ∃ c, Chunk.compile source [] = .ok c ∧ (m.execute c).1 = some f ∧
      ((∃ kind, kind ≠ .table ∧ f = .runtime (.notIndexable kind)) ∨
        (∃ kind, kind ≠ .function ∧ f = .runtime (.notCallable kind)) ∨ (∃ key, f = .runtime (.badKey key)) ∨
        ∃ native ∈ m.natives, native.body.EndsIn f ∧
          ((∃ report, f = .raised report) ∨ ∃ misuse, f = .misuse misuse)) := by
  intro source m f
  have hrun : (Chunk.compile source []).toOption.bind (fun c => (m.execute c).1) = some f := by decide +kernel
  cases h : Chunk.compile source [] with
  | error e =>
      rw [h] at hrun
      cases hrun
  | ok c =>
      rw [h] at hrun
      exact ⟨c, rfl, hrun, execute_fault h hrun⟩

end MiniLua

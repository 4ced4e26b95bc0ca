import MiniLua.Proofs.Compile.Programs
import MiniLua.Proofs.Table.Invariant
import MiniLua.Proofs.Table.Placement

/-!
Table constructors. Nothing that the entries of a constructor evaluate can reach the table that is being built, so the
finished table is what the changes of its entries make of an empty one.
-/

namespace MiniLua

/-- The table `id` of a world is `t`. -/
def World.Has (id : Nat) (t : Table) (w : World) : Prop := w.tables[id]? = some t

theorem World.Has.getD_eq {id : Nat} {t : Table} {w : World} (h : w.Has id t) : w.tables.getD id .empty = t := by
  rw [Array.getD_eq_getD_getElem?, h, Option.getD_some]

theorem Table.set_ok {byteHash : Bytes → UInt64} {t t' : Table} {k v : Value} (h : t.set byteHash k v = .ok t') :
    (k.isNil = false ∧ k.isNaN = false) ∧ t' = t.put byteHash k v := by
  rcases checkKey_cases k with ⟨-, hk⟩ | hf
  · have hop : (Op.set k v).Proper := hk
    exact ⟨hk, (Except.ok.inj ((apply_eq t hop).symm.trans h)).symm⟩
  · cases (set_of_checkKey_error hf t v).symm.trans h

namespace EvalM

variable {α β : Type}

/-- An evaluation that starts in a world with `P` and ends well, ends with `Q`. -/
def Ensures (P : World → Prop) (x : EvalM α) (Q : α → World → Prop) : Prop :=
  ∀ w a w', P w → x.run w = (.ok a, w') → Q a w'

/-- The table `j` is left alone. -/
def Spares (j : Nat) (x : EvalM α) : Prop := ∀ t, Ensures (World.Has j t) x fun _ => World.Has j t

namespace Ensures

variable {P : World → Prop} {x : EvalM α} {Q : α → World → Prop}

theorem pure {a : α} (h : ∀ w, P w → Q a w) : Ensures P (Pure.pure a) Q := by
  intro w _ _ hP hr
  cases hr
  exact h w hP

theorem throw (f : Fault) : Ensures P (MonadExcept.throw f : EvalM α) Q := by
  intro w _ _ hP hr
  cases hr

theorem bind {f : α → EvalM β} {R : β → World → Prop} (hx : Ensures P x Q) (hf : ∀ a, Ensures (Q a) (f a) R) :
    Ensures P (x >>= f) R := by
  intro w b w' hP hr
  rw [run_bind] at hr
  rcases hx' : x.run w with ⟨e | a, w₁⟩
  · rw [hx'] at hr
    cases hr
  · rw [hx'] at hr
    exact hf a w₁ b w' (hx w a w₁ hP hx') hr

end Ensures

namespace Spares

variable {j : Nat} {x : EvalM α}

theorem pure (a : α) : Spares j (Pure.pure a) := fun _ => .pure fun _ h => h

theorem throw (f : Fault) : Spares j (MonadExcept.throw f : EvalM α) := fun _ => .throw f

theorem bind {f : α → EvalM β} (hx : Spares j x) (hf : ∀ a, Spares j (f a)) : Spares j (x >>= f) :=
  fun t => (hx t).bind fun a => hf a t

theorem get_bind {f : World → EvalM β} (hf : ∀ w, Spares j (f w)) : Spares j (get >>= f) :=
  fun t w b w' hP hr => hf w t w b w' hP hr

theorem getGlobal (name : Bytes) : Spares j (getGlobal name) := .get_bind fun _ => .pure _

theorem index (t key : Value) : Spares j (index t key) := by
  cases t with
  | table id => exact .get_bind fun _ => .pure _
  | nil | bool | int | float | native | str => exact .throw _

theorem setTable {id : Nat} (hne : id ≠ j) (t : Table) : Spares j (setTable id t) := by
  intro t' w _ w' hP hr
  cases hr
  change (w.tables.setIfInBounds id t)[j]? = some t'
  rw [Array.getElem?_setIfInBounds_ne hne]
  exact hP

theorem append {id : Nat} (hne : id ≠ j) (vs : List Value) : Spares j (append id vs) :=
  .get_bind fun _ => .setTable hne _

theorem store {id : Nat} (hne : id ≠ j) (k v : Value) : Spares j (store (.table id) k v) := by
  refine .get_bind fun w => ?_
  split
  · exact .setTable hne _
  · exact .throw _

end Spares

/-- A new table is none of those that were there before. -/
theorem newTable_fresh (j : Nat) (t : Table) :
    Ensures (World.Has j t) newTable fun id w => id ≠ j ∧ World.Has j t w := by
  intro w id w' hP hr
  cases hr
  have hlt : j < w.tables.size := (Array.getElem?_eq_some_iff.mp hP).1
  refine ⟨Nat.ne_of_gt hlt, ?_⟩
  change (w.tables.push .empty)[j]? = some t
  rw [Array.getElem?_push_lt hlt, ← Array.getElem?_eq_getElem hlt]
  exact hP

theorem setTable_has (id : Nat) (t t' : Table) :
    Ensures (World.Has id t) (setTable id t') fun _ => World.Has id t' := by
  intro w _ w' hP hr
  cases hr
  exact Array.getElem?_setIfInBounds_self_of_lt (Array.getElem?_eq_some_iff.mp hP).1

theorem append_has (id : Nat) (t : Table) (vs : List Value) :
    Ensures (World.Has id t) (append id vs) fun _ => World.Has id (t.append byteHash vs) := by
  intro w a w' hP hr
  have hset := setTable_has id t ((w.tables.getD id .empty).append byteHash vs) w a w' hP hr
  rwa [hP.getD_eq] at hset

theorem store_has (id : Nat) (t : Table) (k v : Value) :
    Ensures (World.Has id t) (store (.table id) k v) fun _ w =>
      (k.isNil = false ∧ k.isNaN = false) ∧ World.Has id (t.put byteHash k v) w := by
  intro w a w' hP hr
  have hrun := store_run (.table id) k v w.machine
  have htable : w.machine.table id = t := hP.getD_eq
  rw [show w.machine.world = w from rfl, hr] at hrun
  simp only [Machine.stored, htable] at hrun
  cases hset : t.set byteHash k v with
  | error fault =>
      rw [hset] at hrun
      cases hrun
  | ok t' =>
      rw [hset] at hrun
      cases hrun
      obtain ⟨hproper, rfl⟩ := Table.set_ok hset
      exact ⟨hproper, setTable_has id t _ w () _ hP rfl⟩

end EvalM

namespace Eval

open EvalM

theorem lookup_spares (j : Nat) (locals : Locals) (name : Bytes) : Spares j (lookup locals name) := by
  unfold lookup
  split
  · exact .pure _
  · exact .getGlobal name

mutual

/-- An expression changes no table that was there before. -/
theorem expression_spares (j : Nat) (locals : Locals) (e : Exp) : Spares j (expression locals e) := by
  cases e with
  | literal | fault => exact .pure _
  | var name => exact lookup_spares j locals name.text
  | table opened fs =>
      intro t
      refine (newTable_fresh j t).bind fun id w v w' hP => ?_
      refine (fields_spares hP.1 locals [] fs).bind ?_ t w v w' hP.2
      intro waiting
      dsimp only
      split
      · exact .pure _
      · exact (Spares.append hP.1 waiting).bind fun _ => .pure _
  | minus pos operand => exact (expression_spares j locals operand).bind fun _ => .pure _
  | paren e _ | faultAfter e _ => exact expression_spares j locals e
  | field base dot name => exact (expression_spares j locals base).bind fun t => .index t _
  | index base opened key closed =>
      exact (expression_spares j locals base).bind fun t => (expression_spares j locals key).bind fun k => .index t k

theorem fields_spares {j id : Nat} (hne : id ≠ j) (locals : Locals) (waiting : List Value) (fs : Fields) :
    Spares j (fields locals id waiting fs) := by
  cases fs with
  | done closed => exact .pure _
  | stop e => exact (expression_spares j locals e).bind fun _ => .pure _
  | positional e rest =>
      refine (expression_spares j locals e).bind fun v => ?_
      split
      · exact (Spares.append hne _).bind fun _ => fields_spares hne locals [] rest
      · exact fields_spares hne locals _ rest
  | named name assign value rest =>
      exact (expression_spares j locals value).bind fun v => (Spares.store hne _ v).bind fun _ =>
        fields_spares hne locals waiting rest
  | keyed opened key assign value rest =>
      exact (expression_spares j locals key).bind fun k => (expression_spares j locals value).bind fun v =>
        (Spares.store hne k v).bind fun _ => fields_spares hne locals waiting rest

end

/-- Moves the values that wait in the end. -/
def moveRest (id : Nat) (waiting : List Value) : EvalM Unit := if waiting.isEmpty then pure () else append id waiting

/-- Stores the entries of the table `id` as `fields` does, and the rest of the values too; gives the entries with what
they evaluate to. -/
def parts (locals : Locals) (id : Nat) (waiting : List Value) : Fields → EvalM (List Part)
  | .done _ => do
    moveRest id waiting
    return []
  | .stop e => do
    let _ ← expression locals e
    moveRest id waiting
    return []
  | .positional e rest => do
    let v ← expression locals e
    if waiting.length + 1 = 50 then
      append id (waiting ++ [v])
      return .positional v :: (← parts locals id [] rest)
    else return .positional v :: (← parts locals id (waiting ++ [v]) rest)
  | .named name _ value rest => do
    let v ← expression locals value
    store (.table id) (.ofBytes name.text) v
    return .keyed (.ofBytes name.text) v :: (← parts locals id waiting rest)
  | .keyed _ key _ value rest => do
    let k ← expression locals key
    let v ← expression locals value
    store (.table id) k v
    return .keyed k v :: (← parts locals id waiting rest)

theorem fields_moveRest (locals : Locals) (id : Nat) (waiting : List Value) (fs : Fields) :
    fields locals id waiting fs >>= moveRest id = parts locals id waiting fs >>= fun _ => pure () := by
  cases fs with
  | done closed => simp only [fields, parts, bind_assoc, pure_bind, bind_pure_unit]
  | stop e => simp only [fields, parts, bind_assoc, pure_bind, bind_pure_unit]
  | positional e rest =>
      simp only [fields, parts, bind_assoc]
      by_cases hfull : waiting.length + 1 = 50
      · simp only [if_pos hfull, bind_assoc, pure_bind, fields_moveRest locals id [] rest]
      · simp only [if_neg hfull, bind_assoc, pure_bind, fields_moveRest locals id _ rest]
  | named name assign value rest =>
      simp only [fields, parts, bind_assoc, pure_bind, fields_moveRest locals id waiting rest]
  | keyed opened key assign value rest =>
      simp only [fields, parts, bind_assoc, pure_bind, fields_moveRest locals id waiting rest]

theorem expression_table (locals : Locals) (opened : Position) (fs : Fields) :
    expression locals (.table opened fs) = newTable >>= fun id => parts locals id [] fs >>= fun _ => pure (.table id) := by
  rw [Gen.eval_table]
  congr 1
  funext id
  have hrest := congrArg (· >>= fun _ => (pure (.table id) : EvalM Value)) (fields_moveRest locals id [] fs)
  simpa only [bind_assoc, pure_bind, moveRest] using hrest

/-- The table `id`, which was `t`, has got these entries behind the values that waited, and none has a key that is nil
or NaN. -/
def Built (id : Nat) (t : Table) (waiting : List Value) (ps : List Part) (w : World) : Prop :=
  (∀ e ∈ Part.entries ps, e.key.isNil = false ∧ e.key.isNaN = false) ∧
    w.Has id ((Part.changes waiting ps).foldl (Table.after byteHash) t)

theorem moveRest_builds (id : Nat) (waiting : List Value) (t : Table) :
    Ensures (World.Has id t) (do moveRest id waiting; return []) (Built id t waiting) := by
  by_cases hnone : waiting.isEmpty = true
  · simp only [moveRest, if_pos hnone, pure_bind]
    refine .pure fun w hw => ⟨List.forall_mem_nil _, ?_⟩
    rw [Part.changes, if_pos hnone]
    exact hw
  · simp only [moveRest, if_neg hnone]
    refine (append_has id t waiting).bind fun _ => .pure fun w hw => ⟨List.forall_mem_nil _, ?_⟩
    rw [Part.changes, if_neg hnone]
    exact hw

theorem keyed_builds {id : Nat} {waiting : List Value} {x : EvalM (List Part)}
    (hx : ∀ t, Ensures (World.Has id t) x (Built id t waiting)) (k v : Value) (t : Table) :
    Ensures (World.Has id t) (do store (.table id) k v; return .keyed k v :: (← x)) (Built id t waiting) := by
  refine (store_has id t k v).bind fun _ w ps w' hw hr => ?_
  refine (hx _).bind (fun ps => .pure ?_) w ps w' hw.2 hr
  rintro w ⟨hproper, hhas⟩
  exact ⟨List.forall_mem_cons.mpr ⟨hw.1, hproper⟩, hhas⟩

/-- The entries change their table one after the other, and nothing else does. -/
theorem parts_builds (locals : Locals) (id : Nat) (waiting : List Value) (fs : Fields) (t : Table) :
    Ensures (World.Has id t) (parts locals id waiting fs) (Built id t waiting) := by
  cases fs with
  | done closed => exact moveRest_builds id waiting t
  | stop e => exact (expression_spares id locals e t).bind fun _ => moveRest_builds id waiting t
  | positional e rest =>
      refine (expression_spares id locals e t).bind fun v => ?_
      by_cases hfull : waiting.length + 1 = 50
      · simp only [if_pos hfull]
        refine (append_has id t _).bind fun _ => (parts_builds locals id [] rest _).bind fun ps => .pure ?_
        rintro w ⟨hproper, hhas⟩
        refine ⟨hproper, ?_⟩
        rw [Part.changes, if_pos hfull]
        exact hhas
      · simp only [if_neg hfull]
        refine (parts_builds locals id _ rest t).bind fun ps => .pure ?_
        rintro w ⟨hproper, hhas⟩
        refine ⟨hproper, ?_⟩
        rw [Part.changes, if_neg hfull]
        exact hhas
  | named name assign value rest =>
      exact (expression_spares id locals value t).bind fun v => keyed_builds (parts_builds locals id waiting rest) _ v t
  | keyed opened key assign value rest =>
      exact (expression_spares id locals key t).bind fun k => (expression_spares id locals value t).bind fun v =>
        keyed_builds (parts_builds locals id waiting rest) k v t

/-- The entries of a constructor with what they evaluate to, while a new table is built from them. -/
def listed (locals : Locals) (fs : Fields) : EvalM (List Part) := newTable >>= fun id => parts locals id [] fs

/-- A constructor gives a new table, which is what the changes of the entries make of an empty one. -/
theorem table_built {locals : Locals} {opened : Position} {fs : Fields} {w w' : World} {v : Value}
    (h : (expression locals (.table opened fs)).run w = (.ok v, w')) :
    v = .table w.tables.size ∧ ∃ ps, (listed locals fs).run w = (.ok ps, w') ∧
      Built w.tables.size .empty [] ps w' := by
  have hnew : newTable.run w = (.ok w.tables.size, { w with tables := w.tables.push .empty }) := rfl
  have hfresh : World.Has w.tables.size .empty { w with tables := w.tables.push .empty } := Array.getElem?_push_size
  rw [expression_table, run_bind_ok hnew, run_bind] at h
  rw [listed, run_bind_ok hnew]
  rcases hparts : (parts locals w.tables.size [] fs).run { w with tables := w.tables.push .empty } with ⟨f | ps, w₁⟩
  · rw [hparts] at h
    cases h
  · rw [hparts] at h
    cases h
    exact ⟨rfl, ps, rfl, parts_builds locals _ [] fs .empty _ _ _ hfresh hparts⟩

end Eval

namespace Gen

/-- The code of a constructor leaves a new table in the next slot. Each group of values without a key is moved to the
indices that it has in the list, and the finished table has these values and the entries with a key and nothing else,
exactly when no key that is stored before a group is moved is the first index of that group. -/
theorem table_keeps_iff {g g' : Gen} {op : Operand} {opened : Position} {fs : Fields} (hfs : fs.Whole) (hg : Ready g)
    (h : (expression (.table opened fs)).run g = .ok (op, g')) :
    op = .slot g.top ∧ ∃ is, Grows g is g' ∧ ∀ c m m', Covers c g' → g.top ≤ m.stack.size →
      (ExecM.steps c is).run m = (.ok (), m') →
        m'.stack[g.top]? = some (.table m.tables.size) ∧ ∃ ps,
          (Eval.listed (m.locals g.chunk.locals) fs).run m.world = (.ok ps, m'.world) ∧
          let t := m'.table m.tables.size
          t = (Part.changes [] ps).foldl (Table.after byteHash) .empty ∧ (t.Fits →
            (∀ k, t.get byteHash k = Dict.get k t.entries) ∧
            ((Table.empty.InPlace byteHash 0 (Part.changes [] ps) ∧
                Dict.Keeps (Part.values ps) (Part.entries ps) t.entries) ↔
              Part.Clear (Part.values ps).length 0 ps)) := by
  obtain ⟨hop, hput⟩ := table_puts (fieldsImplement fs hfs) hg h
  obtain ⟨is, hgrows, hyields⟩ := hput.code
  refine ⟨hop, is, hgrows, fun c m m' hc hm hrun => ?_⟩
  cases hyields c m hc hm with
  | fault hs hx => cases hs.symm.trans hrun
  | ok hs hx hQ =>
      cases hs.symm.trans hrun
      obtain ⟨rfl, ps, hparts, hproper, hhas⟩ := Eval.table_built hx
      have ht : m'.table m.tables.size = (Part.changes [] ps).foldl (Table.after byteHash) .empty := hhas.getD_eq
      refine ⟨hQ.2, ps, hparts, ht, fun hfit => ?_⟩
      rw [ht] at hfit ⊢
      have href := Table.Refines.foldl (Part.changes_proper hproper) (fun _ => .empty) hfit
      exact ⟨Table.get_eq (href.loose hfit) (Nat.le_of_lt hfit), Part.keeps_iff_clear hproper hfit⟩

/-- A key past the end of the values and a name disturb nothing. -/
theorem table_keeps_iff_pastEnd :
    let at_ : Position := default
    let number (i : Int64) : Exp := .literal (.int i) at_
    let x := Text.utf8 "x"
    let fs : Fields := .positional (number 10) (.keyed at_ (number 3) at_ (number 30)
      (.positional (number 20) (.named ⟨x, at_⟩ at_ (number 5) (.done at_))))
    ∃ op g' m', (expression (.table at_ fs)).run { chunk := { name := [] }, top := 0 } = .ok (op, g') ∧
      (ExecM.steps g'.chunk g'.chunk.code.toList).run {} = (.ok (), m') ∧ m'.stack[0]? = some (.table 0) ∧
        Dict.Keeps [.int 10, .int 20] [⟨.int 3, .int 30⟩, ⟨.ofBytes x, .int 5⟩] (m'.table 0).entries := by
  intro at_ number x fs
  let g : Gen := { chunk := { name := [] }, top := 0 }
  let ps : List Part := [.positional (.int 10), .keyed (.int 3) (.int 30), .positional (.int 20),
    .keyed (.ofBytes x) (.int 5)]
  have hfs : fs.Whole := ⟨trivial, trivial, trivial, trivial, trivial, trivial⟩
  have hg : Ready g := (clear_start []).1
  have hrun : ((expression (.table at_ fs)).run g).toOption.any (fun r =>
      ((ExecM.steps r.2.chunk r.2.chunk.code.toList).run {}).1.isOk) = true := by decide +kernel
  have hlisted : ((Eval.listed [] fs).run (Machine.world {})).1.toOption = some ps := by decide +kernel
  have hclear : Part.Clear 2 0 ps := by
    have hthree : Part.Free 2 (1 / 50) (.int 3) := fun q _ hq hkey => by
      obtain rfl : q = 0 := by omega
      cases hkey
    have hname : Part.Free 2 (2 / 50) (.ofBytes x) := fun _ _ _ hkey => by cases hkey
    exact ⟨hthree, hname, trivial⟩
  cases h : (expression (.table at_ fs)).run g with
  | error f =>
      rw [h] at hrun
      cases hrun
  | ok r =>
      obtain ⟨op, g'⟩ := r
      obtain ⟨-, is, hgrows, hcode⟩ := table_keeps_iff hfs hg h
      obtain rfl : g'.chunk.code.toList = is := hgrows.code
      rw [h] at hrun
      rcases hsteps : (ExecM.steps g'.chunk g'.chunk.code.toList).run {} with ⟨f | _, m'⟩
      · simp only [Except.toOption, Option.any_some, hsteps] at hrun
        cases hrun
      · obtain ⟨hslot, ps', hlisted', ht, hkeeps⟩ := hcode g'.chunk {} m' (fun _ _ hk => hk) (Nat.zero_le _) hsteps
        obtain rfl : ps' = ps := by
          rw [show (Eval.listed [] fs).run _ = _ from hlisted'] at hlisted
          exact Option.some.inj hlisted
        have hfit : (m'.table 0).Fits := by
          rw [show m'.table 0 = _ from ht]
          decide +kernel
        exact ⟨op, g', m', rfl, hsteps, hslot, ((hkeeps hfit).2.mpr hclear).2⟩

/-- A key that comes before its group and is the group's first index: the value goes behind it. -/
theorem table_displaced :
    let source := Text.utf8 "t = {[1] = 10, 20}"
    let ps : List Part := [.keyed (.int 1) (.int 10), .positional (.int 20)]
    ∃ c, Chunk.compile source [] = .ok c ∧ (Machine.execute {} c).1 = none ∧
      let m := (Machine.execute {} c).2
      m.getGlobal (Text.utf8 "t") = .table 0 ∧ (m.table 0).array = #[.int 10, .int 20] ∧
        ¬Dict.Keeps (Part.values ps) (Part.entries ps) (m.table 0).entries := by
  intro source ps
  have hrun : ∃ c ∈ (Chunk.compile source []).toOption, (Machine.execute {} c).1 = none ∧
      (Machine.execute {} c).2.getGlobal (Text.utf8 "t") = .table 0 ∧
      ((Machine.execute {} c).2.table 0).array = #[.int 10, .int 20] ∧
      Dict.hasKey ((Machine.execute {} c).2.table 0).entries (.int 2) = true := by
    decide +kernel
  obtain ⟨c, hc, hend, hglobal, harray, hkey⟩ := hrun
  refine ⟨c, ?_, hend, hglobal, harray, fun hkeeps => ?_⟩
  · cases hcompile : Chunk.compile source [] with
    | error f =>
        rw [hcompile] at hc
        cases hc
    | ok c' =>
        rw [hcompile] at hc
        cases hc
        rfl
  · exact absurd ((hkeeps.keys (.int 2)).mp hkey) (by decide +kernel)

end Gen

end MiniLua

import MiniLua.Proofs.Compile.Programs
import MiniLua.Proofs.Tree.Reports

/-!
What the generator reports: a fault of the tree, or one of its own at a place that the tree keeps.
-/

namespace MiniLua

variable {P : SourceFault → Prop}

namespace Gen

variable {α β : Type}

/-- All faults have `P`. -/
def Faults (P : SourceFault → Prop) (x : GenM α) : Prop := ∀ g f, x.run g = .error f → P f

namespace Faults

theorem of_ok {x : GenM α} {r : Gen → α × Gen} (h : ∀ g, x.run g = .ok (r g)) : Faults P x := by
  intro g f hf
  rw [h] at hf
  cases hf

theorem pure (a : α) : Faults P (Pure.pure a : GenM α) := of_ok fun _ => rfl

/-- What follows may rely on what a first part that does not fail has shown. -/
theorem bind_of {x : GenM α} {k : α → GenM β} {R : Prop} (hx : Faults P x) (hR : ∀ g r, x.run g = .ok r → R)
    (hk : R → ∀ a, Faults P (k a)) : Faults P (x >>= k) := by
  intro g f h
  change (x.run g >>= fun p => (k p.1).run p.2) = .error f at h
  cases hr : x.run g with
  | error f' =>
      rw [hr] at h
      obtain rfl := Except.error.inj h
      exact hx g f' hr
  | ok p =>
      rw [hr] at h
      exact hk (hR g p hr) p.1 p.2 f h

theorem bind {x : GenM α} {k : α → GenM β} (hx : Faults P x) (hk : ∀ a, Faults P (k a)) : Faults P (x >>= k) :=
  hx.bind_of (fun _ _ _ => trivial) fun _ => hk

theorem get_bind {k : Gen → GenM α} (hk : ∀ g, Faults P (k g)) : Faults P (get >>= k) := fun g f h => hk g g f h

theorem modify (u : Gen → Gen) : Faults P (modify u : GenM Unit) := of_ok fun _ => rfl

theorem set (g : Gen) : Faults P (MonadStateOf.set g : GenM Unit) := of_ok fun _ => rfl

theorem throw {f : SourceFault} (h : P f) : Faults P (MonadExcept.throw f : GenM α) := by
  intro g f' hf
  obtain rfl := Except.error.inj hf
  exact h

theorem fail {cause : Cause} {pos : Position} (h : pos.Reports P) (hc : cause.stage = .compile) :
    Faults P (fail cause pos : GenM α) := throw (h cause hc)

end Faults

section

variable {pos : Position} (hpos : pos.Reports P)

include hpos

theorem constant_faults (v : Value) : Faults P (constant v pos) := by
  refine .get_bind fun g => ?_
  split
  · exact .bind (.set _) fun _ => .pure _
  · exact .fail hpos rfl

theorem allocate_faults : Faults P (allocate pos) := by
  refine .get_bind fun g => ?_
  split
  · exact .bind (.set _) fun _ => .pure _
  · exact .fail hpos rfl

theorem discharge_faults (e : Operand) (dst : Nat) : Faults P (discharge e dst pos) := by
  refine .get_bind fun g => ?_
  split
  · exact .set _
  · exact .fail hpos rfl

omit hpos in
theorem releaseOperand_faults (e : Operand) : Faults P (releaseOperand e) := by
  cases e with
  | slot | field | element => exact .modify _
  | index => exact .bind (.modify _) fun _ => .modify _
  | _ => exact .pure _

theorem dischargeNext_faults (e : Operand) : Faults P (dischargeNext e pos) :=
  .bind (releaseOperand_faults e) fun _ => .bind (allocate_faults hpos) fun dst =>
    .bind (discharge_faults hpos e dst) fun _ => .pure dst

theorem dischargeTop_faults (e : Operand) : Faults P (dischargeTop e pos) := by
  unfold dischargeTop
  split
  · exact .pure _
  · exact .bind (dischargeNext_faults hpos e) fun _ => .pure _

theorem constantOrSlot_faults (e : Operand) : Faults P (constantOrSlot e pos) := by
  unfold constantOrSlot
  split
  · exact .bind (constant_faults hpos _) fun _ => .pure _
  · exact .bind (dischargeTop_faults hpos e) fun _ => .pure _

theorem indexBy_faults (slot : Int) (key : Operand) : Faults P (indexBy slot key pos) := by
  have hindex (key : Operand) : Faults P (return .index slot (← dischargeTop key pos) : GenM Operand) :=
    .bind (dischargeTop_faults hpos key) fun _ => .pure _
  unfold indexBy
  split
  · exact .bind (constant_faults hpos _) fun _ => .pure _
  · split
    · exact .pure _
    · exact hindex _
  · exact hindex key

theorem checkKey_faults (key : Operand) : Faults P (checkKey key pos) := by
  unfold checkKey
  split
  · exact .fail hpos rfl
  · split
    · exact .fail hpos rfl
    · exact .pure _
  · exact .pure _

end

theorem resolve_faults {name : Name} (h : name.pos.Reports P) : Faults P (resolve name) := by
  refine .get_bind fun g => ?_
  split
  · exact .pure _
  · exact .bind (constant_faults h _) fun _ => .pure _

theorem store_faults (target : Operand) (value : UInt8) (isConst : Bool) : Faults P (store target value isConst) := by
  cases target with
  | field | element | index => exact .modify _
  | _ => exact .pure _

theorem storeEntry_faults {value : GenM Operand} {entry assign last : Position} (table : Nat) (key : Operand)
    (hentry : entry.Reports P) (hassign : assign.Reports P) (hvalue : Faults P value)
    (hlast : ∀ g r, value.run g = .ok r → last.Reports P) (base : Nat) :
    Faults P (storeEntry table key entry assign value last base) :=
  .bind (checkKey_faults hentry key) fun _ => .bind (indexBy_faults hassign _ key) fun target =>
    hvalue.bind_of hlast fun hlast op => .bind (constantOrSlot_faults hlast op) fun _ =>
      .bind (store_faults target _ _) fun _ => .modify _

theorem flush_faults (table pending : Nat) : Faults P (flush table pending) := .bind (.modify _) fun _ => .modify _

/-- Where the code of an expression is complete, its last place is one of a token. -/
theorem last_reports {e : Exp} (he : e.Reports P) (g : Gen) (r : Operand × Gen) (h : (expression e).run g = .ok r) :
    e.last.Reports P := he.last (not_broken_of_expression h)

mutual

theorem expression_faults {e : Exp} (he : e.Reports P) : Faults P (expression e) := by
  cases e with
  | literal l pos => exact .pure _
  | table opened fs =>
      refine .bind (allocate_faults he.1) fun table => .get_bind fun g => .bind (.modify _) fun _ => ?_
      refine .bind (fields_faults he.2 table {}) fun tally => ?_
      by_cases hp : 0 < tally.pending
      · simp only [if_pos hp]
        exact .bind (flush_faults table _) fun _ => .bind (.modify _) fun _ => .pure _
      · simp only [if_neg hp]
        exact .bind (.modify _) fun _ => .pure _
  | minus pos operand => exact .bind (expression_faults (e := operand) he) fun _ => .pure _
  | var name => exact resolve_faults he
  | paren inner closed => exact expression_faults (e := inner) he.1
  | field base dot name =>
      exact .bind (expression_faults he.1) fun op => .bind (dischargeTop_faults he.2.1 op) fun _ =>
        .bind (constant_faults he.2.2 _) fun _ => .pure _
  | index base opened key closed =>
      -- The place reported is that of the key's last token, which only a key without a fault has.
      exact .bind (expression_faults he.1) fun op => .bind (dischargeTop_faults he.2.1 op) fun slot =>
        (expression_faults he.2.2.1).bind_of (last_reports he.2.2.1) fun hlast k => indexBy_faults hlast slot k
  | fault f => exact .throw he
  | faultAfter e f => exact .bind (expression_faults he.1) fun _ => .throw he.2

theorem fields_faults {fs : Fields} (hfs : fs.Reports P) (table : Nat) (tally : Tally) :
    Faults P (fields table tally fs) := by
  cases fs with
  | done closed => exact .pure _
  | stop e => exact .bind (expression_faults (e := e) hfs) fun _ => .pure _
  | positional e rest =>
      refine (expression_faults hfs.1).bind_of (last_reports hfs.1) fun hlast op => ?_
      refine .bind (dischargeNext_faults hlast op) fun _ => ?_
      dsimp only
      split
      · exact .bind (flush_faults table _) fun _ => fields_faults hfs.2 table _
      · exact fields_faults hfs.2 table _
  | named name assign value rest =>
      obtain ⟨hname, hassign, hvalue, hrest⟩ := hfs
      refine .get_bind fun g => .bind ?_ fun _ => fields_faults hrest table _
      exact storeEntry_faults table _ hname hassign (expression_faults hvalue) (last_reports hvalue) _
  | keyed opened key assign value rest =>
      obtain ⟨hopened, hkey, hassign, hvalue, hrest⟩ := hfs
      refine .get_bind fun g => .bind (expression_faults hkey) fun k => .bind ?_ fun _ => fields_faults hrest table _
      exact storeEntry_faults table k hopened hassign (expression_faults hvalue) (last_reports hvalue) _

end

theorem assign_faults {pos : Position} (hpos : pos.Reports P) (target e : Operand) :
    Faults P (assign target e pos) := by
  unfold assign
  split
  · exact discharge_faults hpos e _
  · unfold assignGlobal
    split
    · exact .modify _
    · exact .bind (constantOrSlot_faults hpos e) fun _ => .modify _
  · exact .bind (constantOrSlot_faults hpos e) fun _ => store_faults target _ _

theorem declare_faults {name : Name} {init : Option Exp} (hname : name.pos.Reports P)
    (hinit : ∀ e ∈ init, e.Reports P) : Faults P (declare name init) := by
  have hlimit {c : Prop} [Decidable c] {k : Unit → GenM Unit} (hk : ∀ u, Faults P (k u)) :
      Faults P (if c then fail .tooManyLocals name.pos >>= k else k ()) := by
    split
    · exact .bind (.fail hname rfl) hk
    · exact hk ()
  refine .bind (.get_bind fun _ => .pure _) fun slot => hlimit fun _ => ?_
  cases init with
  | none => exact .bind (.modify _) fun _ => .modify _
  | some e =>
      have he := hinit e rfl
      exact (expression_faults he).bind_of (last_reports he) fun hlast op =>
        .bind (discharge_faults hlast op slot) fun _ => .modify _

theorem arguments_faults {es : List Exp} (hes : ∀ e ∈ es, e.Reports P) : Faults P (arguments es) := by
  induction es with
  | nil => exact .pure _
  | cons e es ih =>
      obtain ⟨he, hes⟩ := List.forall_mem_cons.mp hes
      exact (expression_faults he).bind_of (last_reports he) fun hlast op =>
        .bind (dischargeNext_faults hlast op) fun _ => ih hes

theorem statement_faults {s : Stat} (hs : s.Reports P) : Faults P (statement s) := by
  cases s with
  | declare name init => exact declare_faults hs.1 hs.2
  | assign target value =>
      exact .bind (expression_faults hs.1) fun t => (expression_faults hs.2).bind_of (last_reports hs.2) fun hlast op =>
        assign_faults hlast t op
  | call callee args stop =>
      obtain ⟨hcallee, hargs, hstop⟩ := hs
      refine (expression_faults hcallee).bind_of (last_reports hcallee) fun hlast op => ?_
      refine .bind (dischargeNext_faults hlast op) fun _ => .bind (arguments_faults hargs) fun _ => ?_
      cases stop with
      | none => exact .modify _
      | some f => exact .throw (hstop f rfl)
  | construct e | stop e => exact .bind (expression_faults (e := e) hs) fun _ => .pure _

theorem block_reports {b : Block} (hb : ∀ s ∈ b, s.Reports P) : Faults P (block b) := by
  induction b with
  | nil => exact .pure _
  | cons s b ih =>
      obtain ⟨hs, hb⟩ := List.forall_mem_cons.mp hb
      exact .bind (statement_faults hs) fun _ => .bind (.get_bind fun _ => .pure _) fun _ =>
        .bind (.modify _) fun _ => ih hb

end Gen

end MiniLua

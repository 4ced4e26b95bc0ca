import MiniLua.Proofs.Grammar.Soundness

/-!
What may be reported of a tree. The parser takes all places and faults of its trees from the tokens that it looks at,
and it looks at no token behind the last one.
-/

namespace MiniLua

section

variable (P : SourceFault → Prop)

/-- What the generator itself finds wrong at this place has `P`. -/
def Position.Reports (pos : Position) : Prop := ∀ cause : Cause, cause.stage = .compile → P ⟨cause, pos⟩

mutual

/-- The faults of the tree have `P`, and so has what is found wrong at its places. -/
def Exp.Reports : Exp → Prop
  | .literal _ pos => pos.Reports P
  | .table opened fields => opened.Reports P ∧ fields.Reports
  | .minus _ operand => operand.Reports
  | .var name => name.pos.Reports P
  | .paren inner closed => inner.Reports ∧ closed.Reports P
  | .field base dot name => base.Reports ∧ dot.Reports P ∧ name.pos.Reports P
  | .index base opened key closed => base.Reports ∧ opened.Reports P ∧ key.Reports ∧ closed.Reports P
  | .fault f => P f
  | .faultAfter e f => e.Reports ∧ P f

def Fields.Reports : Fields → Prop
  | .done closed => closed.Reports P
  | .stop e => e.Reports
  | .positional e rest => e.Reports ∧ rest.Reports
  | .named name assign value rest => name.pos.Reports P ∧ assign.Reports P ∧ value.Reports ∧ rest.Reports
  | .keyed opened key assign value rest =>
    opened.Reports P ∧ key.Reports ∧ assign.Reports P ∧ value.Reports ∧ rest.Reports

end

def Stat.Reports : Stat → Prop
  | .declare name init => name.pos.Reports P ∧ ∀ e ∈ init, e.Reports P
  | .assign target value => target.Reports P ∧ value.Reports P
  | .call callee args end_ => callee.Reports P ∧ (∀ e ∈ args, e.Reports P) ∧ ∀ f ∈ end_, P f
  | .construct e | .stop e => e.Reports P

end

variable {P : SourceFault → Prop}

mutual

theorem Exp.Reports.last {e : Exp} (h : e.Reports P) (he : ¬ e.Broken) : e.last.Reports P := by
  cases e with
  | literal | var => exact h
  | table opened fields => exact Fields.Reports.last h.2 he
  | minus pos operand => exact Exp.Reports.last (e := operand) h he
  | paren inner closed => exact h.2
  | field base dot name => exact h.2.2
  | index base opened key closed => exact h.2.2.2
  | fault | faultAfter => exact absurd trivial he

theorem Fields.Reports.last {fs : Fields} (h : fs.Reports P) (hfs : ¬ fs.Broken) : fs.last.Reports P := by
  cases fs with
  | done closed => exact h
  | stop e => exact Exp.Reports.last (e := e) h hfs
  | positional e rest =>
      obtain ⟨-, hrest⟩ := h
      exact hrest.last (not_or.mp hfs).2
  | named name assign value rest =>
      obtain ⟨-, -, -, hrest⟩ := h
      exact hrest.last (not_or.mp hfs).2
  | keyed opened key assign value rest =>
      obtain ⟨-, -, -, -, hrest⟩ := h
      exact hrest.last (not_or.mp (not_or.mp hfs).2).2

end

section

variable (hpos : ∀ pos : Position, pos.Reports P)

include hpos

mutual

theorem Exp.Whole.reports {e : Exp} (h : e.Whole) : e.Reports P := by
  cases e with
  | literal | var => exact hpos _
  | table opened fields =>
      have hfields : fields.Whole := h
      exact ⟨hpos _, hfields.reports⟩
  | minus pos operand => exact Exp.Whole.reports (e := operand) h.2
  | paren inner closed => exact ⟨Exp.Whole.reports (e := inner) h, hpos _⟩
  | field base dot name => exact ⟨Exp.Whole.reports (e := base) h, hpos _, hpos _⟩
  | index base opened key closed =>
      exact ⟨Exp.Whole.reports (e := base) h.1, hpos _, Exp.Whole.reports (e := key) h.2, hpos _⟩
  | fault | faultAfter => exact h.elim

theorem Fields.Whole.reports {fs : Fields} (h : fs.Whole) : fs.Reports P := by
  cases fs with
  | done closed => exact hpos _
  | stop e => exact h.elim
  | positional e rest =>
      obtain ⟨he, hrest⟩ := h
      exact ⟨he.reports, hrest.reports⟩
  | named name assign value rest =>
      obtain ⟨hvalue, hrest⟩ := h
      exact ⟨hpos _, hpos _, hvalue.reports, hrest.reports⟩
  | keyed opened key assign value rest =>
      obtain ⟨hkey, hvalue, hrest⟩ := h
      exact ⟨hpos _, hkey.reports, hpos _, hvalue.reports, hrest.reports⟩

end

theorem Stat.Whole.reports {s : Stat} (h : s.Whole) : s.Reports P := by
  cases s with
  | declare name init => exact ⟨hpos _, fun e he => (h e he).reports hpos⟩
  | assign target value => exact ⟨h.2.1.reports hpos, h.2.2.reports hpos⟩
  | call callee args end_ =>
      obtain ⟨hcallee, hargs, rfl⟩ := h
      exact ⟨hcallee.reports hpos, fun e he => (hargs e he).reports hpos, fun f hf => absurd hf (Option.not_mem_none f)⟩
  | construct e =>
      cases e with
      | table opened fields =>
          have hfields : fields.Whole := h
          exact ⟨hpos _, hfields.reports hpos⟩
      | literal | minus | var | paren | field | index | fault | faultAfter => exact h.elim
  | stop e => exact h.elim

end

/-- Whether a fault of this kind is found at this lexeme. -/
def Cause.Blames : Cause → Lexeme → Prop
  | .scan cause, l => l = .fault cause
  | .expected _ found, l | .unexpected found, l => l = found ∧ ∀ cause, found ≠ .fault cause
  | _, l => l.isLast = false

def SourceFault.PointsTo (f : SourceFault) (t : Token) : Prop := f.pos = t.pos ∧ f.cause.Blames t.lexeme

/-- The fault is found at one of these tokens. -/
def SourceFault.Among (Q : Token → Prop) (f : SourceFault) : Prop := ∃ t, Q t ∧ f.PointsTo t

namespace Parsed

variable {α β : Type}

/-- All trees have `P`, and the tokens behind one that is done have `R`. -/
def All (P : α → Prop) (R : List Token → Prop) : Parsed α → Prop
  | done a rest => P a ∧ R rest
  | stopped a => P a

variable {P : α → Prop} {P' : β → Prop} {R : List Token → Prop} {p : Parsed α}

theorem All.map {f : α → β} (h : p.All P R) (hf : ∀ a, P a → P' (f a)) : (p.map f).All P' R := by
  cases p with
  | done a rest => exact ⟨hf a h.1, h.2⟩
  | stopped a => exact hf a h

theorem All.andThen {wrap : α → β} {next : α → List Token → Parsed β} (h : p.All P R) (hwrap : ∀ a, P a → P' (wrap a))
    (hnext : ∀ a rest, P a → R rest → (next a rest).All P' R) : (p.andThen wrap next).All P' R := by
  cases p with
  | done a rest => exact hnext a rest h.1 h.2
  | stopped a => exact hwrap a h

end Parsed

namespace Parser

variable {Q : Token → Prop} {ts : List Token}

theorem mismatch_pointsTo (what : Expectation) (t : Token) : (mismatch what t).PointsTo t := by
  unfold mismatch
  split
  · next cause hl => exact ⟨rfl, hl⟩
  · next hl => exact ⟨rfl, rfl, hl⟩

theorem surprise_pointsTo (t : Token) : (surprise t).PointsTo t := by
  unfold surprise
  split
  · next cause hl => exact ⟨rfl, hl⟩
  · next hl => exact ⟨rfl, rfl, hl⟩

/-- The tokens up to a last one have `Q`. -/
inductive Ends (Q : Token → Prop) : List Token → Prop
  | last {t : Token} {ts : List Token} (ht : Q t) (hl : t.lexeme.isLast = true) : Ends Q (t :: ts)
  | cons {t : Token} {ts : List Token} (ht : Q t) (hts : Ends Q ts) : Ends Q (t :: ts)

namespace Ends

theorem append {us : List Token} (hus : ∀ t ∈ us, Q t) (h : Ends Q ts) : Ends Q (us ++ ts) := by
  induction us with
  | nil => exact h
  | cons t us ih =>
      obtain ⟨ht, hus⟩ := List.forall_mem_cons.mp hus
      exact .cons ht (ih hus)

theorem head (h : Ends Q ts) : Q (head ts) := by
  cases h with
  | last ht hl => exact ht
  | cons ht hts => exact ht

theorem mismatch (h : Ends Q ts) (what : Expectation) : (mismatch what (Parser.head ts)).Among Q :=
  ⟨_, h.head, mismatch_pointsTo what _⟩

theorem surprise (h : Ends Q ts) : (surprise (Parser.head ts)).Among Q := ⟨_, h.head, surprise_pointsTo _⟩

variable {l : Lexeme}

theorem tail (h : Ends Q ts) (hs : (Parser.head ts).lexeme = l) (hl : l.isLast = false) : Ends Q ts.tail := by
  cases h with
  | last ht hlast => cases (hs ▸ hl).symm.trans hlast
  | cons ht hts => exact hts

theorem pos (h : Ends Q ts) (hs : (Parser.head ts).lexeme = l) (hl : l.isLast = false) :
    (Parser.head ts).pos.Reports (SourceFault.Among Q) := by
  intro cause hcause
  refine ⟨_, h.head, rfl, ?_⟩
  cases cause with
  | scan | expected | unexpected | minusOperand | callAsValue => cases hcause
  | tooManyConstants | tooManySlots | tooManyLocals | badKey => exact hs ▸ hl

theorem expect_ok (h : Ends Q ts) {s : Symbol} {pos : Position} (hs : expect s ts = .ok pos) :
    pos.Reports (SourceFault.Among Q) ∧ Ends Q ts.tail := by
  unfold expect at hs
  split at hs
  · next hl =>
    obtain rfl := Except.ok.inj hs
    exact ⟨h.pos hl rfl, h.tail hl rfl⟩
  · cases hs

theorem expect_error (h : Ends Q ts) {s : Symbol} {f : SourceFault} (hs : expect s ts = .error f) : f.Among Q := by
  unfold expect at hs
  split at hs
  · cases hs
  · obtain rfl := Except.error.inj hs
    exact h.mismatch _

theorem expectName_ok (h : Ends Q ts) {name : Name} (hs : expectName ts = .ok name) :
    name.pos.Reports (SourceFault.Among Q) ∧ Ends Q ts.tail := by
  unfold expectName at hs
  split at hs
  · next hl =>
    obtain rfl := Except.ok.inj hs
    exact ⟨h.pos hl rfl, h.tail hl rfl⟩
  · cases hs

theorem expectName_error (h : Ends Q ts) {f : SourceFault} (hs : expectName ts = .error f) : f.Among Q := by
  unfold expectName at hs
  split at hs
  · cases hs
  · obtain rfl := Except.error.inj hs
    exact h.mismatch _

theorem asValue (h : Ends Q ts) {start : Position} {e : Exp} (hstart : SourceFault.Among Q ⟨.callAsValue, start⟩)
    (he : e.Reports (SourceFault.Among Q)) : (asValue start e ts).All (Exp.Reports (SourceFault.Among Q)) (Ends Q) := by
  unfold Parser.asValue
  split
  · exact ⟨he, hstart⟩
  · exact ⟨he, h⟩

end Ends

open SourceFault (Among)

mutual

theorem expression_reports (fuel : Nat) {ts : List Token} (h : Ends Q ts) :
    (expression fuel ts).All (Exp.Reports (Among Q)) (Ends Q) := by
  cases fuel with
  | zero => exact h.surprise
  | succ fuel =>
      rw [expression]
      split
      case h_1 hs | h_2 hs | h_3 hs | h_4 hs | h_5 hs | h_6 hs => exact ⟨h.pos hs rfl, h.tail hs rfl⟩
      case h_7 hs => exact (fields_reports fuel (h.tail hs rfl)).map fun fs hfs => ⟨h.pos hs rfl, hfs⟩
      case h_8 hs =>
        refine (expression_reports fuel (h.tail hs rfl)).andThen (fun e he => he) fun e r he hr => ?_
        split
        · exact ⟨he, hr⟩
        · exact ⟨he, _, h.head, rfl, hs ▸ rfl⟩
      case h_9 text hs =>
        have hvar : (Exp.var ⟨text, (head ts).pos⟩).Reports (Among Q) := h.pos hs rfl
        refine (suffixes_reports fuel (h.tail hs rfl) hvar).andThen (fun e he => he) fun e r he hr => ?_
        exact hr.asValue ⟨_, h.head, rfl, hs ▸ rfl⟩ he
      case h_10 hs =>
        refine (expression_reports fuel (h.tail hs rfl)).andThen (fun e he => he) fun e r he hr => ?_
        split
        · next closed hclosed =>
          obtain ⟨hpos, htail⟩ := hr.expect_ok hclosed
          refine (suffixes_reports fuel htail (e := .paren e closed) ⟨he, hpos⟩).andThen (fun e he => he) ?_
          intro e' r' he' hr'
          exact hr'.asValue ⟨_, h.head, rfl, hs ▸ rfl⟩ he'
        · next hf => exact ⟨he, hr.expect_error hf⟩
      case h_11 => exact h.surprise

theorem suffixes_reports (fuel : Nat) {ts : List Token} (h : Ends Q ts) {e : Exp} (he : e.Reports (Among Q)) :
    (suffixes fuel e ts).All (Exp.Reports (Among Q)) (Ends Q) := by
  cases fuel with
  | zero => exact ⟨he, h.surprise⟩
  | succ fuel =>
      rw [suffixes]
      split
      case h_1 hs =>
        have hdot := h.pos hs rfl
        split
        · next name hname =>
          obtain ⟨hpos, htail⟩ := (h.tail hs rfl).expectName_ok hname
          exact suffixes_reports fuel htail (e := .field e _ name) ⟨he, hdot, hpos⟩
        -- The tree ends in the fault of the missing name, with the dot as the last place it keeps.
        · next hf => exact ⟨he, hdot, (h.tail hs rfl).expectName_error hf, hdot⟩
      case h_2 hs =>
        have hopened := h.pos hs rfl
        refine (expression_reports fuel (h.tail hs rfl)).andThen (fun key hkey => ⟨he, hopened, hkey, hopened⟩) ?_
        intro key r hkey hr
        split
        · next closed hclosed =>
          obtain ⟨hpos, htail⟩ := hr.expect_ok hclosed
          exact suffixes_reports fuel htail (e := .index e _ key closed) ⟨he, hopened, hkey, hpos⟩
        · next hf => exact ⟨⟨he, hopened, hkey, hopened⟩, hr.expect_error hf⟩
      case h_3 => exact ⟨he, h.surprise⟩
      case h_4 => exact ⟨he, h⟩

theorem fields_reports (fuel : Nat) {ts : List Token} (h : Ends Q ts) :
    (fields fuel ts).All (Fields.Reports (Among Q)) (Ends Q) := by
  cases fuel with
  | zero => exact h.surprise
  | succ fuel =>
      rw [fields]
      split
      case h_1 hs => exact ⟨h.pos hs rfl, h.tail hs rfl⟩
      case h_2 hs =>
        have hopened := h.pos hs rfl
        refine (expression_reports fuel (h.tail hs rfl)).andThen (fun key hkey => hkey) fun key r hkey hr => ?_
        split
        · next hf => exact ⟨hkey, hr.expect_error hf⟩
        · next hclosed hf => exact ⟨hkey, (hr.expect_ok hclosed).2.expect_error hf⟩
        · next hclosed hs' =>
          obtain ⟨hassign, htail⟩ := (hr.expect_ok hclosed).2.expect_ok hs'
          refine (expression_reports fuel htail).andThen
            (fun value hvalue => ⟨hopened, hkey, hassign, hvalue, hassign⟩) fun value r' hvalue hr' => ?_
          exact (separated_reports fuel hr').map fun fs hfs => ⟨hopened, hkey, hassign, hvalue, hfs⟩
      case h_3 hs _ => exact (h.tail hs rfl).surprise
      case h_4 text hs hs' =>
        have hname := h.pos hs rfl
        have hassign := (h.tail hs rfl).pos hs' rfl
        refine (expression_reports fuel ((h.tail hs rfl).tail hs' rfl)).andThen
          (fun value hvalue => ⟨hname, hassign, hvalue, hname⟩) fun value r hvalue hr => ?_
        exact (separated_reports fuel hr).map fun fs hfs => ⟨hname, hassign, hvalue, hfs⟩
      case h_5 => exact h.surprise
      case h_6 =>
        refine (expression_reports fuel h).andThen (fun e he => he) fun e r he hr => ?_
        exact (separated_reports fuel hr).map fun fs hfs => ⟨he, hfs⟩

theorem separated_reports (fuel : Nat) {ts : List Token} (h : Ends Q ts) :
    (separated fuel ts).All (Fields.Reports (Among Q)) (Ends Q) := by
  cases fuel with
  | zero => exact h.surprise
  | succ fuel =>
      rw [separated]
      split
      case h_1 hs | h_2 hs => exact fields_reports fuel (h.tail hs rfl)
      case h_3 hs => exact ⟨h.pos hs rfl, h.tail hs rfl⟩
      case h_4 => exact h.mismatch _

end

/-- Arguments and the fault behind them. -/
def ReportsArguments (P : SourceFault → Prop) (p : List Exp × Option SourceFault) : Prop :=
  (∀ e ∈ p.1, e.Reports P) ∧ ∀ f ∈ p.2, P f

theorem reportsArguments_of_none {P : SourceFault → Prop} {es : List Exp} (h : ∀ e ∈ es, e.Reports P) :
    ReportsArguments P (es, none) := ⟨h, fun f hf => absurd hf (Option.not_mem_none f)⟩

theorem reportsArguments_of_some {P : SourceFault → Prop} {es : List Exp} {f : SourceFault}
    (h : ∀ e ∈ es, e.Reports P) (hf : P f) : ReportsArguments P (es, some f) :=
  ⟨h, fun _ hf' => Option.mem_some.mp hf' ▸ hf⟩

theorem arguments_reports (fuel : Nat) (h : Ends Q ts) :
    (arguments fuel ts).All (ReportsArguments (Among Q)) (Ends Q) := by
  induction fuel generalizing ts with
  | zero => exact reportsArguments_of_some (List.forall_mem_nil _) h.surprise
  | succ fuel ih =>
      have hone {e : Exp} (he : e.Reports (Among Q)) : ∀ e' ∈ [e], e'.Reports (Among Q) :=
        List.forall_mem_singleton.mpr he
      rw [arguments]
      refine (expression_reports _ h).andThen (fun e he => reportsArguments_of_none (hone he)) fun e r he hr => ?_
      split
      · next hs => exact (ih (hr.tail hs rfl)).map fun p hp => ⟨List.forall_mem_cons.mpr ⟨he, hp.1⟩, hp.2⟩
      · next hs => exact ⟨reportsArguments_of_none (hone he), hr.tail hs rfl⟩
      · exact reportsArguments_of_some (hone he) (hr.mismatch _)

theorem callArguments_reports (h : Ends Q ts) (hcall : startsCall ts = true) :
    (callArguments ts).All (ReportsArguments (Among Q)) (Ends Q) := by
  rcases startsCall_cases hcall with ⟨content, hs⟩ | hs | hs
  all_goals
    have hpos := h.pos hs rfl
    have htail := h.tail hs rfl
    simp only [callArguments, hs]
  · exact ⟨reportsArguments_of_none (List.forall_mem_singleton.mpr hpos), htail⟩
  · refine (fields_reports _ htail).map fun fs hfs => reportsArguments_of_none (List.forall_mem_singleton.mpr ?_)
    exact ⟨hpos, hfs⟩
  · split
    case h_3 hp _ _ => exact ⟨reportsArguments_of_none (List.forall_mem_nil _), htail.tail hp rfl⟩
    case h_4 => exact reportsArguments_of_some (List.forall_mem_nil _) htail.surprise
    case h_5 => exact arguments_reports _ htail
    all_goals contradiction

theorem nameStatement_reports (h : Ends Q ts) {name : Name} (hname : name.pos.Reports (Among Q)) :
    (nameStatement name ts).All (Stat.Reports (Among Q)) (Ends Q) := by
  refine (suffixes_reports _ h (e := .var name) hname).andThen (fun e he => he) fun e r he hr => ?_
  split
  · next hcall => exact (callArguments_reports hr hcall).map fun p hp => ⟨he, hp⟩
  · split
    · next hs => exact (expression_reports _ (hr.tail hs rfl)).map fun value hvalue => ⟨he, hvalue⟩
    · exact ⟨he, hr.surprise⟩

theorem declaration_reports (h : Ends Q ts) : (declaration ts).All (Stat.Reports (Among Q)) (Ends Q) := by
  have hone {e : Exp} (he : e.Reports (Among Q)) : ∀ e' ∈ some e, e'.Reports (Among Q) :=
    fun _ he' => Option.mem_some.mp he' ▸ he
  unfold declaration
  split
  · next hf => exact h.expectName_error hf
  · next name hs =>
    obtain ⟨hname, htail⟩ := h.expectName_ok hs
    split
    · next hs' => exact (expression_reports _ (htail.tail hs' rfl)).map fun e he => ⟨hname, hone he⟩
    · exact ⟨hname, hone htail.surprise⟩
    · exact ⟨⟨hname, fun e he => absurd he (Option.not_mem_none e)⟩, htail⟩

/-- Whatever is reported of a program is found at one of its tokens, up to the last one. -/
theorem block_blames (fuel : Nat) (h : Ends Q ts) : ∀ s ∈ block fuel ts, s.Reports (Among Q) := by
  induction fuel generalizing ts with
  | zero => exact List.forall_mem_singleton.mpr h.surprise
  | succ fuel ih =>
      have hstat {p : Parsed Stat} (hp : p.All (Stat.Reports (Among Q)) (Ends Q)) :
          ∀ s ∈ goOn (block fuel) p, s.Reports (Among Q) := by
        cases p with
        | done s rest => exact List.forall_mem_cons.mpr ⟨hp.1, ih hp.2⟩
        | stopped s => exact List.forall_mem_singleton.mpr hp
      rw [block]
      split
      case h_1 => exact List.forall_mem_nil _
      case h_2 hs => exact ih (h.tail hs rfl)
      case h_3 hs => exact hstat (declaration_reports (h.tail hs rfl))
      case h_4 hs => exact hstat (nameStatement_reports (h.tail hs rfl) (h.pos hs rfl))
      case h_5 hs => exact hstat ((fields_reports _ (h.tail hs rfl)).map fun fs hfs => ⟨h.pos hs rfl, hfs⟩)
      case h_6 => exact List.forall_mem_singleton.mpr h.surprise

end Parser

end MiniLua

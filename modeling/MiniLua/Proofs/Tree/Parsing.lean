import MiniLua.Proofs.Tree.Whole
import MiniLua.Tree.Parser

/-!
The trees that the parser builds: whole where it is done, broken where it has stopped.
-/

namespace MiniLua

namespace Parsed

variable {α β : Type}

/-- A tree that is done has `P`, and one in which reading stopped has `Q`. -/
def Splits (P Q : α → Prop) : Parsed α → Prop
  | done a _ => P a
  | stopped a => Q a

variable {P Q : α → Prop} {P' Q' : β → Prop} {p : Parsed α}

theorem Splits.map {f : α → β} (h : p.Splits P Q) (hP : ∀ a, P a → P' (f a)) (hQ : ∀ a, Q a → Q' (f a)) :
    (p.map f).Splits P' Q' := by
  cases p with
  | done a rest => exact hP a h
  | stopped a => exact hQ a h

theorem Splits.andThen {wrap : α → β} {next : α → List Token → Parsed β} (h : p.Splits P Q)
    (hQ : ∀ a, Q a → Q' (wrap a)) (hP : ∀ a rest, P a → (next a rest).Splits P' Q') :
    (p.andThen wrap next).Splits P' Q' := by
  cases p with
  | done a rest => exact hP a rest h
  | stopped a => exact hQ a h

end Parsed

namespace Parser

open Parsed (Splits)

theorem asValue_splits (start : Position) {e : Exp} (ts : List Token) (he : e.Whole) :
    (asValue start e ts).Splits Exp.Whole Exp.Broken := by
  unfold asValue
  split
  · trivial
  · exact he

mutual

theorem expression_splits (fuel : Nat) (ts : List Token) : (expression fuel ts).Splits Exp.Whole Exp.Broken := by
  cases fuel with
  | zero => trivial
  | succ fuel =>
      rw [expression]
      split
      case h_1 | h_2 | h_3 | h_4 | h_5 | h_6 | h_11 => trivial
      case h_7 => exact (fields_splits fuel _).map (fun _ h => h) fun _ h => h
      case h_8 =>
        refine (expression_splits fuel _).andThen (fun _ h => h) fun e r he => ?_
        by_cases hn : e.isNumeral = true
        · rw [if_pos hn]
          exact ⟨hn, he⟩
        · rw [if_neg hn]
          trivial
      case h_9 text _ =>
        exact (suffixes_splits fuel (.var ⟨text, (head ts).pos⟩) _ trivial).andThen (fun _ h => h)
          fun e r he => asValue_splits _ r he
      case h_10 =>
        refine (expression_splits fuel _).andThen (fun _ h => h) fun e r he => ?_
        split
        · next closed _ =>
          exact (suffixes_splits fuel (.paren e closed) _ he).andThen (fun _ h => h) fun e r he => asValue_splits _ r he
        · trivial

theorem suffixes_splits (fuel : Nat) (e : Exp) (ts : List Token) (he : e.Whole) :
    (suffixes fuel e ts).Splits Exp.Whole Exp.Broken := by
  cases fuel with
  | zero => trivial
  | succ fuel =>
      rw [suffixes]
      split
      case h_1 =>
        split
        · exact suffixes_splits fuel _ _ he
        · exact .inr trivial
      case h_2 =>
        refine (expression_splits fuel _).andThen (fun _ h => .inr h) fun key r hk => ?_
        split
        · exact suffixes_splits fuel _ _ ⟨he, hk⟩
        · trivial
      case h_3 => trivial
      case h_4 => exact he

theorem fields_splits (fuel : Nat) (ts : List Token) : (fields fuel ts).Splits Fields.Whole Fields.Broken := by
  cases fuel with
  | zero => trivial
  | succ fuel =>
      rw [fields]
      split
      case h_1 => trivial
      case h_2 =>
        refine (expression_splits fuel _).andThen (fun _ h => h) fun key r hk => ?_
        split
        · trivial
        · trivial
        · refine (expression_splits fuel _).andThen (fun _ h => .inr (.inl h)) fun value r hv => ?_
          exact (separated_splits fuel r).map (fun _ h => ⟨hk, hv, h⟩) fun _ h => .inr (.inr h)
      case h_3 => trivial
      case h_4 =>
        refine (expression_splits fuel _).andThen (fun _ h => .inl h) fun value r hv => ?_
        exact (separated_splits fuel r).map (fun _ h => ⟨hv, h⟩) fun _ h => .inr h
      case h_5 => trivial
      case h_6 =>
        refine (expression_splits fuel _).andThen (fun _ h => h) fun e r he => ?_
        exact (separated_splits fuel r).map (fun _ h => ⟨he, h⟩) fun _ h => .inr h

theorem separated_splits (fuel : Nat) (ts : List Token) : (separated fuel ts).Splits Fields.Whole Fields.Broken := by
  cases fuel with
  | zero => trivial
  | succ fuel =>
      rw [separated]
      split
      · exact fields_splits fuel _
      · exact fields_splits fuel _
      · trivial
      · trivial

end

/-- Suffixes behind a name make a place that can be assigned to. -/
theorem suffixes_isPlace (fuel : Nat) {e : Exp} (ts : List Token) (he : e.isPlace = true) :
    (suffixes fuel e ts).Splits (·.isPlace = true) fun _ => True := by
  induction fuel generalizing e ts with
  | zero => trivial
  | succ fuel ih =>
      rw [suffixes]
      split
      case h_1 =>
        split
        · exact ih _ rfl
        · trivial
      case h_2 =>
        cases expression fuel ts.tail with
        | stopped key => trivial
        | done key r =>
            simp only [Parsed.andThen]
            split
            · exact ih _ rfl
            · trivial
      case h_3 => trivial
      case h_4 => exact he

/-- Whole arguments, and no fault behind them. -/
def WholeArguments (p : List Exp × Option SourceFault) : Prop := (∀ e ∈ p.1, e.Whole) ∧ p.2 = none

def BrokenArguments (p : List Exp × Option SourceFault) : Prop := (∃ e ∈ p.1, e.Broken) ∨ p.2.isSome = true

theorem wholeArguments_cons {e : Exp} {p : List Exp × Option SourceFault} (he : e.Whole) (h : WholeArguments p) :
    WholeArguments (e :: p.1, p.2) := by
  exact ⟨List.forall_mem_cons.mpr ⟨he, h.1⟩, h.2⟩

theorem brokenArguments_cons {e : Exp} {p : List Exp × Option SourceFault} (h : BrokenArguments p) :
    BrokenArguments (e :: p.1, p.2) := by
  rcases h with ⟨e', he', hb⟩ | h
  · exact .inl ⟨e', List.mem_cons_of_mem _ he', hb⟩
  · exact .inr h

theorem wholeArguments_nil : WholeArguments ([], none) := ⟨List.forall_mem_nil _, rfl⟩

theorem brokenArguments_singleton {e : Exp} (he : e.Broken) : BrokenArguments ([e], none) :=
  .inl ⟨e, List.mem_singleton_self e, he⟩

theorem arguments_splits (fuel : Nat) (ts : List Token) :
    (arguments fuel ts).Splits WholeArguments BrokenArguments := by
  induction fuel generalizing ts with
  | zero => exact .inr rfl
  | succ fuel ih =>
      rw [arguments]
      refine (expression_splits _ ts).andThen (fun _ => brokenArguments_singleton) fun e r he => ?_
      split
      · exact (ih _).map (fun _ => wholeArguments_cons he) fun _ => brokenArguments_cons
      · exact wholeArguments_cons he wholeArguments_nil
      · exact .inr rfl

theorem callArguments_splits (ts : List Token) : (callArguments ts).Splits WholeArguments BrokenArguments := by
  unfold callArguments
  dsimp only
  split
  · exact wholeArguments_cons (e := .literal _ _) trivial wholeArguments_nil
  · exact (fields_splits _ _).map (fun fs h => wholeArguments_cons (e := .table _ fs) h wholeArguments_nil)
      fun fs h => brokenArguments_singleton (e := .table _ fs) h
  · exact wholeArguments_nil
  · exact .inr rfl
  · exact arguments_splits _ _

theorem nameStatement_splits (name : Name) (ts : List Token) :
    (nameStatement name ts).Splits Stat.Whole Stat.Broken := by
  unfold nameStatement
  have hsplits := suffixes_splits (depth ts) (.var name) ts trivial
  have hplace := suffixes_isPlace (depth ts) (e := .var name) ts rfl
  cases hs : suffixes (depth ts) (.var name) ts with
  | stopped e =>
      rw [hs] at hsplits
      exact hsplits
  | done e r =>
      rw [hs] at hsplits hplace
      simp only [Parsed.andThen]
      split
      · exact (callArguments_splits r).map (fun _ h => ⟨hsplits, h⟩) fun _ h => .inr h
      · split
        · exact (expression_splits _ _).map (fun _ h => ⟨hplace, hsplits, h⟩) fun _ h => .inr h
        · trivial

theorem declaration_splits (ts : List Token) : (declaration ts).Splits Stat.Whole Stat.Broken := by
  unfold declaration
  split
  · trivial
  · split
    · refine (expression_splits _ _).map (fun e h e' he' => ?_) fun e h => ⟨e, rfl, h⟩
      cases he'
      exact h
    · exact ⟨_, rfl, trivial⟩
    · exact fun e he => by cases he

/-- A statement and those behind it. -/
def goOn (rest : List Token → Block) : Parsed Stat → Block
  | .done s ts => s :: rest ts
  | .stopped s => [s]

theorem goOn_splits {rest : List Token → Block} {p : Parsed Stat} (hp : p.Splits Stat.Whole Stat.Broken)
    (hrest : ∀ ts, (∀ s ∈ rest ts, s.Whole) ∨ ∃ s ∈ rest ts, s.Broken) :
    (∀ s ∈ goOn rest p, s.Whole) ∨ ∃ s ∈ goOn rest p, s.Broken := by
  cases p with
  | stopped s => exact .inr ⟨s, List.mem_singleton_self s, hp⟩
  | done s ts =>
      rcases hrest ts with h | ⟨s', hs', hb⟩
      · exact .inl (List.forall_mem_cons.mpr ⟨hp, h⟩)
      · exact .inr ⟨s', List.mem_cons_of_mem _ hs', hb⟩

/-- A program is whole, or the statement at its end is broken. -/
theorem block_splits (fuel : Nat) (ts : List Token) :
    (∀ s ∈ block fuel ts, s.Whole) ∨ ∃ s ∈ block fuel ts, s.Broken := by
  induction fuel generalizing ts with
  | zero => exact .inr ⟨_, List.mem_singleton_self _, trivial⟩
  | succ fuel ih =>
      rw [block]
      split
      · exact .inl (List.forall_mem_nil _)
      · exact ih _
      · exact goOn_splits (declaration_splits _) ih
      · exact goOn_splits (nameStatement_splits _ _) ih
      · exact goOn_splits ((fields_splits _ _).map (fun _ h => h) fun _ h => h) ih
      · exact .inr ⟨_, List.mem_singleton_self _, trivial⟩

end Parser

end MiniLua

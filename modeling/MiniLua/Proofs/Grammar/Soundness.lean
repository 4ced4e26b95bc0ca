import MiniLua.Proofs.Grammar
import MiniLua.Proofs.Tree.Parsing

/-!
What the parser reads to its end is derived from the grammar.
-/

namespace MiniLua

/-- What holds of a tree that is done and of the tokens behind it. -/
def Parsed.Done {α : Type} (P : α → List Token → Prop) : Parsed α → Prop
  | done a rest => P a rest
  | stopped _ => True

namespace Parsed.Done

variable {α β : Type} {P : α → List Token → Prop} {Q : β → List Token → Prop} {p : Parsed α}

theorem imp {Q : α → List Token → Prop} (h : p.Done P) (hP : ∀ a rest, P a rest → Q a rest) : p.Done Q := by
  cases p with
  | done a rest => exact hP a rest h
  | stopped a => trivial

theorem map {f : α → β} (h : p.Done P) (hP : ∀ a rest, P a rest → Q (f a) rest) : (p.map f).Done Q := by
  cases p with
  | done a rest => exact hP a rest h
  | stopped a => trivial

theorem andThen {wrap : α → β} {next : α → List Token → Parsed β} (h : p.Done P)
    (hP : ∀ a rest, P a rest → (next a rest).Done Q) : (p.andThen wrap next).Done Q := by
  cases p with
  | done a rest => exact hP a rest h
  | stopped a => trivial

end Parsed.Done

def Lexeme.isEof : Lexeme → Bool
  | .eof => true
  | _ => false

namespace Parser

open Grammar

def lexemes (ts : List Token) : List Lexeme := ts.map Token.lexeme

theorem lexemes_eq {ts : List Token} {l : Lexeme} (h : (head ts).lexeme = l) (hl : l.isEof = false) :
    lexemes ts = l :: lexemes ts.tail := by
  cases ts with
  | nil =>
      subst h
      cases hl
  | cons t ts => exact congrArg (· :: _) h

theorem expect_ok {s : Symbol} {ts : List Token} {pos : Position} (h : expect s ts = .ok pos) :
    lexemes ts = .symbol s :: lexemes ts.tail := by
  unfold expect at h
  split at h
  · next hs => exact lexemes_eq hs rfl
  · cases h

theorem expectName_ok {ts : List Token} {name : Name} (h : expectName ts = .ok name) :
    lexemes ts = .name name.text :: lexemes ts.tail := by
  unfold expectName at h
  split at h
  · next text ht =>
    obtain rfl := Except.ok.inj h
    exact lexemes_eq ht rfl
  · cases h

theorem startsCall_eq (ts : List Token) : startsCall ts = opensCall (lexemes ts) := by
  cases ts with
  | nil => rfl
  | cons t ts =>
      unfold startsCall opensCall
      simp only [head, lexemes, List.map_cons]
      split <;> simp_all

/-- The closing brace, or entries before it. -/
def Closes (ts r : List Lexeme) : Prop := ts = .symbol .rightBrace :: r ∨ Derives .fields ts (.symbol .rightBrace :: r)

theorem Closes.table {ts r : List Lexeme} (h : Closes ts r) : Derives .table (.symbol .leftBrace :: ts) r := by
  rcases h with rfl | h
  · exact .emptyTable
  · exact .fullTable h

/-- What stands behind an entry. -/
def GoesOn (ts r : List Lexeme) : Prop :=
  ts = .symbol .rightBrace :: r ∨ ∃ l us, ts = l :: us ∧ isSeparator l = true ∧ Closes us r

theorem GoesOn.closes {ts us r : List Lexeme} (hfield : Derives .field ts us) (h : GoesOn us r) : Closes ts r := by
  rcases h with rfl | ⟨l, us, rfl, hl, rfl | h⟩
  · exact .inr (.lastField hfield)
  · exact .inr (.endedField hfield hl)
  · exact .inr (.moreFields hfield hl h)

theorem asValue_done {start : Position} {e : Exp} {ts : List Token} {P : Exp → List Token → Prop}
    (h : opensCall (lexemes ts) = false → P e ts) : (asValue start e ts).Done P := by
  unfold asValue
  split
  · trivial
  · next hcall => exact h (by rw [← startsCall_eq]; exact Bool.eq_false_iff.mpr hcall)

mutual

theorem expression_derives (fuel : Nat) (ts : List Token) :
    (expression fuel ts).Done fun e r => Derives .exp (lexemes ts) (lexemes r) ∧
      (e.isNumeral = true → Number (lexemes ts) (lexemes r)) := by
  cases fuel with
  | zero => trivial
  | succ fuel =>
      rw [expression]
      split
      case h_1 h => exact ⟨lexemes_eq h rfl ▸ .nil_, nofun⟩
      case h_2 h => exact ⟨lexemes_eq h rfl ▸ .true_, nofun⟩
      case h_3 h => exact ⟨lexemes_eq h rfl ▸ .false_, nofun⟩
      case h_4 h => exact ⟨lexemes_eq h rfl ▸ .integer, fun _ => lexemes_eq h rfl ▸ .integer⟩
      case h_5 h => exact ⟨lexemes_eq h rfl ▸ .float, fun _ => lexemes_eq h rfl ▸ .float⟩
      case h_6 h => exact ⟨lexemes_eq h rfl ▸ .string, nofun⟩
      case h_7 h =>
        rw [lexemes_eq h rfl]
        exact (fields_derives fuel ts.tail).map fun fs r hfs => ⟨.table hfs.table, nofun⟩
      case h_8 h =>
        rw [lexemes_eq h rfl]
        refine (expression_derives fuel ts.tail).andThen fun e r he => ?_
        by_cases hn : e.isNumeral = true
        · rw [if_pos hn]
          exact ⟨.minus he.1 (he.2 hn), fun _ => .minus (he.2 hn)⟩
        · rw [if_neg hn]
          trivial
      case h_9 text h =>
        rw [lexemes_eq h rfl]
        refine (suffixes_derives fuel (.var ⟨text, (head ts).pos⟩) ts.tail).andThen fun e r he => ?_
        exact asValue_done fun hcall => ⟨.name he.1 hcall, fun hn => absurd ((he.2 hn).1 ▸ hn) nofun⟩
      case h_10 h =>
        rw [lexemes_eq h rfl]
        refine (expression_derives fuel ts.tail).andThen fun e r he => ?_
        split
        · next closed hclosed =>
          rw [expect_ok hclosed] at he
          refine (suffixes_derives fuel (.paren e closed) r.tail).andThen fun e' r' he' => asValue_done fun hcall => ?_
          refine ⟨.paren he.1 he'.1 hcall, fun hn => ?_⟩
          obtain ⟨rfl, rfl⟩ := he'.2 hn
          exact .paren (he.2 hn)
        · trivial
      case h_11 => trivial

theorem suffixes_derives (fuel : Nat) (e : Exp) (ts : List Token) :
    (suffixes fuel e ts).Done fun e' r => Derives .suffixes (lexemes ts) (lexemes r) ∧
      (e'.isNumeral = true → e' = e ∧ r = ts) := by
  cases fuel with
  | zero => trivial
  | succ fuel =>
      rw [suffixes]
      split
      case h_1 h =>
        rw [lexemes_eq h rfl]
        split
        · next name hname =>
          rw [expectName_ok hname]
          refine (suffixes_derives fuel (.field e (head ts).pos name) _).imp fun e' r he' => ⟨.member he'.1, fun hn => ?_⟩
          exact absurd ((he'.2 hn).1 ▸ hn) nofun
        · trivial
      case h_2 h =>
        rw [lexemes_eq h rfl]
        refine (expression_derives fuel ts.tail).andThen fun key r hkey => ?_
        split
        · next closed hclosed =>
          rw [expect_ok hclosed] at hkey
          refine (suffixes_derives fuel _ r.tail).imp fun e' r' he' => ⟨.element hkey.1 he'.1, fun hn => ?_⟩
          exact absurd ((he'.2 hn).1 ▸ hn) nofun
        · trivial
      case h_3 => trivial
      case h_4 => exact ⟨.noSuffix, fun _ => ⟨rfl, rfl⟩⟩

theorem fields_derives (fuel : Nat) (ts : List Token) :
    (fields fuel ts).Done fun _ r => Closes (lexemes ts) (lexemes r) := by
  cases fuel with
  | zero => trivial
  | succ fuel =>
      rw [fields]
      split
      case h_1 h => exact .inl (lexemes_eq h rfl)
      case h_2 h =>
        rw [lexemes_eq h rfl]
        refine (expression_derives fuel ts.tail).andThen fun key r hkey => ?_
        split
        · trivial
        · trivial
        · next hbracket hassign =>
          rw [expect_ok hbracket, expect_ok hassign] at hkey
          refine (expression_derives fuel _).andThen fun value r' hvalue => ?_
          exact (separated_derives fuel r').map fun _ _ hrest => hrest.closes (.keyed hkey.1 hvalue.1)
      case h_3 => trivial
      case h_4 h h' =>
        rw [lexemes_eq h rfl, lexemes_eq h' rfl]
        refine (expression_derives fuel _).andThen fun value r' hvalue => ?_
        exact (separated_derives fuel r').map fun _ _ hrest => hrest.closes (.named hvalue.1)
      case h_5 => trivial
      case h_6 =>
        refine (expression_derives fuel ts).andThen fun e r he => ?_
        exact (separated_derives fuel r).map fun _ _ hrest => hrest.closes (.positional he.1)

theorem separated_derives (fuel : Nat) (ts : List Token) :
    (separated fuel ts).Done fun _ r => GoesOn (lexemes ts) (lexemes r) := by
  cases fuel with
  | zero => trivial
  | succ fuel =>
      rw [separated]
      split
      · next h =>
        rw [lexemes_eq h rfl]
        exact (fields_derives fuel ts.tail).imp fun _ _ hrest => .inr ⟨_, _, rfl, rfl, hrest⟩
      · next h =>
        rw [lexemes_eq h rfl]
        exact (fields_derives fuel ts.tail).imp fun _ _ hrest => .inr ⟨_, _, rfl, rfl, hrest⟩
      · next h => exact .inl (lexemes_eq h rfl)
      · trivial

end

theorem arguments_derives (fuel : Nat) (ts : List Token) :
    (arguments fuel ts).Done fun _ r => Derives .exps (lexemes ts) (.symbol .rightParen :: lexemes r) := by
  induction fuel generalizing ts with
  | zero => trivial
  | succ fuel ih =>
      rw [arguments]
      refine (expression_derives _ ts).andThen fun e r he => ?_
      split
      · next h =>
        rw [lexemes_eq h rfl] at he
        exact (ih r.tail).map fun _ _ hrest => .moreExps he.1 hrest
      · next h =>
        rw [lexemes_eq h rfl] at he
        exact .lastExp he.1
      · trivial

theorem startsCall_cases {ts : List Token} (h : startsCall ts = true) :
    (∃ content, (head ts).lexeme = .string content) ∨ (head ts).lexeme = .symbol .leftBrace ∨
      (head ts).lexeme = .symbol .leftParen := by
  unfold startsCall at h
  split at h
  · next hs => exact .inl ⟨_, hs⟩
  · next hp => exact .inr (.inr hp)
  · next hb => exact .inr (.inl hb)
  · cases h

theorem callArguments_derives {ts : List Token} (h : startsCall ts = true) :
    (callArguments ts).Done fun _ r => Derives .args (lexemes ts) (lexemes r) := by
  rcases startsCall_cases h with ⟨content, hs⟩ | hs | hs
  all_goals
    rw [lexemes_eq hs rfl]
    simp only [callArguments, hs]
  · exact .stringArg
  · exact (fields_derives _ ts.tail).map fun _ _ hfs => .tableArg hfs.table
  · split
    case h_3 hp _ _ => exact lexemes_eq hp rfl ▸ .noArgs
    case h_5 => exact (arguments_derives _ ts.tail).imp fun _ _ hargs => .listArgs hargs
    all_goals trivial

theorem nameStatement_derives (name : Name) (ts : List Token) :
    (nameStatement name ts).Done fun _ r => Derives .stat (.name name.text :: lexemes ts) (lexemes r) := by
  unfold nameStatement
  refine (suffixes_derives _ (.var name) ts).andThen fun e r he => ?_
  split
  · next hcall => exact (callArguments_derives hcall).map fun _ _ hargs => .call he.1 hargs
  · split
    · next h =>
      rw [lexemes_eq h rfl] at he
      exact (expression_derives _ r.tail).map fun _ _ hvalue => .assign he.1 hvalue.1
    · trivial

theorem declaration_derives (ts : List Token) :
    (declaration ts).Done fun _ r => Derives .stat (.keyword .local_ :: lexemes ts) (lexemes r) := by
  unfold declaration
  split
  · trivial
  · next name hname =>
    rw [expectName_ok hname]
    split
    · next h =>
      rw [lexemes_eq h rfl]
      exact (expression_derives _ _).map fun _ _ he => .declareAs he.1
    · trivial
    · exact .declare

/-- A program that is whole is derived, up to the end of the input. -/
theorem block_derives {fuel : Nat} {ts : List Token} (h : ∀ s ∈ block fuel ts, ¬ s.Broken) :
    ∃ r, Derives .block (lexemes ts) (lexemes r) ∧ (head r).lexeme = .eof := by
  induction fuel generalizing ts with
  | zero => exact absurd trivial (h _ (List.mem_singleton_self _))
  | succ fuel ih =>
      have hstat {p : Parsed Stat} {ls : List Lexeme} (hp : p.Splits Stat.Whole Stat.Broken)
          (hd : p.Done fun _ r => Derives .stat ls (lexemes r)) (h : ∀ s ∈ goOn (block fuel) p, ¬ s.Broken) :
          ∃ r, Derives .block ls (lexemes r) ∧ (head r).lexeme = .eof := by
        cases p with
        | stopped s => exact absurd hp (h s (List.mem_singleton_self s))
        | done s rest =>
            obtain ⟨r, hrest, hr⟩ := ih (List.forall_mem_cons.mp h).2
            exact ⟨r, .moreStats hd hrest, hr⟩
      rw [block] at h
      split at h
      case h_1 heof => exact ⟨ts, .noStat, heof⟩
      case h_2 hs =>
        obtain ⟨r, hrest, hr⟩ := ih h
        exact ⟨r, lexemes_eq hs rfl ▸ .moreStats .semicolon hrest, hr⟩
      case h_3 hs =>
        rw [lexemes_eq hs rfl]
        exact hstat (declaration_splits _) (declaration_derives _) h
      case h_4 hs =>
        rw [lexemes_eq hs rfl]
        exact hstat (nameStatement_splits _ _) (nameStatement_derives _ _) h
      case h_5 hs =>
        rw [lexemes_eq hs rfl]
        refine hstat ?_ ?_ h
        · exact (fields_splits _ _).map (fun _ h => h) fun _ h => h
        · exact (fields_derives _ _).map fun _ _ hfs => .construct hfs.table
      case h_6 => exact absurd trivial (h _ (List.mem_singleton_self _))

end Parser

end MiniLua

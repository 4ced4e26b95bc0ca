import MiniLua.Tree.Parser

/-!
Trees without their places. The parser looks at the lexemes of tokens only, and keeps their places: tokens without their
places are read as the same tree without its places.
-/

namespace MiniLua

def Token.unplaced (t : Token) : Token := ⟨t.lexeme, .start⟩

theorem Token.lexeme_unplaced (t : Token) : t.unplaced.lexeme = t.lexeme := rfl

def SourceFault.unplaced (f : SourceFault) : SourceFault := ⟨f.cause, .start⟩

/-- A fault without its place, or what `u` makes of a result. -/
def unplacedResult {α : Type} (u : α → α) : Except SourceFault α → Except SourceFault α
  | .ok a => .ok (u a)
  | .error f => .error f.unplaced

def Name.unplaced (n : Name) : Name := ⟨n.text, .start⟩

mutual

def Exp.unplaced : Exp → Exp
  | .literal l _ => .literal l .start
  | .table _ fields => .table .start fields.unplaced
  | .minus _ operand => .minus .start operand.unplaced
  | .var name => .var name.unplaced
  | .paren inner _ => .paren inner.unplaced .start
  | .field base _ name => .field base.unplaced .start name.unplaced
  | .index base _ key _ => .index base.unplaced .start key.unplaced .start
  | .fault f => .fault f.unplaced
  | .faultAfter e f => .faultAfter e.unplaced f.unplaced

def Fields.unplaced : Fields → Fields
  | .done _ => .done .start
  | .stop e => .stop e.unplaced
  | .positional e rest => .positional e.unplaced rest.unplaced
  | .named name _ value rest => .named name.unplaced .start value.unplaced rest.unplaced
  | .keyed _ key _ value rest => .keyed .start key.unplaced .start value.unplaced rest.unplaced

end

def Stat.unplaced : Stat → Stat
  | .declare name init => .declare name.unplaced (init.map Exp.unplaced)
  | .assign target value => .assign target.unplaced value.unplaced
  | .call callee args fault => .call callee.unplaced (args.map Exp.unplaced) (fault.map SourceFault.unplaced)
  | .construct table => .construct table.unplaced
  | .stop e => .stop e.unplaced

theorem Exp.isNumeral_unplaced (e : Exp) : e.unplaced.isNumeral = e.isNumeral := by
  cases e with
  | literal l pos => cases l <;> rfl
  | minus pos operand => exact operand.isNumeral_unplaced
  | paren inner closed => exact inner.isNumeral_unplaced
  | _ => rfl

namespace Parsed

variable {α β : Type} {u : α → α} {u' : β → β}

def unplaced (u : α → α) : Parsed α → Parsed α
  | done a rest => done (u a) (rest.map Token.unplaced)
  | stopped a => stopped (u a)

theorem map_unplaced (p : Parsed α) {f f' : α → β} (hf : ∀ a, f' (u a) = u' (f a)) :
    (p.unplaced u).map f' = (p.map f).unplaced u' := by
  cases p with
  | done a rest => exact congrArg (done · (rest.map Token.unplaced)) (hf a)
  | stopped a => exact congrArg stopped (hf a)

theorem andThen_unplaced (p : Parsed α) {wrap wrap' : α → β} {next next' : α → List Token → Parsed β}
    (hwrap : ∀ a, wrap' (u a) = u' (wrap a))
    (hnext : ∀ a rest, next' (u a) (rest.map Token.unplaced) = (next a rest).unplaced u') :
    (p.unplaced u).andThen wrap' next' = (p.andThen wrap next).unplaced u' := by
  cases p with
  | done a rest => exact hnext a rest
  | stopped a => exact congrArg stopped (hwrap a)

end Parsed

namespace Parser

variable (ts : List Token)

theorem head_unplaced : head (ts.map Token.unplaced) = (head ts).unplaced := by
  cases ts <;> rfl

theorem mismatch_unplaced (what : Expectation) (t : Token) : mismatch what t.unplaced = (mismatch what t).unplaced := by
  cases t with
  | mk l pos => cases l <;> rfl

theorem surprise_unplaced (t : Token) : surprise t.unplaced = (surprise t).unplaced := by
  cases t with
  | mk l pos => cases l <;> rfl

theorem expect_unplaced (s : Symbol) :
    expect s (ts.map Token.unplaced) = unplacedResult (fun _ => .start) (expect s ts) := by
  unfold expect
  rw [head_unplaced, mismatch_unplaced]
  by_cases h : (head ts).lexeme = .symbol s
  · rw [if_pos h]
    exact (if_pos h).trans rfl
  · rw [if_neg h]
    exact (if_neg h).trans rfl

theorem expectName_unplaced :
    expectName (ts.map Token.unplaced) = unplacedResult Name.unplaced (expectName ts) := by
  unfold expectName
  rw [head_unplaced, mismatch_unplaced]
  cases head ts with
  | mk l pos => cases l <;> rfl

theorem startsCall_unplaced : startsCall (ts.map Token.unplaced) = startsCall ts := by
  unfold startsCall
  rw [head_unplaced]
  rfl

theorem asValue_unplaced (start : Position) (e : Exp) :
    asValue .start e.unplaced (ts.map Token.unplaced) = (asValue start e ts).unplaced Exp.unplaced := by
  unfold asValue
  rw [startsCall_unplaced]
  cases startsCall ts <;> rfl

/-- Reading with so much fuel gives the same trees, up to places. -/
structure Unplaces (fuel : Nat) : Prop where
  expression (ts : List Token) :
    expression fuel (ts.map Token.unplaced) = (expression fuel ts).unplaced Exp.unplaced
  suffixes (e : Exp) (ts : List Token) :
    suffixes fuel e.unplaced (ts.map Token.unplaced) = (suffixes fuel e ts).unplaced Exp.unplaced
  fields (ts : List Token) : fields fuel (ts.map Token.unplaced) = (fields fuel ts).unplaced Fields.unplaced
  separated (ts : List Token) :
    separated fuel (ts.map Token.unplaced) = (separated fuel ts).unplaced Fields.unplaced

namespace Unplaces

variable {fuel : Nat}

theorem expression_succ (h : Unplaces fuel) :
    Parser.expression (fuel + 1) (ts.map Token.unplaced) = (Parser.expression (fuel + 1) ts).unplaced Exp.unplaced := by
  rw [Parser.expression, Parser.expression, head_unplaced, ← List.map_tail, surprise_unplaced]
  simp only [Token.lexeme_unplaced]
  split
  case h_1 | h_2 | h_3 | h_4 | h_5 | h_6 | h_11 => rfl
  case h_7 =>
    rw [h.fields]
    exact Parsed.map_unplaced _ fun _ => rfl
  case h_8 =>
    rw [h.expression]
    refine Parsed.andThen_unplaced _ (fun _ => rfl) fun e r => ?_
    rw [Exp.isNumeral_unplaced]
    cases e.isNumeral <;> rfl
  case h_9 text _ =>
    refine (congrArg _ (h.suffixes (.var ⟨text, (head ts).pos⟩) ts.tail)).trans ?_
    exact Parsed.andThen_unplaced _ (fun _ => rfl) fun e r => asValue_unplaced r (head ts).pos e
  case h_10 =>
    rw [h.expression]
    refine Parsed.andThen_unplaced _ (fun _ => rfl) fun e r => ?_
    rw [expect_unplaced, ← List.map_tail]
    cases expect .rightParen r with
    | error f => rfl
    | ok closed =>
        simp only [unplacedResult]
        refine (congrArg _ (h.suffixes (.paren e closed) r.tail)).trans ?_
        exact Parsed.andThen_unplaced _ (fun _ => rfl) fun e r => asValue_unplaced r (head ts).pos e

theorem suffixes_succ (h : Unplaces fuel) (e : Exp) :
    Parser.suffixes (fuel + 1) e.unplaced (ts.map Token.unplaced) =
      (Parser.suffixes (fuel + 1) e ts).unplaced Exp.unplaced := by
  rw [Parser.suffixes, Parser.suffixes, head_unplaced, ← List.map_tail, surprise_unplaced]
  simp only [Token.lexeme_unplaced]
  split
  case h_1 =>
    rw [expectName_unplaced, ← List.map_tail]
    cases expectName ts.tail with
    | error f => rfl
    | ok name => exact h.suffixes (.field e (head ts).pos name) ts.tail.tail
  case h_2 =>
    rw [h.expression]
    refine Parsed.andThen_unplaced _ (fun _ => rfl) fun key r => ?_
    rw [expect_unplaced, ← List.map_tail]
    cases expect .rightBracket r with
    | error f => rfl
    | ok closed => exact h.suffixes (.index e (head ts).pos key closed) r.tail
  case h_3 | h_4 => rfl

theorem fields_succ (h : Unplaces fuel) :
    Parser.fields (fuel + 1) (ts.map Token.unplaced) = (Parser.fields (fuel + 1) ts).unplaced Fields.unplaced := by
  rw [Parser.fields, Parser.fields, ← List.map_tail, head_unplaced, head_unplaced, surprise_unplaced, surprise_unplaced,
    ← List.map_tail]
  simp only [Token.lexeme_unplaced]
  split
  case h_1 | h_3 | h_5 => rfl
  case h_2 =>
    rw [h.expression]
    refine Parsed.andThen_unplaced _ (fun _ => rfl) fun key r => ?_
    rw [expect_unplaced, ← List.map_tail, expect_unplaced, ← List.map_tail, h.expression]
    cases expect .rightBracket r with
    | error f => rfl
    | ok _ =>
        cases expect .assign r.tail with
        | error f => rfl
        | ok assign =>
            refine Parsed.andThen_unplaced _ (fun _ => rfl) fun value r => ?_
            rw [h.separated]
            exact Parsed.map_unplaced _ fun _ => rfl
  case h_4 =>
    rw [h.expression]
    refine Parsed.andThen_unplaced _ (fun _ => rfl) fun value r => ?_
    rw [h.separated]
    exact Parsed.map_unplaced _ fun _ => rfl
  case h_6 =>
    rw [h.expression]
    refine Parsed.andThen_unplaced _ (fun _ => rfl) fun e r => ?_
    rw [h.separated]
    exact Parsed.map_unplaced _ fun _ => rfl

theorem separated_succ (h : Unplaces fuel) :
    Parser.separated (fuel + 1) (ts.map Token.unplaced) = (Parser.separated (fuel + 1) ts).unplaced Fields.unplaced := by
  rw [Parser.separated, Parser.separated, head_unplaced, ← List.map_tail, mismatch_unplaced]
  simp only [Token.lexeme_unplaced]
  split
  · exact h.fields ts.tail
  · exact h.fields ts.tail
  · rfl
  · rfl

theorem zero : Unplaces 0 := by
  constructor
  · intro ts
    rw [Parser.expression, Parser.expression, head_unplaced, surprise_unplaced]
    rfl
  · intro e ts
    rw [Parser.suffixes, Parser.suffixes, head_unplaced, surprise_unplaced]
    rfl
  · intro ts
    rw [Parser.fields, Parser.fields, head_unplaced, surprise_unplaced]
    rfl
  · intro ts
    rw [Parser.separated, Parser.separated, head_unplaced, surprise_unplaced]
    rfl

theorem succ (h : Unplaces fuel) : Unplaces (fuel + 1) :=
  ⟨h.expression_succ, fun e ts => h.suffixes_succ ts e, h.fields_succ, h.separated_succ⟩

end Unplaces

theorem unplaces (fuel : Nat) : Unplaces fuel := by
  induction fuel with
  | zero => exact .zero
  | succ fuel ih => exact ih.succ

theorem depth_unplaced : depth (ts.map Token.unplaced) = depth ts := by
  rw [depth, depth, List.length_map]

/-- The arguments of a call without their places. -/
def unplacedArguments (args : List Exp × Option SourceFault) : List Exp × Option SourceFault :=
  (args.1.map Exp.unplaced, args.2.map SourceFault.unplaced)

theorem arguments_unplaced (fuel : Nat) :
    arguments fuel (ts.map Token.unplaced) = (arguments fuel ts).unplaced unplacedArguments := by
  induction fuel generalizing ts with
  | zero =>
      rw [arguments, arguments, head_unplaced, surprise_unplaced]
      rfl
  | succ fuel ih =>
      rw [arguments, arguments, depth_unplaced, (unplaces _).expression]
      refine Parsed.andThen_unplaced _ (fun _ => rfl) fun e r => ?_
      rw [head_unplaced, ← List.map_tail, mismatch_unplaced]
      simp only [Token.lexeme_unplaced]
      split
      · rw [ih]
        exact Parsed.map_unplaced _ fun _ => rfl
      · rfl
      · rfl

theorem callArguments_unplaced :
    callArguments (ts.map Token.unplaced) = (callArguments ts).unplaced unplacedArguments := by
  unfold callArguments
  dsimp only
  rw [← List.map_tail, head_unplaced, head_unplaced, surprise_unplaced, ← List.map_tail, List.length_map,
    depth_unplaced, (unplaces _).fields, arguments_unplaced]
  simp only [Token.lexeme_unplaced]
  split
  case h_2 => exact Parsed.map_unplaced _ fun _ => rfl
  case h_1 | h_3 | h_4 | h_5 => rfl

theorem nameStatement_unplaced (name : Name) :
    nameStatement name.unplaced (ts.map Token.unplaced) = (nameStatement name ts).unplaced Stat.unplaced := by
  unfold nameStatement
  rw [depth_unplaced]
  refine (congrArg _ ((unplaces _).suffixes (.var name) ts)).trans ?_
  refine Parsed.andThen_unplaced _ (fun _ => rfl) fun e r => ?_
  rw [startsCall_unplaced, head_unplaced, surprise_unplaced, ← List.map_tail, depth_unplaced, (unplaces _).expression,
    callArguments_unplaced]
  split
  · exact Parsed.map_unplaced _ fun _ => rfl
  · by_cases hassign : (head r).lexeme = .symbol .assign
    · rw [if_pos hassign]
      refine (if_pos hassign).trans ?_
      exact Parsed.map_unplaced _ fun _ => rfl
    · rw [if_neg hassign]
      exact (if_neg hassign).trans rfl

theorem declaration_unplaced :
    declaration (ts.map Token.unplaced) = (declaration ts).unplaced Stat.unplaced := by
  unfold declaration
  rw [expectName_unplaced, ← List.map_tail, ← List.map_tail, head_unplaced, surprise_unplaced, depth_unplaced,
    (unplaces _).expression]
  cases expectName ts with
  | error f => rfl
  | ok name =>
      simp only [Token.lexeme_unplaced, unplacedResult]
      split
      · exact Parsed.map_unplaced _ fun _ => rfl
      · rfl
      · rfl

theorem block_unplaced (fuel : Nat) : block fuel (ts.map Token.unplaced) = (block fuel ts).map Stat.unplaced := by
  induction fuel generalizing ts with
  | zero =>
      rw [block, block, head_unplaced, surprise_unplaced]
      rfl
  | succ fuel ih =>
      rw [block, block, head_unplaced, surprise_unplaced, ← List.map_tail, ih]
      simp only [Token.lexeme_unplaced]
      split
      case h_1 | h_2 | h_6 => rfl
      case h_3 =>
        rw [declaration_unplaced]
        cases declaration ts.tail with
        | stopped s => rfl
        | done s r => exact congrArg _ (ih r)
      case h_4 text _ =>
        have hstatement := nameStatement_unplaced ts.tail ⟨text, (head ts).pos⟩
        simp only [Name.unplaced] at hstatement
        simp only [Token.unplaced, hstatement]
        cases nameStatement ⟨text, (head ts).pos⟩ ts.tail with
        | stopped s => rfl
        | done s r => exact congrArg _ (ih r)
      case h_5 =>
        rw [depth_unplaced, (unplaces _).fields]
        cases fields (depth ts) ts.tail with
        | stopped fs => rfl
        | done fs r => exact congrArg _ (ih r)

end Parser

theorem Block.ofTokens_unplaced (ts : List Token) :
    ofTokens (ts.map Token.unplaced) = (ofTokens ts).map Stat.unplaced := by
  rw [ofTokens, List.length_map, Parser.block_unplaced]
  rfl

end MiniLua

import MiniLua.Proofs.Grammar.Soundness

/-!
Names in trees and what they stand for. A program has the names of its tokens, in their order, and each of them is a
variable, a field, the key of an entry, or a name that is declared.
-/

namespace MiniLua

inductive Role where
  | variable
  | field
  | key
  | declared
  deriving DecidableEq, Repr

structure Mention where
  role : Role
  name : Name
  deriving DecidableEq, Repr

def Mention.varName? (m : Mention) : Option Name := if m.role = .variable then some m.name else none

mutual

/-- The names in a tree, in the order of their tokens. -/
def Exp.mentions : Exp → List Mention
  | .literal .. | .fault _ => []
  | .table _ fields => fields.mentions
  | .minus _ e | .paren e _ | .faultAfter e _ => e.mentions
  | .var name => [⟨.variable, name⟩]
  | .field base _ name => base.mentions ++ [⟨.field, name⟩]
  | .index base _ key _ => base.mentions ++ key.mentions

def Fields.mentions : Fields → List Mention
  | .done _ => []
  | .stop e => e.mentions
  | .positional e rest => e.mentions ++ rest.mentions
  | .named name _ value rest => ⟨.key, name⟩ :: (value.mentions ++ rest.mentions)
  | .keyed _ key _ value rest => key.mentions ++ (value.mentions ++ rest.mentions)

end

def Stat.mentions : Stat → List Mention
  | .declare name none => [⟨.declared, name⟩]
  | .declare name (some e) => ⟨.declared, name⟩ :: e.mentions
  | .assign target value => target.mentions ++ value.mentions
  | .call callee args _ => callee.mentions ++ args.flatMap Exp.mentions
  | .construct e | .stop e => e.mentions

def Block.mentions (b : Block) : List Mention := b.flatMap Stat.mentions

/-- The variables of a statement, in the order of their tokens. -/
def Stat.variables (s : Stat) : List Name := s.mentions.filterMap Mention.varName?

def Stat.declared : Stat → Option Name
  | .declare name _ => some name
  | _ => none

def Stat.Declares (s : Stat) (n : Bytes) : Prop := ∃ name ∈ s.declared, name.text = n

theorem Stat.mem_names_of_variable {s : Stat} {v : Name} (h : v ∈ s.variables) : v ∈ s.mentions.map Mention.name := by
  obtain ⟨m, hm, hv⟩ := List.mem_filterMap.mp h
  unfold Mention.varName? at hv
  split at hv
  · cases hv
    exact List.mem_map_of_mem hm
  · cases hv

theorem Stat.mem_names_of_declared {s : Stat} {d : Name} (h : d ∈ s.declared) : d ∈ s.mentions.map Mention.name := by
  cases s with
  | declare name init =>
      cases h
      cases init <;> exact List.mem_cons_self
  | _ => cases h

/-- Some statement has `n` as a variable, and no statement before it declares `n`. -/
def Block.Free (b : Block) (n : Bytes) : Prop :=
  ∃ before s after, b = before ++ s :: after ∧ (∀ s' ∈ before, ¬ s'.Declares n) ∧ ∃ v ∈ s.variables, v.text = n

theorem Block.not_free_nil (n : Bytes) : ¬ Block.Free [] n := by
  rintro ⟨before, s, after, h, -⟩
  simp at h

theorem Block.free_cons {s : Stat} {b : Block} {n : Bytes} :
    Block.Free (s :: b) n ↔ (∃ v ∈ s.variables, v.text = n) ∨ ¬ s.Declares n ∧ Block.Free b n := by
  constructor
  · rintro ⟨before, s', after, h, hbefore, hv⟩
    cases before with
    | nil =>
        obtain ⟨rfl, rfl⟩ := List.cons.inj h
        exact .inl hv
    | cons s'' before =>
        obtain ⟨rfl, rfl⟩ := List.cons.inj h
        have hd := List.forall_mem_cons.mp hbefore
        exact .inr ⟨hd.1, before, s', after, rfl, hd.2, hv⟩
  · rintro (hv | ⟨hs, before, s', after, rfl, hbefore, hv⟩)
    · exact ⟨[], s, b, rfl, List.forall_mem_nil _, hv⟩
    · exact ⟨s :: before, s', after, rfl, List.forall_mem_cons.mpr ⟨hs, hbefore⟩, hv⟩

def Token.name? (t : Token) : Option Name :=
  match t.lexeme with
  | .name text => some ⟨text, t.pos⟩
  | _ => none

def Lexeme.isName : Lexeme → Bool
  | .name _ => true
  | _ => false

theorem Token.name?_of_not_isName {t : Token} (h : t.lexeme.isName = false) : t.name? = none := by
  obtain ⟨l, pos⟩ := t
  cases l with
  | name => cases h
  | eof | fault | string | integer | float | keyword | symbol => rfl

theorem Token.of_name? {t : Token} {n : Name} (h : t.name? = some n) : t.lexeme = .name n.text ∧ t.pos = n.pos := by
  unfold name? at h
  split at h
  · next text hl =>
    cases h
    exact ⟨hl, rfl⟩
  · cases h

namespace Parser

open Grammar

def names (ts : List Token) : List Name := ts.filterMap Token.name?

theorem names_of_not_isName {ts : List Token} {l : Lexeme} (h : (head ts).lexeme = l) (hl : l.isName = false) :
    names ts = names ts.tail := by
  cases ts with
  | nil => rfl
  | cons t ts =>
      have ht : t.lexeme = l := h
      exact List.filterMap_cons_none (Token.name?_of_not_isName (ht ▸ hl))

theorem names_of_name {ts : List Token} {text : Bytes} (h : (head ts).lexeme = .name text) :
    names ts = ⟨text, (head ts).pos⟩ :: names ts.tail := by
  cases ts with
  | nil => cases h
  | cons t ts =>
      have ht : t.lexeme = .name text := h
      apply List.filterMap_cons_some
      rw [Token.name?, ht]
      rfl

theorem expect_names {s : Symbol} {ts : List Token} {pos : Position} (h : expect s ts = .ok pos) :
    names ts = names ts.tail := by
  unfold expect at h
  split at h
  · next hs => exact names_of_not_isName hs rfl
  · cases h

theorem expectName_names {ts : List Token} {name : Name} (h : expectName ts = .ok name) :
    names ts = name :: names ts.tail := by
  unfold expectName at h
  split at h
  · next text ht =>
    obtain rfl := Except.ok.inj h
    exact names_of_name ht
  · cases h

/-- The names before the rest `r` of the tokens `ts` are those of the mentions `ms`. -/
def Names (ts r : List Token) (ms : List Mention) : Prop := names ts = ms.map Mention.name ++ names r

namespace Names

variable {ts us r : List Token} {ms ms' : List Mention}

theorem refl (ts : List Token) : Names ts ts [] := rfl

theorem trans (h : Names ts us ms) (h' : Names us r ms') : Names ts r (ms ++ ms') := by
  unfold Names at *
  rw [h, h', List.map_append, List.append_assoc]

theorem tail (h : Names ts us ms) (hu : names us = names us.tail) : Names ts us.tail ms := by
  rw [Names, ← hu]
  exact h

theorem of_tail (hts : names ts = names ts.tail) (h : Names ts.tail r ms) : Names ts r ms := hts.trans h

theorem cons {m : Mention} (hts : names ts = m.name :: names ts.tail) (h : Names ts.tail r ms) : Names ts r (m :: ms) := by
  rw [Names, hts, h]
  rfl

end Names

mutual

theorem expression_names (fuel : Nat) (ts : List Token) : (expression fuel ts).Done fun e r => Names ts r e.mentions := by
  cases fuel with
  | zero => trivial
  | succ fuel =>
      rw [expression]
      split
      case h_1 h | h_2 h | h_3 h | h_4 h | h_5 h | h_6 h => exact .of_tail (names_of_not_isName h rfl) (.refl _)
      case h_7 h =>
        exact (fields_names fuel ts.tail).map fun fs r hfs => .of_tail (names_of_not_isName h rfl) hfs
      case h_8 h =>
        refine (expression_names fuel ts.tail).andThen fun e r he => ?_
        split
        · exact Names.of_tail (names_of_not_isName h rfl) he
        · trivial
      case h_9 text h =>
        have hvar : Names ts ts.tail (Exp.var ⟨text, (head ts).pos⟩).mentions := names_of_name h
        exact (suffixes_names fuel hvar).andThen fun e r he => asValue_done fun _ => he
      case h_10 h =>
        refine (expression_names fuel ts.tail).andThen fun e r he => ?_
        split
        · next closed hclosed =>
          have hparen : Names ts r.tail (Exp.paren e closed).mentions :=
            .of_tail (names_of_not_isName h rfl) (he.tail (expect_names hclosed))
          exact (suffixes_names fuel hparen).andThen fun e' r' he' => asValue_done fun _ => he'
        · trivial
      case h_11 => trivial

theorem suffixes_names (fuel : Nat) {us ts : List Token} {e : Exp} (he : Names us ts e.mentions) :
    (suffixes fuel e ts).Done fun e' r => Names us r e'.mentions := by
  cases fuel with
  | zero => trivial
  | succ fuel =>
      rw [suffixes]
      split
      case h_1 h =>
        split
        · next name hname =>
          have hfield : Names ts.tail ts.tail.tail [⟨.field, name⟩] := .cons (expectName_names hname) (.refl _)
          exact suffixes_names fuel (e := .field e _ name) (he.trans (.of_tail (names_of_not_isName h rfl) hfield))
        · trivial
      case h_2 h =>
        refine (expression_names fuel ts.tail).andThen fun key r hkey => ?_
        split
        · next closed hclosed =>
          have hindex := hkey.tail (expect_names hclosed)
          exact suffixes_names fuel (e := .index e _ key closed)
            (he.trans (.of_tail (names_of_not_isName h rfl) hindex))
        · trivial
      case h_3 => trivial
      case h_4 => exact he

theorem fields_names (fuel : Nat) (ts : List Token) : (fields fuel ts).Done fun fs r => Names ts r fs.mentions := by
  cases fuel with
  | zero => trivial
  | succ fuel =>
      rw [fields]
      split
      case h_1 h => exact Names.of_tail (names_of_not_isName h rfl) (.refl _)
      case h_2 h =>
        refine (expression_names fuel ts.tail).andThen fun key r hkey => ?_
        split
        · trivial
        · trivial
        · next hbracket hassign =>
          have hbefore := (hkey.tail (expect_names hbracket)).tail (expect_names hassign)
          refine (expression_names fuel r.tail.tail).andThen fun value r' hvalue => ?_
          refine (separated_names fuel r').map fun fs r'' hrest => ?_
          exact .of_tail (names_of_not_isName h rfl) (hbefore.trans (hvalue.trans hrest))
      case h_3 => trivial
      case h_4 text h h' =>
        refine (expression_names fuel ts.tail.tail).andThen fun value r' hvalue => ?_
        refine (separated_names fuel r').map fun fs r'' hrest => ?_
        exact .cons (names_of_name h) (.of_tail (names_of_not_isName h' rfl) (hvalue.trans hrest))
      case h_5 => trivial
      case h_6 =>
        refine (expression_names fuel ts).andThen fun e r he => ?_
        exact (separated_names fuel r).map fun fs r' hrest => he.trans hrest

theorem separated_names (fuel : Nat) (ts : List Token) :
    (separated fuel ts).Done fun fs r => Names ts r fs.mentions := by
  cases fuel with
  | zero => trivial
  | succ fuel =>
      rw [separated]
      split
      case h_1 h | h_2 h =>
        exact (fields_names fuel ts.tail).imp fun fs r hfs => .of_tail (names_of_not_isName h rfl) hfs
      case h_3 h => exact Names.of_tail (names_of_not_isName h rfl) (.refl _)
      case h_4 => trivial

end

theorem arguments_names (fuel : Nat) (ts : List Token) :
    (arguments fuel ts).Done fun p r => Names ts r (p.1.flatMap Exp.mentions) := by
  induction fuel generalizing ts with
  | zero => trivial
  | succ fuel ih =>
      rw [arguments]
      refine (expression_names _ ts).andThen fun e r he => ?_
      split
      · next h =>
        exact (ih r.tail).map fun p r' hrest => (he.tail (names_of_not_isName h rfl)).trans hrest
      · next h =>
        have hlast := (he.tail (names_of_not_isName h rfl)).trans (.refl _)
        exact hlast
      · trivial

theorem callArguments_names {ts : List Token} (h : startsCall ts = true) :
    (callArguments ts).Done fun p r => Names ts r (p.1.flatMap Exp.mentions) := by
  rcases startsCall_cases h with ⟨content, hs⟩ | hs | hs
  all_goals simp only [callArguments, hs]
  · exact Names.of_tail (names_of_not_isName hs rfl) (.refl _)
  · refine (fields_names _ ts.tail).map fun fs r hfs => .of_tail (names_of_not_isName hs rfl) ?_
    exact hfs.trans (.refl r)
  · split
    case h_3 hp _ _ =>
      exact Names.of_tail (names_of_not_isName hs rfl) (.of_tail (names_of_not_isName hp rfl) (.refl _))
    case h_5 =>
      exact (arguments_names _ ts.tail).imp fun p r hargs => .of_tail (names_of_not_isName hs rfl) hargs
    all_goals trivial

theorem nameStatement_names {us ts : List Token} {name : Name} (hname : Names us ts [⟨.variable, name⟩]) :
    (nameStatement name ts).Done fun s r => Names us r s.mentions := by
  unfold nameStatement
  refine (suffixes_names _ (e := .var name) hname).andThen fun e r he => ?_
  split
  · next hcall => exact (callArguments_names hcall).map fun p r' hargs => he.trans hargs
  · split
    · next h =>
      exact (expression_names _ r.tail).map fun value r' hvalue => (he.tail (names_of_not_isName h rfl)).trans hvalue
    · trivial

theorem declaration_names (ts : List Token) : (declaration ts).Done fun s r => Names ts r s.mentions := by
  unfold declaration
  split
  · trivial
  · next name hname =>
    split
    · next h =>
      refine (expression_names _ _).map fun e r he => ?_
      exact .cons (expectName_names hname) (.of_tail (names_of_not_isName h rfl) he)
    · trivial
    · exact Names.cons (m := ⟨.declared, name⟩) (expectName_names hname) (.refl _)

/-- A whole program has the names of its tokens up to the end of the input. -/
theorem block_names {fuel : Nat} {ts : List Token} (h : ∀ s ∈ block fuel ts, ¬ s.Broken) :
    ∃ r, Names ts r (Block.mentions (block fuel ts)) ∧ Derives .block (lexemes ts) (lexemes r) ∧
      (head r).lexeme = .eof := by
  induction fuel generalizing ts with
  | zero => exact absurd trivial (h _ (List.mem_singleton_self _))
  | succ fuel ih =>
      have hstat {p : Parsed Stat} (hp : p.Splits Stat.Whole Stat.Broken)
          (hd : p.Done fun _ r => Derives .stat (lexemes ts) (lexemes r))
          (hn : p.Done fun s r => Names ts r s.mentions) (h : ∀ s ∈ goOn (block fuel) p, ¬ s.Broken) :
          ∃ r, Names ts r (Block.mentions (goOn (block fuel) p)) ∧ Derives .block (lexemes ts) (lexemes r) ∧
            (head r).lexeme = .eof := by
        cases p with
        | stopped s => exact absurd hp (h s (List.mem_singleton_self s))
        | done s rest =>
            obtain ⟨r, hrest, hderives, hr⟩ := ih (List.forall_mem_cons.mp h).2
            exact ⟨r, hn.trans hrest, .moreStats hd hderives, hr⟩
      revert h
      rw [block]
      split
      all_goals intro h
      case h_1 heof => exact ⟨ts, .refl ts, .noStat, heof⟩
      case h_2 hs =>
        obtain ⟨r, hrest, hderives, hr⟩ := ih h
        exact ⟨r, .of_tail (names_of_not_isName hs rfl) hrest, lexemes_eq hs rfl ▸ .moreStats .semicolon hderives, hr⟩
      case h_3 hs =>
        refine hstat (declaration_splits _) (lexemes_eq hs rfl ▸ declaration_derives _) ?_ h
        exact (declaration_names ts.tail).imp fun s r hd => .of_tail (names_of_not_isName hs rfl) hd
      case h_4 text hs =>
        exact hstat (nameStatement_splits _ _) (lexemes_eq hs rfl ▸ nameStatement_derives _ _)
          (nameStatement_names (names_of_name hs)) h
      case h_5 hs =>
        refine hstat ((fields_splits _ _).map (fun _ h => h) fun _ h => h) ?_ ?_ h
        · exact lexemes_eq hs rfl ▸ (fields_derives _ _).map fun _ _ hfs => .construct hfs.table
        · exact (fields_names _ _).map fun fs r hfs => .of_tail (names_of_not_isName hs rfl) hfs
      case h_6 => exact absurd trivial (h _ (List.mem_singleton_self _))

end Parser

end MiniLua

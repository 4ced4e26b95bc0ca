import MiniLua.Proofs.Grammar.Soundness
import MiniLua.Proofs.Scan.Extent

/-!
How much source trees take. A tree has no more than the tokens that were read for it, and the names that it declares are
texts.
-/

namespace MiniLua

open Text

def Name.extent (name : Name) : Nat := (Lexeme.name name.text).extent

def Literal.extent : Literal → Nat
  | .str content => content.length + 1
  | .nil | .bool _ | .int _ | .float _ => 1

mutual

/-- A number of bytes that the tree takes at least in a source. -/
def Exp.extent : Exp → Nat
  | .literal l _ => l.extent
  | .table _ fields => fields.extent + 1
  | .minus _ operand => operand.extent + 1
  | .var name => name.extent
  | .paren inner _ => inner.extent + 2
  | .field base _ name => base.extent + name.extent + 1
  | .index base _ key _ => base.extent + key.extent + 2
  | .fault _ => 0
  | .faultAfter e _ => e.extent

def Fields.extent : Fields → Nat
  | .done _ => 1
  | .stop e => e.extent
  | .positional e rest => e.extent + rest.extent
  | .named name _ value rest => name.extent + value.extent + rest.extent + 1
  | .keyed _ key _ value rest => key.extent + value.extent + rest.extent + 3

end

def Exp.extents : List Exp → Nat
  | [] => 0
  | e :: es => e.extent + extents es

def Stat.extent : Stat → Nat
  | .declare name none => name.extent + 1
  | .declare name (some e) => name.extent + e.extent + 2
  | .assign target value => target.extent + value.extent + 1
  | .call callee args _ => callee.extent + Exp.extents args
  | .construct e | .stop e => e.extent

def Block.extent : Block → Nat
  | [] => 0
  | s :: b => s.extent + extent b

/-- A declared name has to be a text. -/
def Stat.IsText : Stat → Prop
  | .declare name _ => isUtf8 name.text = true
  | _ => True

namespace Parser

def remaining (ts : List Token) : Nat := Lexeme.extents (lexemes ts)

theorem remaining_eq {ts : List Token} {l : Lexeme} (h : (head ts).lexeme = l) (hl : l.isEof = false) :
    remaining ts = l.extent + remaining ts.tail :=
  congrArg Lexeme.extents (lexemes_eq h hl)

theorem expect_remaining {s : Symbol} {ts : List Token} {pos : Position} (h : expect s ts = .ok pos) :
    remaining ts = remaining ts.tail + 1 := by
  rw [remaining, expect_ok h]
  exact Nat.add_comm ..

theorem expectName_remaining {ts : List Token} {name : Name} (h : expectName ts = .ok name) :
    remaining ts = name.extent + remaining ts.tail :=
  congrArg Lexeme.extents (expectName_ok h)

mutual

theorem expression_extent (fuel : Nat) (ts : List Token) :
    (expression fuel ts).Done fun e r => e.extent + remaining r ≤ remaining ts := by
  cases fuel with
  | zero => trivial
  | succ fuel =>
      rw [expression]
      split
      case h_1 h | h_2 h | h_3 h | h_4 h | h_5 h | h_6 h => exact Nat.le_of_eq (remaining_eq h rfl).symm
      case h_7 h =>
        rw [remaining_eq h rfl]
        refine (fields_extent fuel ts.tail).map fun fs r hfs => ?_
        simp only [Exp.extent, Lexeme.extent]
        omega
      case h_8 h =>
        rw [remaining_eq h rfl]
        refine (expression_extent fuel ts.tail).andThen fun e r he => ?_
        split
        · simp only [Parsed.Done, Exp.extent, Lexeme.extent]
          omega
        · trivial
      case h_9 text h =>
        rw [remaining_eq h rfl]
        exact (suffixes_extent fuel (.var ⟨text, (head ts).pos⟩) ts.tail).andThen fun e r he => asValue_done fun _ => he
      case h_10 h =>
        rw [remaining_eq h rfl]
        refine (expression_extent fuel ts.tail).andThen fun e r he => ?_
        split
        · next closed hclosed =>
          rw [expect_remaining hclosed] at he
          refine (suffixes_extent fuel (.paren e closed) r.tail).andThen fun e' r' he' => asValue_done fun _ => ?_
          simp only [Exp.extent, Lexeme.extent] at he' ⊢
          omega
        · trivial
      case h_11 => trivial

theorem suffixes_extent (fuel : Nat) (e : Exp) (ts : List Token) :
    (suffixes fuel e ts).Done fun e' r => e'.extent + remaining r ≤ e.extent + remaining ts := by
  cases fuel with
  | zero => trivial
  | succ fuel =>
      rw [suffixes]
      split
      case h_1 h =>
        rw [remaining_eq h rfl]
        split
        · next name hname =>
          rw [expectName_remaining hname]
          refine (suffixes_extent fuel (.field e (head ts).pos name) _).imp fun e' r he' => ?_
          simp only [Exp.extent, Lexeme.extent] at he' ⊢
          omega
        · trivial
      case h_2 h =>
        rw [remaining_eq h rfl]
        refine (expression_extent fuel ts.tail).andThen fun key r hkey => ?_
        split
        · next closed hclosed =>
          rw [expect_remaining hclosed] at hkey
          refine (suffixes_extent fuel _ r.tail).imp fun e' r' he' => ?_
          simp only [Exp.extent, Lexeme.extent] at he' ⊢
          omega
        · trivial
      case h_3 => trivial
      case h_4 => exact Nat.le_refl _

theorem fields_extent (fuel : Nat) (ts : List Token) :
    (fields fuel ts).Done fun fs r => fs.extent + remaining r ≤ remaining ts := by
  cases fuel with
  | zero => trivial
  | succ fuel =>
      rw [fields]
      split
      case h_1 h => exact Nat.le_of_eq (remaining_eq h rfl).symm
      case h_2 h =>
        rw [remaining_eq h rfl]
        refine (expression_extent fuel ts.tail).andThen fun key r hkey => ?_
        split
        · trivial
        · trivial
        · next hbracket hassign =>
          rw [expect_remaining hbracket, expect_remaining hassign] at hkey
          refine (expression_extent fuel _).andThen fun value r' hvalue => ?_
          refine (separated_extent fuel r').map fun fs r'' hrest => ?_
          simp only [Fields.extent, Lexeme.extent]
          omega
      case h_3 => trivial
      case h_4 text h h' =>
        rw [remaining_eq h rfl, remaining_eq h' rfl]
        refine (expression_extent fuel _).andThen fun value r' hvalue => ?_
        refine (separated_extent fuel r').map fun fs r'' hrest => ?_
        simp only [Fields.extent, Name.extent, Lexeme.extent]
        omega
      case h_5 => trivial
      case h_6 =>
        refine (expression_extent fuel ts).andThen fun e r he => ?_
        refine (separated_extent fuel r).map fun fs r' hrest => ?_
        simp only [Fields.extent]
        omega

theorem separated_extent (fuel : Nat) (ts : List Token) :
    (separated fuel ts).Done fun fs r => fs.extent + remaining r ≤ remaining ts := by
  cases fuel with
  | zero => trivial
  | succ fuel =>
      rw [separated]
      split
      case h_1 h | h_2 h =>
        rw [remaining_eq h rfl]
        exact (fields_extent fuel ts.tail).imp fun fs r hfs => Nat.le_add_left_of_le hfs
      case h_3 h => exact Nat.le_of_eq (remaining_eq h rfl).symm
      case h_4 => trivial

end

theorem arguments_extent (fuel : Nat) (ts : List Token) :
    (arguments fuel ts).Done fun p r => Exp.extents p.1 + remaining r ≤ remaining ts := by
  induction fuel generalizing ts with
  | zero => trivial
  | succ fuel ih =>
      rw [arguments]
      refine (expression_extent _ ts).andThen fun e r he => ?_
      split
      · next h =>
        rw [remaining_eq h rfl] at he
        refine (ih r.tail).map fun p r' hrest => ?_
        simp only [Exp.extents]
        omega
      · next h =>
        rw [remaining_eq h rfl] at he
        simp only [Parsed.Done, Exp.extents]
        omega
      · trivial

theorem callArguments_extent {ts : List Token} (h : startsCall ts = true) :
    (callArguments ts).Done fun p r => Exp.extents p.1 + remaining r ≤ remaining ts := by
  rcases startsCall_cases h with ⟨content, hs⟩ | hs | hs
  all_goals
    rw [remaining_eq hs rfl]
    simp only [callArguments, hs]
  · exact Nat.le_refl _
  · refine (fields_extent _ ts.tail).map fun fs r hfs => ?_
    simp only [Exp.extents, Exp.extent, Lexeme.extent]
    omega
  · split
    case h_3 hp _ _ =>
      rw [remaining_eq hp rfl]
      simp only [Parsed.Done, Exp.extents]
      omega
    case h_5 => exact (arguments_extent _ ts.tail).imp fun p r hargs => Nat.le_add_left_of_le hargs
    all_goals trivial

theorem nameStatement_extent (name : Name) (ts : List Token) :
    (nameStatement name ts).Done fun s r => s.extent + remaining r ≤ name.extent + remaining ts ∧ s.IsText := by
  unfold nameStatement
  refine (suffixes_extent _ (.var name) ts).andThen fun e r he => ?_
  simp only [Exp.extent] at he
  split
  · next hcall =>
    refine (callArguments_extent hcall).map fun p r' hargs => ⟨?_, trivial⟩
    simp only [Stat.extent]
    omega
  · split
    · next h =>
      rw [remaining_eq h rfl] at he
      refine (expression_extent _ r.tail).map fun value r' hvalue => ⟨?_, trivial⟩
      simp only [Stat.extent, Lexeme.extent] at he ⊢
      omega
    · trivial

theorem declaration_extent {ts : List Token} (ht : ∀ l ∈ lexemes ts, l.IsText) :
    (declaration ts).Done fun s r => s.extent + remaining r ≤ 1 + remaining ts ∧ s.IsText := by
  unfold declaration
  split
  · trivial
  · next name hname =>
    have htext : isUtf8 name.text = true := ht (.name name.text) (expectName_ok hname ▸ .head _)
    rw [expectName_remaining hname]
    split
    · next h =>
      rw [remaining_eq h rfl]
      refine (expression_extent _ _).map fun e r he => ⟨?_, htext⟩
      simp only [Stat.extent, Lexeme.extent]
      omega
    · trivial
    · refine ⟨?_, htext⟩
      simp only [Stat.extent]
      omega

/-- A whole program has no more than the tokens it is read from. -/
theorem block_extent {fuel : Nat} {ts : List Token} (h : ∀ s ∈ block fuel ts, ¬ s.Broken)
    (ht : ∀ l ∈ lexemes ts, l.IsText) :
    Block.extent (block fuel ts) ≤ remaining ts ∧ ∀ s ∈ block fuel ts, s.IsText := by
  induction fuel generalizing ts with
  | zero => exact absurd trivial (h _ (List.mem_singleton_self _))
  | succ fuel ih =>
      have hstat {p : Parsed Stat} {ls : List Lexeme} (hp : p.Splits Stat.Whole Stat.Broken)
          (hd : p.Done fun _ r => Grammar.Derives .stat ls (lexemes r))
          (hs : p.Done fun s r => s.extent + remaining r ≤ Lexeme.extents ls ∧ s.IsText)
          (h : ∀ s ∈ goOn (block fuel) p, ¬ s.Broken) (ht : ∀ l ∈ ls, l.IsText) :
          Block.extent (goOn (block fuel) p) ≤ Lexeme.extents ls ∧ ∀ s ∈ goOn (block fuel) p, s.IsText := by
        cases p with
        | stopped s => exact absurd hp (h s (List.mem_singleton_self s))
        | done s rest =>
            obtain ⟨w, hw, -⟩ := hd.takes
            obtain ⟨hrest, htext⟩ := ih (List.forall_mem_cons.mp h).2 fun l hl =>
              ht l (hw ▸ List.mem_append_right w hl)
            refine ⟨?_, List.forall_mem_cons.mpr ⟨hs.2, htext⟩⟩
            exact Nat.le_trans (Nat.add_le_add_left hrest _) hs.1
      have htail {l : Lexeme} (hl : lexemes ts = l :: lexemes ts.tail) : ∀ l ∈ lexemes ts.tail, l.IsText :=
        fun l' hl' => ht l' (hl ▸ .tail _ hl')
      revert h
      rw [block]
      split
      all_goals intro h
      case h_1 => exact ⟨Nat.zero_le _, List.forall_mem_nil _⟩
      case h_2 hs =>
        obtain ⟨hrest, htext⟩ := ih h (htail (lexemes_eq hs rfl))
        rw [remaining_eq hs rfl]
        exact ⟨Nat.le_add_left_of_le hrest, htext⟩
      case h_3 hs =>
        have hl := lexemes_eq hs rfl
        rw [remaining, hl]
        exact hstat (declaration_splits _) (declaration_derives _) (declaration_extent (htail hl)) h (hl ▸ ht)
      case h_4 text hs =>
        have hl := lexemes_eq hs rfl
        rw [remaining, hl]
        exact hstat (nameStatement_splits _ _) (nameStatement_derives _ _)
          (nameStatement_extent ⟨text, (head ts).pos⟩ _) h (hl ▸ ht)
      case h_5 hs =>
        have hl := lexemes_eq hs rfl
        rw [remaining, hl]
        refine hstat ?_ ?_ ?_ h (hl ▸ ht)
        · exact (fields_splits _ _).map (fun _ h => h) fun _ h => h
        · exact (fields_derives _ _).map fun _ _ hfs => .construct hfs.table
        · refine (fields_extent _ _).map fun fs r hfs => ⟨?_, trivial⟩
          change fs.extent + 1 + remaining r ≤ 1 + remaining ts.tail
          omega
      case h_6 => exact absurd trivial (h _ (List.mem_singleton_self _))

end Parser

end MiniLua

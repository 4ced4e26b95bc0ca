import MiniLua.Token

/-!
The grammar, as a relation between what stands before and what stands behind a phrase. No phrase has an end of input or
a fault in it, and one that begins with a name or a parenthesis ends before what could be the arguments of a call.
-/

namespace MiniLua.Grammar

/-- Whether arguments of a call could begin here. -/
def opensCall : List Lexeme → Bool
  | .symbol .leftParen :: _ | .string _ :: _ | .symbol .leftBrace :: _ => true
  | _ => false

def isSeparator (l : Lexeme) : Bool := l = .symbol .comma || l = .symbol .semicolon

/-- A number, up to minus signs and parentheses. -/
inductive Number : List Lexeme → List Lexeme → Prop where
  | integer {text i r} : Number (.integer text i :: r) r
  | float {text x r} : Number (.float text x :: r) r
  | minus {ts r} : Number ts r → Number (.symbol .sub :: ts) r
  | paren {ts r} : Number ts (.symbol .rightParen :: r) → Number (.symbol .leftParen :: ts) r

inductive Phrase where
  | exp
  | suffixes
  | table
  | fields
  | field
  | exps
  | args
  | stat
  | block

/-- `Derives p ts r`: the tokens `ts` are a phrase of kind `p` and then `r`. -/
inductive Derives : Phrase → List Lexeme → List Lexeme → Prop where
  | nil_ {r} : Derives .exp (.keyword .nil_ :: r) r
  | true_ {r} : Derives .exp (.keyword .true_ :: r) r
  | false_ {r} : Derives .exp (.keyword .false_ :: r) r
  | integer {text i r} : Derives .exp (.integer text i :: r) r
  | float {text x r} : Derives .exp (.float text x :: r) r
  | string {content r} : Derives .exp (.string content :: r) r
  | table {ts r} : Derives .table ts r → Derives .exp ts r
  | minus {ts r} : Derives .exp ts r → Number ts r → Derives .exp (.symbol .sub :: ts) r
  | name {text ts r} : Derives .suffixes ts r → opensCall r = false → Derives .exp (.name text :: ts) r
  | paren {ts us r} : Derives .exp ts (.symbol .rightParen :: us) → Derives .suffixes us r → opensCall r = false →
      Derives .exp (.symbol .leftParen :: ts) r
  | noSuffix {r} : Derives .suffixes r r
  | member {text ts r} : Derives .suffixes ts r → Derives .suffixes (.symbol .dot :: .name text :: ts) r
  | element {ts us r} : Derives .exp ts (.symbol .rightBracket :: us) → Derives .suffixes us r →
      Derives .suffixes (.symbol .leftBracket :: ts) r
  | emptyTable {r} : Derives .table (.symbol .leftBrace :: .symbol .rightBrace :: r) r
  | fullTable {ts r} : Derives .fields ts (.symbol .rightBrace :: r) → Derives .table (.symbol .leftBrace :: ts) r
  | lastField {ts r} : Derives .field ts r → Derives .fields ts r
  | endedField {l ts r} : Derives .field ts (l :: r) → isSeparator l = true → Derives .fields ts r
  | moreFields {l ts us r} : Derives .field ts (l :: us) → isSeparator l = true → Derives .fields us r →
      Derives .fields ts r
  | keyed {ts us r} : Derives .exp ts (.symbol .rightBracket :: .symbol .assign :: us) → Derives .exp us r →
      Derives .field (.symbol .leftBracket :: ts) r
  | named {text ts r} : Derives .exp ts r → Derives .field (.name text :: .symbol .assign :: ts) r
  | positional {ts r} : Derives .exp ts r → Derives .field ts r
  | lastExp {ts r} : Derives .exp ts r → Derives .exps ts r
  | moreExps {ts us r} : Derives .exp ts (.symbol .comma :: us) → Derives .exps us r → Derives .exps ts r
  | noArgs {r} : Derives .args (.symbol .leftParen :: .symbol .rightParen :: r) r
  | listArgs {ts r} : Derives .exps ts (.symbol .rightParen :: r) → Derives .args (.symbol .leftParen :: ts) r
  | stringArg {content r} : Derives .args (.string content :: r) r
  | tableArg {ts r} : Derives .table ts r → Derives .args ts r
  | semicolon {r} : Derives .stat (.symbol .semicolon :: r) r
  | declare {text r} : Derives .stat (.keyword .local_ :: .name text :: r) r
  | declareAs {text ts r} : Derives .exp ts r →
      Derives .stat (.keyword .local_ :: .name text :: .symbol .assign :: ts) r
  | assign {text ts us r} : Derives .suffixes ts (.symbol .assign :: us) → Derives .exp us r →
      Derives .stat (.name text :: ts) r
  | call {text ts us r} : Derives .suffixes ts us → Derives .args us r → Derives .stat (.name text :: ts) r
  | construct {ts r} : Derives .table ts r → Derives .stat ts r
  | noStat {r} : Derives .block r r
  | moreStats {ts us r} : Derives .stat ts us → Derives .block us r → Derives .block ts r

/-- A program: statements up to the end of the input. -/
def Program (ts : List Lexeme) : Prop := Derives .block ts [.eof]

/-- The fewest tokens that a phrase has. -/
def Phrase.least : Phrase → Nat
  | .suffixes | .block => 0
  | _ => 1

/-- What follows is left when at least `n` tokens are taken away, and scanning went on behind each of them. -/
def Takes (n : Nat) (ts r : List Lexeme) : Prop := ∃ w, ts = w ++ r ∧ n ≤ w.length ∧ ∀ l ∈ w, l.isLast = false

namespace Takes

variable {m n : Nat} {l : Lexeme} {ts us r : List Lexeme}

theorem refl : Takes 0 r r := ⟨[], rfl, Nat.le_refl _, List.forall_mem_nil _⟩

theorem cons (hl : l.isLast = false) (h : Takes n ts r) : Takes (n + 1) (l :: ts) r := by
  obtain ⟨w, rfl, hn, hw⟩ := h
  exact ⟨l :: w, rfl, Nat.succ_le_succ hn, List.forall_mem_cons.mpr ⟨hl, hw⟩⟩

theorem trans (h : Takes m ts us) (h' : Takes n us r) : Takes (m + n) ts r := by
  obtain ⟨w, rfl, hm, hw⟩ := h
  obtain ⟨w', rfl, hn, hw'⟩ := h'
  refine ⟨w ++ w', (List.append_assoc ..).symm, ?_, List.forall_mem_append.mpr ⟨hw, hw'⟩⟩
  rw [List.length_append]
  exact Nat.add_le_add hm hn

theorem mono (h : Takes n ts r) (hm : m ≤ n) : Takes m ts r := by
  obtain ⟨w, rfl, hn, hw⟩ := h
  exact ⟨w, rfl, Nat.le_trans hm hn, hw⟩

theorem length_le (h : Takes n ts r) : r.length + n ≤ ts.length := by
  obtain ⟨w, rfl, hn, -⟩ := h
  rw [List.length_append]
  omega

end Takes

theorem isLast_of_isSeparator {l : Lexeme} (h : isSeparator l = true) : l.isLast = false := by
  cases l with
  | symbol s => rfl
  | eof | fault | name | string | integer | float | keyword => cases h

theorem Derives.takes {p : Phrase} {ts r : List Lexeme} (h : Derives p ts r) : Takes p.least ts r := by
  induction h with
  | nil_ | true_ | false_ | integer | float | string | stringArg | semicolon => exact .cons rfl .refl
  | noSuffix | noStat => exact .refl
  | table _ ih | tableArg _ ih | construct _ ih | lastField _ ih | positional _ ih | lastExp _ ih => exact ih
  | minus _ _ ih => exact (ih.cons rfl).mono (by decide)
  | name _ _ ih => exact ih.cons rfl
  | paren _ _ _ ih ih' => exact ((ih.trans (ih'.cons rfl)).cons rfl).mono (by decide)
  | member _ ih => exact ((ih.cons rfl).cons rfl).mono (by decide)
  | element _ _ ih ih' => exact ((ih.trans (ih'.cons rfl)).cons rfl).mono (by decide)
  | emptyTable | noArgs | declare => exact (Takes.refl.cons rfl |>.cons rfl).mono (by decide)
  | fullTable _ ih | listArgs _ ih => exact ((ih.trans (Takes.refl.cons rfl)).cons rfl).mono (by decide)
  | endedField _ hl ih => exact (ih.trans (Takes.refl.cons (isLast_of_isSeparator hl))).mono (by decide)
  | moreFields _ hl _ ih ih' => exact (ih.trans (ih'.cons (isLast_of_isSeparator hl))).mono (by decide)
  | keyed _ _ ih ih' => exact ((ih.trans ((ih'.cons rfl).cons rfl)).cons rfl).mono (by decide)
  | named _ ih => exact ((ih.cons rfl).cons rfl).mono (by decide)
  | moreExps _ _ ih ih' => exact (ih.trans (ih'.cons rfl)).mono (by decide)
  | declareAs _ ih => exact (((ih.cons rfl).cons rfl).cons rfl).mono (by decide)
  | assign _ _ ih ih' => exact ((ih.trans (ih'.cons rfl)).cons rfl).mono (by decide)
  | call _ _ ih ih' => exact ((ih.trans ih').cons rfl).mono (by decide)
  | moreStats _ _ ih ih' => exact (ih.trans ih').mono (by decide)

/-- No suffix begins here. -/
def endsSuffixes : List Lexeme → Bool
  | .symbol .dot :: _ | .symbol .leftBracket :: _ | .fault _ :: _ => false
  | _ => true

theorem Derives.eq_of_endsSuffixes {ts r : List Lexeme} (h : Derives .suffixes ts r) (hts : endsSuffixes ts = true) :
    r = ts := by
  cases h with
  | noSuffix => rfl
  | member | element => cases hts

/-- Where no suffix begins behind a number, an expression is that number. -/
theorem Number.eq_of_derives {ts r r' : List Lexeme} (h : Number ts r) (hr : endsSuffixes r = true)
    (h' : Derives .exp ts r') : r' = r := by
  induction h generalizing r' with
  | integer =>
      cases h' with
      | integer => rfl
      | table ht => cases ht
  | float =>
      cases h' with
      | float => rfl
      | table ht => cases ht
  | minus _ ih =>
      cases h' with
      | table ht => cases ht
      | minus he _ => exact ih hr he
  | paren _ ih =>
      cases h' with
      | table ht => cases ht
      | paren he hs _ =>
          obtain ⟨-, rfl⟩ := List.cons.inj (ih rfl he)
          exact hs.eq_of_endsSuffixes hr

end MiniLua.Grammar

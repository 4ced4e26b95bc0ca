import MiniLua.Proofs.Grammar.Soundness

/-!
What is derived from the grammar, the parser reads to its end. The fuel it gets is more than twice the number of tokens:
each call takes a token away, or is the first expression of an entry.
-/

namespace MiniLua.Parser

open Grammar

/-- An expression has no suffix here, nor is it assigned to. -/
def endsExp (ts : List Lexeme) : Bool := endsSuffixes ts && ts.head? ≠ some (.symbol .assign)

/-- How the parser reads a phrase. -/
def Reads : Phrase → List Lexeme → List Lexeme → Prop
  | .exp, ls, rs => ∀ ts fuel, lexemes ts = ls → endsSuffixes rs = true → 2 * ts.length < fuel →
      ∃ e r, expression fuel ts = .done e r ∧ lexemes r = rs ∧ (Number ls rs → e.isNumeral = true)
  | .suffixes, ls, rs => ∀ e ts fuel, lexemes ts = ls → endsSuffixes rs = true → 2 * ts.length < fuel →
      ∃ e' r, suffixes fuel e ts = .done e' r ∧ lexemes r = rs ∧ (ls = rs → e' = e)
  | .table, ls, rs => ∀ ts fuel, lexemes ts = ls → 2 * ts.length ≤ fuel →
      ∃ fs r, (head ts).lexeme = .symbol .leftBrace ∧ fields fuel ts.tail = .done fs r ∧ lexemes r = rs
  | .fields, ls, rs => ∀ ts us fuel, lexemes ts = ls → rs = .symbol .rightBrace :: us → 2 * ts.length + 2 ≤ fuel →
      ∃ fs r, fields fuel ts = .done fs r ∧ lexemes r = us
  | .field, ls, rs => ∀ ts fuel, lexemes ts = ls → endsExp rs = true → 2 * ts.length < fuel →
      ∃ wrap r, fields (fuel + 1) ts = (separated fuel r).map wrap ∧ lexemes r = rs
  | .exps, ls, rs => ∀ ts us fuel, lexemes ts = ls → rs = .symbol .rightParen :: us → ts.length ≤ fuel →
      ∃ p r, arguments fuel ts = .done p r ∧ lexemes r = us
  | .args, ls, rs => ∀ ts, lexemes ts = ls →
      ∃ p r, startsCall ts = true ∧ callArguments ts = .done p r ∧ lexemes r = rs
  | .stat, ls, rs => ∀ ts fuel, lexemes ts = ls → endsExp rs = true →
      ∃ b r, block (fuel + 1) ts = b ++ block fuel r ∧ (∀ s ∈ b, s.Whole) ∧ lexemes r = rs
  | .block, ls, rs => ∀ ts fuel, lexemes ts = ls → rs = [.eof] → ts.length < fuel → ∀ s ∈ block fuel ts, s.Whole

variable {l : Lexeme} {ls rs us : List Lexeme} {ts : List Token}

theorem head_of_lexemes (h : lexemes ts = l :: ls) :
    (head ts).lexeme = l ∧ lexemes ts.tail = ls ∧ ts.length = ts.tail.length + 1 := by
  cases ts with
  | nil => cases h
  | cons t ts =>
      obtain ⟨hl, hls⟩ := List.cons.inj h
      exact ⟨hl, hls, rfl⟩

theorem length_le_of_derives {p : Phrase} {r : List Token} (h : Derives p ls rs) (hts : lexemes ts = ls)
    (hr : lexemes r = rs) : r.length + p.least ≤ ts.length := by
  subst hts hr
  simpa only [lexemes, List.length_map] using h.takes.length_le

theorem expect_of_lexemes {s : Symbol} (h : lexemes ts = .symbol s :: ls) : expect s ts = .ok (head ts).pos :=
  if_pos (head_of_lexemes h).1

theorem expectName_of_lexemes {text : Bytes} (h : lexemes ts = .name text :: ls) :
    expectName ts = .ok ⟨text, (head ts).pos⟩ := by
  simp only [expectName, (head_of_lexemes h).1]

theorem asValue_of_lexemes {start : Position} {e : Exp} (h : opensCall (lexemes ts) = false) :
    asValue start e ts = .done e ts := by
  unfold asValue
  rw [if_neg]
  rw [startsCall_eq, h]
  exact Bool.noConfusion

theorem reads_literal (c : Literal) (hn : ∀ pos, Number (l :: rs) rs → (Exp.literal c pos).isNumeral = true)
    (h : ∀ fuel ts, (head ts).lexeme = l → expression (fuel + 1) ts = .done (.literal c (head ts).pos) ts.tail) :
    Reads .exp (l :: rs) rs := by
  intro ts fuel hts hrs hfuel
  obtain ⟨hhead, htail, -⟩ := head_of_lexemes hts
  obtain ⟨fuel, rfl⟩ := Nat.exists_eq_add_of_lt hfuel
  exact ⟨.literal c (head ts).pos, ts.tail, h (2 * ts.length + fuel) ts hhead, htail, hn _⟩

theorem reads_table (hd : Derives .table ls rs) (h : Reads .table ls rs) : Reads .exp ls rs := by
  intro ts fuel hts hrs hfuel
  obtain ⟨fuel, rfl⟩ := Nat.exists_eq_add_of_lt hfuel
  obtain ⟨fs, r, hhead, hfields, hr⟩ := h ts (2 * ts.length + fuel) hts (Nat.le_add_right _ _)
  refine ⟨.table (head ts).pos fs, r, ?_, hr, fun hn => ?_⟩
  · rw [expression]
    simp only [hhead, hfields, Parsed.map]
  · cases hd with
    | emptyTable | fullTable => cases hn

theorem reads_minus (hn : Number ls rs) (h : Reads .exp ls rs) : Reads .exp (.symbol .sub :: ls) rs := by
  intro ts fuel hts hrs hfuel
  obtain ⟨hhead, htail, hlen⟩ := head_of_lexemes hts
  obtain ⟨fuel, rfl⟩ := Nat.exists_eq_add_of_lt hfuel
  obtain ⟨e, r, he, hr, hnum⟩ := h ts.tail (2 * ts.length + fuel) htail hrs (by omega)
  refine ⟨.minus (head ts).pos e, r, ?_, hr, fun _ => hnum hn⟩
  rw [expression]
  simp only [hhead, he, Parsed.andThen, if_pos (hnum hn)]

theorem reads_name {text : Bytes} (hcall : opensCall rs = false) (h : Reads .suffixes ls rs) :
    Reads .exp (.name text :: ls) rs := by
  intro ts fuel hts hrs hfuel
  obtain ⟨hhead, htail, hlen⟩ := head_of_lexemes hts
  obtain ⟨fuel, rfl⟩ := Nat.exists_eq_add_of_lt hfuel
  obtain ⟨e, r, he, hr, -⟩ := h (.var ⟨text, (head ts).pos⟩) ts.tail (2 * ts.length + fuel) htail hrs (by omega)
  refine ⟨e, r, ?_, hr, nofun⟩
  rw [expression]
  simp only [hhead, he, Parsed.andThen]
  exact asValue_of_lexemes (hr ▸ hcall)

theorem reads_paren (hd : Derives .exp ls (.symbol .rightParen :: us)) (hcall : opensCall rs = false)
    (h : Reads .exp ls (.symbol .rightParen :: us)) (hs : Reads .suffixes us rs) :
    Reads .exp (.symbol .leftParen :: ls) rs := by
  intro ts fuel hts hrs hfuel
  obtain ⟨hhead, htail, hlen⟩ := head_of_lexemes hts
  obtain ⟨fuel, rfl⟩ := Nat.exists_eq_add_of_lt hfuel
  obtain ⟨e, r, he, hr, hnum⟩ := h ts.tail (2 * ts.length + fuel) htail rfl (by omega)
  obtain ⟨-, hrtail, hrlen⟩ := head_of_lexemes hr
  have hle := length_le_of_derives hd htail hr
  obtain ⟨e', r', he', hr', hsame⟩ := hs (.paren e (head r).pos) r.tail (2 * ts.length + fuel) hrtail hrs (by omega)
  refine ⟨e', r', ?_, hr', fun hn => ?_⟩
  · rw [expression]
    simp only [hhead, he, expect_of_lexemes hr, he', Parsed.andThen]
    exact asValue_of_lexemes (hr' ▸ hcall)
  · cases hn with
    | paren hn =>
        obtain ⟨-, rfl⟩ := List.cons.inj (hn.eq_of_derives rfl hd)
        rw [hsame rfl]
        exact hnum hn

theorem suffixes_of_ends {e : Exp} (fuel : Nat) (h : endsSuffixes (lexemes ts) = true) :
    suffixes (fuel + 1) e ts = .done e ts := by
  rw [suffixes]
  split
  case h_4 => rfl
  all_goals
    next hl =>
    rw [lexemes_eq hl rfl] at h
    cases h

theorem reads_noSuffix : Reads .suffixes rs rs := by
  intro e ts fuel hts hrs hfuel
  obtain ⟨fuel, rfl⟩ := Nat.exists_eq_add_of_lt hfuel
  exact ⟨e, ts, suffixes_of_ends _ (hts ▸ hrs), hts, fun _ => rfl⟩

theorem reads_member {text : Bytes} (h : Reads .suffixes ls rs) :
    Reads .suffixes (.symbol .dot :: .name text :: ls) rs := by
  intro e ts fuel hts hrs hfuel
  obtain ⟨hhead, htail, hlen⟩ := head_of_lexemes hts
  obtain ⟨-, htail', hlen'⟩ := head_of_lexemes htail
  obtain ⟨fuel, rfl⟩ := Nat.exists_eq_add_of_lt hfuel
  obtain ⟨e', r, he', hr, -⟩ :=
    h (.field e (head ts).pos ⟨text, (head ts.tail).pos⟩) ts.tail.tail (2 * ts.length + fuel) htail' hrs (by omega)
  refine ⟨e', r, ?_, hr, fun heq => ?_⟩
  · rw [suffixes]
    simp only [hhead, expectName_of_lexemes htail, he']
  · rw [← heq] at hrs
    cases hrs

theorem reads_element (hd : Derives .exp ls (.symbol .rightBracket :: us))
    (h : Reads .exp ls (.symbol .rightBracket :: us)) (hs : Reads .suffixes us rs) :
    Reads .suffixes (.symbol .leftBracket :: ls) rs := by
  intro e ts fuel hts hrs hfuel
  obtain ⟨hhead, htail, hlen⟩ := head_of_lexemes hts
  obtain ⟨fuel, rfl⟩ := Nat.exists_eq_add_of_lt hfuel
  obtain ⟨key, r, hkey, hr, -⟩ := h ts.tail (2 * ts.length + fuel) htail rfl (by omega)
  obtain ⟨-, hrtail, hrlen⟩ := head_of_lexemes hr
  have hle := length_le_of_derives hd htail hr
  obtain ⟨e', r', he', hr', -⟩ :=
    hs (.index e (head ts).pos key (head r).pos) r.tail (2 * ts.length + fuel) hrtail hrs (by omega)
  refine ⟨e', r', ?_, hr', fun heq => ?_⟩
  · rw [suffixes]
    simp only [hhead, hkey, expect_of_lexemes hr, he', Parsed.andThen]
  · rw [← heq] at hrs
    cases hrs

theorem reads_emptyTable : Reads .table (.symbol .leftBrace :: .symbol .rightBrace :: rs) rs := by
  intro ts fuel hts hfuel
  obtain ⟨hhead, htail, hlen⟩ := head_of_lexemes hts
  obtain ⟨hhead', htail', hlen'⟩ := head_of_lexemes htail
  obtain ⟨fuel, rfl⟩ : ∃ n, fuel = n + 1 := ⟨fuel - 1, by omega⟩
  refine ⟨.done (head ts.tail).pos, ts.tail.tail, hhead, ?_, htail'⟩
  rw [fields]
  simp only [hhead']

theorem reads_fullTable (h : Reads .fields ls (.symbol .rightBrace :: rs)) :
    Reads .table (.symbol .leftBrace :: ls) rs := by
  intro ts fuel hts hfuel
  obtain ⟨hhead, htail, hlen⟩ := head_of_lexemes hts
  obtain ⟨fs, r, hfs, hr⟩ := h ts.tail rs fuel htail rfl (by omega)
  exact ⟨fs, r, hhead, hfs, hr⟩

theorem separated_of_separator (fuel : Nat) (hl : isSeparator l = true) (h : (head ts).lexeme = l) :
    separated (fuel + 1) ts = fields fuel ts.tail := by
  rw [separated]
  split
  · rfl
  · rfl
  · next h' =>
    rw [← h, h'] at hl
    cases hl
  · next hcomma hsemicolon _ =>
    simp only [isSeparator, Bool.or_eq_true, decide_eq_true_eq] at hl
    rcases hl with rfl | rfl
    · exact absurd h hcomma
    · exact absurd h hsemicolon

theorem endsExp_of_isSeparator (hl : isSeparator l = true) : endsExp (l :: ls) = true := by
  simp only [isSeparator, Bool.or_eq_true, decide_eq_true_eq] at hl
  rcases hl with rfl | rfl <;> rfl

theorem reads_lastField (h : Reads .field ls rs) : Reads .fields ls rs := by
  intro ts us fuel hts hrs hfuel
  subst hrs
  obtain ⟨fuel, rfl⟩ : ∃ n, fuel = n + 2 := ⟨fuel - 2, by omega⟩
  obtain ⟨wrap, r, hfields, hr⟩ := h ts (fuel + 1) hts rfl (by omega)
  obtain ⟨hhead, htail, -⟩ := head_of_lexemes hr
  refine ⟨wrap (.done (head r).pos), r.tail, ?_, htail⟩
  rw [hfields, separated]
  simp only [hhead, Parsed.map]

theorem reads_endedField (hl : isSeparator l = true) (hd : Derives .field ls (l :: rs)) (h : Reads .field ls (l :: rs)) :
    Reads .fields ls rs := by
  intro ts us fuel hts hrs hfuel
  subst hrs
  obtain ⟨fuel, rfl⟩ : ∃ n, fuel = n + 2 := ⟨fuel - 2, by omega⟩
  obtain ⟨wrap, r, hfields, hr⟩ := h ts (fuel + 1) hts (endsExp_of_isSeparator hl) (by omega)
  obtain ⟨hhead, htail, hlen⟩ := head_of_lexemes hr
  obtain ⟨hhead', htail', -⟩ := head_of_lexemes htail
  have hle := length_le_of_derives hd hts hr
  obtain ⟨fuel, rfl⟩ : ∃ n, fuel = n + 1 := ⟨fuel - 1, by omega⟩
  refine ⟨wrap (.done (head r.tail).pos), r.tail.tail, ?_, htail'⟩
  rw [hfields, separated_of_separator _ hl hhead, fields]
  simp only [hhead', Parsed.map]

theorem reads_moreFields (hl : isSeparator l = true) (hd : Derives .field ls (l :: us)) (h : Reads .field ls (l :: us))
    (h' : Reads .fields us rs) : Reads .fields ls rs := by
  intro ts vs fuel hts hrs hfuel
  obtain ⟨fuel, rfl⟩ : ∃ n, fuel = n + 2 := ⟨fuel - 2, by omega⟩
  obtain ⟨wrap, r, hfields, hr⟩ := h ts (fuel + 1) hts (endsExp_of_isSeparator hl) (by omega)
  obtain ⟨hhead, htail, hlen⟩ := head_of_lexemes hr
  have hle : r.length + 1 ≤ ts.length := length_le_of_derives hd hts hr
  obtain ⟨fs, r', hfs, hr'⟩ := h' r.tail vs fuel htail hrs (by omega)
  refine ⟨wrap fs, r', ?_, hr'⟩
  rw [hfields, separated_of_separator _ hl hhead, hfs]
  rfl

theorem endsSuffixes_of_endsExp (h : endsExp rs = true) : endsSuffixes rs = true := (Bool.and_eq_true_iff.mp h).1

theorem reads_keyed (hd : Derives .exp ls (.symbol .rightBracket :: .symbol .assign :: us))
    (h : Reads .exp ls (.symbol .rightBracket :: .symbol .assign :: us)) (h' : Reads .exp us rs) :
    Reads .field (.symbol .leftBracket :: ls) rs := by
  intro ts fuel hts hrs hfuel
  obtain ⟨hhead, htail, hlen⟩ := head_of_lexemes hts
  obtain ⟨key, r, hkey, hr, -⟩ := h ts.tail fuel htail rfl (by omega)
  obtain ⟨-, hr₁, hlen₁⟩ := head_of_lexemes hr
  obtain ⟨-, hr₂, hlen₂⟩ := head_of_lexemes hr₁
  have hle := length_le_of_derives hd htail hr
  obtain ⟨value, r', hvalue, hr', -⟩ := h' r.tail.tail fuel hr₂ (endsSuffixes_of_endsExp hrs) (by omega)
  refine ⟨.keyed (head ts).pos key (head r.tail).pos value, r', ?_, hr'⟩
  rw [fields]
  simp only [hhead, hkey, expect_of_lexemes hr, expect_of_lexemes hr₁, hvalue, Parsed.andThen]

theorem reads_named {text : Bytes} (h : Reads .exp ls rs) : Reads .field (.name text :: .symbol .assign :: ls) rs := by
  intro ts fuel hts hrs hfuel
  obtain ⟨hhead, htail, hlen⟩ := head_of_lexemes hts
  obtain ⟨hhead', htail', hlen'⟩ := head_of_lexemes htail
  obtain ⟨value, r, hvalue, hr, -⟩ := h ts.tail.tail fuel htail' (endsSuffixes_of_endsExp hrs) (by omega)
  refine ⟨.named ⟨text, (head ts).pos⟩ (head ts.tail).pos value, r, ?_, hr⟩
  rw [fields]
  simp only [hhead, hhead', hvalue, Parsed.andThen]

/-- An entry that is an expression is not taken for one with a key. -/
theorem fields_of_exp (fuel : Nat) (h : Derives .exp (lexemes ts) rs) (hrs : endsExp rs = true) :
    fields (fuel + 1) ts = (expression fuel ts).andThen .stop fun e r => (separated fuel r).map (.positional e) := by
  rw [fields]
  split
  case h_6 => rfl
  case h_1 hl | h_2 hl | h_5 hl =>
    rw [lexemes_eq hl rfl] at h
    cases h with
    | table ht => cases ht
  case h_3 hl hl' | h_4 hl hl' =>
    rw [lexemes_eq hl rfl, lexemes_eq hl' rfl] at h
    cases h with
    | table ht => cases ht
    | name hs _ =>
        cases hs with
        | noSuffix => cases hrs

theorem reads_positional (hd : Derives .exp ls rs) (h : Reads .exp ls rs) : Reads .field ls rs := by
  intro ts fuel hts hrs hfuel
  obtain ⟨e, r, he, hr, -⟩ := h ts fuel hts (endsSuffixes_of_endsExp hrs) hfuel
  subst hts
  refine ⟨.positional e, r, ?_, hr⟩
  rw [fields_of_exp fuel hd hrs, he]
  rfl

theorem depth_lt (ts : List Token) : 2 * ts.length < depth ts := by
  unfold depth
  omega

theorem reads_lastExp (hd : Derives .exp ls rs) (h : Reads .exp ls rs) : Reads .exps ls rs := by
  intro ts us fuel hts hrs hfuel
  subst hrs
  obtain ⟨e, r, he, hr, -⟩ := h ts (depth ts) hts rfl (depth_lt ts)
  obtain ⟨hhead, htail, hlen⟩ := head_of_lexemes hr
  have hle := length_le_of_derives hd hts hr
  obtain ⟨fuel, rfl⟩ : ∃ n, fuel = n + 1 := ⟨fuel - 1, by omega⟩
  refine ⟨([e], none), r.tail, ?_, htail⟩
  rw [arguments, he]
  simp only [Parsed.andThen, hhead]

theorem reads_moreExps (hd : Derives .exp ls (.symbol .comma :: us)) (h : Reads .exp ls (.symbol .comma :: us))
    (h' : Reads .exps us rs) : Reads .exps ls rs := by
  intro ts vs fuel hts hrs hfuel
  obtain ⟨e, r, he, hr, -⟩ := h ts (depth ts) hts rfl (depth_lt ts)
  obtain ⟨hhead, htail, hlen⟩ := head_of_lexemes hr
  have hle := length_le_of_derives hd hts hr
  obtain ⟨fuel, rfl⟩ : ∃ n, fuel = n + 1 := ⟨fuel - 1, by omega⟩
  obtain ⟨p, r', hp, hr'⟩ := h' r.tail vs fuel htail hrs (by omega)
  refine ⟨(e :: p.1, p.2), r', ?_, hr'⟩
  rw [arguments, he]
  simp only [Parsed.andThen, hhead, hp, Parsed.map]

theorem reads_noArgs : Reads .args (.symbol .leftParen :: .symbol .rightParen :: rs) rs := by
  intro ts hts
  obtain ⟨hhead, htail, -⟩ := head_of_lexemes hts
  obtain ⟨hhead', htail', -⟩ := head_of_lexemes htail
  exact ⟨([], none), ts.tail.tail, by simp only [startsCall, hhead], by simp only [callArguments, hhead, hhead'], htail'⟩

theorem reads_stringArg {content : Bytes} : Reads .args (.string content :: rs) rs := by
  intro ts hts
  obtain ⟨hhead, htail, -⟩ := head_of_lexemes hts
  exact ⟨_, ts.tail, by simp only [startsCall, hhead], by simp only [callArguments, hhead]; rfl, htail⟩

theorem reads_tableArg (h : Reads .table ls rs) : Reads .args ls rs := by
  intro ts hts
  have hdepth : 2 * ts.length ≤ depth ts.tail := by
    rw [depth, List.length_tail]
    omega
  obtain ⟨fs, r, hhead, hfs, hr⟩ := h ts (depth ts.tail) hts hdepth
  refine ⟨([.table (head ts).pos fs], none), r, by simp only [startsCall, hhead], ?_, hr⟩
  simp only [callArguments, hhead, hfs, Parsed.map]

theorem reads_listArgs (hd : Derives .exps ls (.symbol .rightParen :: rs))
    (h : Reads .exps ls (.symbol .rightParen :: rs)) : Reads .args (.symbol .leftParen :: ls) rs := by
  intro ts hts
  obtain ⟨hhead, htail, -⟩ := head_of_lexemes hts
  obtain ⟨p, r, hp, hr⟩ := h ts.tail rs ts.tail.length htail rfl (Nat.le_refl _)
  refine ⟨p, r, by simp only [startsCall, hhead], ?_, hr⟩
  simp only [callArguments, hhead]
  obtain ⟨us, hexp⟩ : ∃ us, Derives .exp ls us := by
    cases hd with
    | lastExp he => exact ⟨_, he⟩
    | moreExps he _ => exact ⟨_, he⟩
  split
  case h_5 => exact hp
  case h_3 hl _ _ | h_4 hl _ _ =>
    rw [← htail, lexemes_eq hl rfl] at hexp
    cases hexp with
    | table ht => cases ht
  all_goals next hl => cases hl

/-- Goes on behind a statement that is done. -/
theorem goOn_done {p : Parsed Stat} {s : Stat} {r : List Token} (fuel : Nat) (hp : p = .done s r)
    (hsplits : p.Splits Stat.Whole Stat.Broken) :
    goOn (block fuel) p = [s] ++ block fuel r ∧ ∀ s' ∈ [s], s'.Whole := by
  subst hp
  exact ⟨rfl, List.forall_mem_singleton.mpr hsplits⟩

theorem reads_semicolon : Reads .stat (.symbol .semicolon :: rs) rs := by
  intro ts fuel hts hrs
  obtain ⟨hhead, htail, -⟩ := head_of_lexemes hts
  refine ⟨[], ts.tail, ?_, List.forall_mem_nil _, htail⟩
  rw [block]
  simp only [hhead]
  rfl

theorem reads_declare {text : Bytes} : Reads .stat (.keyword .local_ :: .name text :: rs) rs := by
  intro ts fuel hts hrs
  obtain ⟨hhead, htail, -⟩ := head_of_lexemes hts
  obtain ⟨-, htail', -⟩ := head_of_lexemes htail
  have hdone : declaration ts.tail = .done (.declare ⟨text, (head ts.tail).pos⟩ none) ts.tail.tail := by
    simp only [declaration, expectName_of_lexemes htail]
    split
    case h_3 => rfl
    all_goals
      next hl =>
      rw [← htail', lexemes_eq hl rfl] at hrs
      cases hrs
  obtain ⟨hblock, hwhole⟩ := goOn_done fuel hdone (declaration_splits _)
  refine ⟨_, ts.tail.tail, ?_, hwhole, htail'⟩
  rw [block]
  simp only [hhead]
  exact hblock

theorem reads_declareAs {text : Bytes} (h : Reads .exp ls rs) :
    Reads .stat (.keyword .local_ :: .name text :: .symbol .assign :: ls) rs := by
  intro ts fuel hts hrs
  obtain ⟨hhead, htail, hlen⟩ := head_of_lexemes hts
  obtain ⟨-, htail', hlen'⟩ := head_of_lexemes htail
  obtain ⟨hassign, htail'', hlen''⟩ := head_of_lexemes htail'
  have hdepth := depth_lt ts.tail
  obtain ⟨e, r, he, hr, -⟩ := h ts.tail.tail.tail (depth ts.tail) htail'' (endsSuffixes_of_endsExp hrs) (by omega)
  have hdone : declaration ts.tail = .done (.declare ⟨text, (head ts.tail).pos⟩ (some e)) r := by
    simp only [declaration, expectName_of_lexemes htail, hassign, he, Parsed.map]
  obtain ⟨hblock, hwhole⟩ := goOn_done fuel hdone (declaration_splits _)
  refine ⟨_, r, ?_, hwhole, hr⟩
  rw [block]
  simp only [hhead]
  exact hblock

theorem reads_nameStatement {text : Bytes} {s : Stat} {r : List Token} (fuel : Nat) (hts : lexemes ts = .name text :: ls)
    (h : nameStatement ⟨text, (head ts).pos⟩ ts.tail = .done s r) :
    block (fuel + 1) ts = [s] ++ block fuel r ∧ ∀ s' ∈ [s], s'.Whole := by
  obtain ⟨hblock, hwhole⟩ := goOn_done fuel h (nameStatement_splits _ _)
  refine ⟨?_, hwhole⟩
  rw [block]
  simp only [(head_of_lexemes hts).1]
  exact hblock

theorem reads_assign {text : Bytes} (h : Reads .suffixes ls (.symbol .assign :: us)) (h' : Reads .exp us rs) :
    Reads .stat (.name text :: ls) rs := by
  intro ts fuel hts hrs
  obtain ⟨-, htail, -⟩ := head_of_lexemes hts
  obtain ⟨target, r, htarget, hr, -⟩ := h (.var ⟨text, (head ts).pos⟩) ts.tail _ htail rfl (depth_lt ts.tail)
  obtain ⟨hassign, hrtail, -⟩ := head_of_lexemes hr
  obtain ⟨value, r', hvalue, hr', -⟩ := h' r.tail _ hrtail (endsSuffixes_of_endsExp hrs) (depth_lt r.tail)
  have hcall : startsCall r = false := by rw [startsCall_eq, hr]; rfl
  obtain ⟨hblock, hwhole⟩ := reads_nameStatement (s := .assign target value) (r := r') fuel hts (by
    simp only [nameStatement, htarget, Parsed.andThen, hcall, hassign, hvalue, Parsed.map]
    rfl)
  exact ⟨_, r', hblock, hwhole, hr'⟩

theorem reads_call {text : Bytes} (hd : Derives .args us rs) (h : Reads .suffixes ls us) (h' : Reads .args us rs) :
    Reads .stat (.name text :: ls) rs := by
  intro ts fuel hts hrs
  obtain ⟨-, htail, -⟩ := head_of_lexemes hts
  have hus : endsSuffixes us = true := by
    cases hd with
    | noArgs | listArgs | stringArg => rfl
    | tableArg ht =>
        cases ht with
        | emptyTable | fullTable => rfl
  obtain ⟨callee, r, hcallee, hr, -⟩ := h (.var ⟨text, (head ts).pos⟩) ts.tail _ htail hus (depth_lt ts.tail)
  obtain ⟨p, r', hcall, hargs, hr'⟩ := h' r hr
  obtain ⟨hblock, hwhole⟩ := reads_nameStatement (s := .call callee p.1 p.2) (r := r') fuel hts (by
    simp only [nameStatement, hcallee, Parsed.andThen, hcall, hargs, Parsed.map, if_true])
  exact ⟨_, r', hblock, hwhole, hr'⟩

theorem reads_construct (h : Reads .table ls rs) : Reads .stat ls rs := by
  intro ts fuel hts hrs
  obtain ⟨fs, r, hhead, hfs, hr⟩ := h ts (depth ts) hts (Nat.le_of_lt (depth_lt ts))
  have hdone : (fields (depth ts) ts.tail).map (fun fs => Stat.construct (.table (head ts).pos fs)) =
      .done (.construct (.table (head ts).pos fs)) r := by
    rw [hfs]
    rfl
  obtain ⟨hblock, hwhole⟩ := goOn_done fuel hdone ((fields_splits _ _).map (fun _ h => h) fun _ h => h)
  refine ⟨_, r, ?_, hwhole, hr⟩
  rw [block]
  simp only [hhead]
  exact hblock

/-- A statement follows, or the end of the input. -/
theorem endsExp_of_block (h : Derives .block ls [.eof]) : endsExp ls = true := by
  cases h with
  | noStat => rfl
  | moreStats hs _ =>
      cases hs with
      | semicolon | declare | declareAs | assign | call => rfl
      | construct ht =>
          cases ht with
          | emptyTable | fullTable => rfl

theorem reads_moreStats (hd : Derives .stat ls us) (hd' : Derives .block us rs) (h : Reads .stat ls us)
    (h' : Reads .block us rs) : Reads .block ls rs := by
  intro ts fuel hts hrs hfuel
  subst hrs
  obtain ⟨fuel, rfl⟩ : ∃ n, fuel = n + 1 := ⟨fuel - 1, by omega⟩
  obtain ⟨b, r, hblock, hwhole, hr⟩ := h ts fuel hts (endsExp_of_block hd')
  have hle : r.length + 1 ≤ ts.length := length_le_of_derives hd hts hr
  rw [hblock]
  exact List.forall_mem_append.mpr ⟨hwhole, h' r fuel hr rfl (by omega)⟩

theorem reads_noStat : Reads .block rs rs := by
  intro ts fuel hts hrs hfuel
  subst hrs
  obtain ⟨hhead, -, -⟩ := head_of_lexemes hts
  obtain ⟨fuel, rfl⟩ : ∃ n, fuel = n + 1 := ⟨fuel - 1, by omega⟩
  rw [block]
  simp only [hhead]
  exact List.forall_mem_nil _

theorem reads_of_derives {p : Phrase} (h : Derives p ls rs) : Reads p ls rs := by
  induction h with
  | nil_ => exact reads_literal .nil nofun fun _ _ h => by rw [expression]; simp only [h]
  | true_ => exact reads_literal (.bool true) nofun fun _ _ h => by rw [expression]; simp only [h]
  | false_ => exact reads_literal (.bool false) nofun fun _ _ h => by rw [expression]; simp only [h]
  | @integer _ i _ => exact reads_literal (.int i) (fun _ _ => rfl) fun _ _ h => by rw [expression]; simp only [h]
  | @float _ x _ => exact reads_literal (.float x) (fun _ _ => rfl) fun _ _ h => by rw [expression]; simp only [h]
  | @string content _ => exact reads_literal (.str content) nofun fun _ _ h => by rw [expression]; simp only [h]
  | table hd h => exact reads_table hd h
  | minus _ hn h => exact reads_minus hn h
  | name _ hcall h => exact reads_name hcall h
  | paren hd _ hcall h hs => exact reads_paren hd hcall h hs
  | noSuffix => exact reads_noSuffix
  | member _ h => exact reads_member h
  | element hd _ h hs => exact reads_element hd h hs
  | emptyTable => exact reads_emptyTable
  | fullTable _ h => exact reads_fullTable h
  | lastField _ h => exact reads_lastField h
  | endedField hd hl h => exact reads_endedField hl hd h
  | moreFields hd hl _ h h' => exact reads_moreFields hl hd h h'
  | keyed hd _ h h' => exact reads_keyed hd h h'
  | named _ h => exact reads_named h
  | positional hd h => exact reads_positional hd h
  | lastExp hd h => exact reads_lastExp hd h
  | moreExps hd _ h h' => exact reads_moreExps hd h h'
  | noArgs => exact reads_noArgs
  | listArgs hd h => exact reads_listArgs hd h
  | stringArg => exact reads_stringArg
  | tableArg _ h => exact reads_tableArg h
  | semicolon => exact reads_semicolon
  | declare => exact reads_declare
  | declareAs _ h => exact reads_declareAs h
  | assign _ _ h h' => exact reads_assign h h'
  | call _ hd h h' => exact reads_call hd h h'
  | construct _ h => exact reads_construct h
  | noStat => exact reads_noStat
  | moreStats hd hd' h h' => exact reads_moreStats hd hd' h h'

end MiniLua.Parser

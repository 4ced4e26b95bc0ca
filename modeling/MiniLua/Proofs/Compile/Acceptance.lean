import MiniLua.Proofs.Compile.Faults
import MiniLua.Proofs.Grammar.Completeness

/-!
Which sources are compiled: those of programs, unless a limit of the generator is reached or a key cannot be one.
-/

namespace MiniLua

namespace Gen

/-- All faults are found in one stage. -/
def FaultsIn {α : Type} (stage : Stage) (x : GenM α) : Prop := ∀ g f, x.run g = .error f → f.cause.stage = stage

/-- The generator reports no fault of the grammar in a whole program. -/
theorem block_faults {b : Block} (hb : ∀ s ∈ b, s.Whole) : FaultsIn .compile (block b) :=
  block_reports fun s hs => (hb s hs).reports fun _ _ hcause => hcause

end Gen

/-- The last token is the only one behind which scanning does not go on. -/
theorem Scanner.tokens_eq (s : Scanner) : ∃ ts t, s.tokens.1 = ts ++ [t] ∧ t.lexeme.isLast = true ∧
    ∀ t' ∈ ts, t'.lexeme.isLast = false := by
  fun_induction tokens s with
  | case1 s h => exact ⟨[], _, rfl, h, List.forall_mem_nil _⟩
  | case2 s h ts last hrest ih =>
      obtain ⟨us, t, hts, ht, hus⟩ := ih
      rw [hrest] at hts
      exact ⟨_ :: us, t, congrArg _ hts, ht, List.forall_mem_cons.mpr ⟨Bool.eq_false_iff.mpr h, hus⟩⟩

namespace Lexeme

def isFault : Lexeme → Bool
  | fault _ => true
  | _ => false

theorem eq_eof {l : Lexeme} (h : l.isLast = true) (hf : l.isFault = false) : l = eof := by
  cases l with
  | eof => rfl
  | fault => cases hf
  | name | string | integer | float | keyword | symbol => cases h

/-- Two lists that agree up to the first end of the input end there both. -/
theorem eof_unique {w w' r : List Lexeme} (hw : ∀ l ∈ w, l.isLast = false) (hw' : ∀ l ∈ w', l.isLast = false)
    (h : w ++ .eof :: r = w' ++ [.eof]) : r = [] := by
  induction w generalizing w' with
  | nil =>
      cases w' with
      | nil => exact (List.cons.inj h).2
      | cons l w' =>
          obtain ⟨rfl, -⟩ := List.cons.inj h
          cases hw' _ List.mem_cons_self
  | cons l w ih =>
      cases w' with
      | nil =>
          obtain ⟨rfl, -⟩ := List.cons.inj h
          cases hw _ List.mem_cons_self
      | cons l' w' =>
          exact ih (fun a ha => hw a (List.mem_cons_of_mem _ ha)) (fun a ha => hw' a (List.mem_cons_of_mem _ ha))
            (List.cons.inj h).2

end Lexeme

/-- Where the end of the input follows what is taken away, it is all that follows. -/
theorem Grammar.Takes.eq_eof {n : Nat} {us : List Lexeme} {r : List Token}
    (h : Takes n (us ++ [.eof]) (Parser.lexemes r)) (hus : ∀ l ∈ us, l.isLast = false)
    (hr : (Parser.head r).lexeme = .eof) : Parser.lexemes r = [.eof] := by
  obtain ⟨w, hw, -, hlast⟩ := h
  cases r with
  | nil =>
      have heof : Lexeme.eof ∈ us ++ [.eof] := List.mem_append_right _ (List.mem_singleton_self _)
      rw [hw] at heof
      cases hlast _ (by simpa [Parser.lexemes] using heof)
  | cons t r =>
      have hcons : Parser.lexemes (t :: r) = .eof :: Parser.lexemes r := congrArg (· :: _) hr
      rw [hcons] at hw ⊢
      rw [Lexeme.eof_unique hlast hus hw.symm]

theorem eq_error_of_map {α β ε : Type} {x : Except ε α} {u : α → β} {e : ε} (h : x.map u = .error e) :
    x = .error e := by
  cases x with
  | ok a => cases h
  | error e' => exact congrArg Except.error (Except.error.inj h)

/-- A source is refused for the fault that the generator meets. -/
theorem Chunk.compile_error {source name : Bytes} {f : SourceFault} (h : Chunk.compile source name = .error f) :
    let program := Block.ofTokens (Scanner.ofSource source none).tokens.1
    (Gen.block program).run { chunk := { name }, top := 0 } = .error f :=
  eq_error_of_map h

/-- Of the sources without a fault in their tokens, those that are compiled are programs, and a program is compiled or
breaks a rule of the generator, none of the grammar. -/
theorem compile_program {source name : Bytes}
    (h : ∀ t ∈ (Scanner.ofSource source none).tokens.1, t.lexeme.isFault = false) :
    let lexemes := (Scanner.ofSource source none).tokens.1.map Token.lexeme
    ((∃ c, Chunk.compile source name = .ok c) → Grammar.Program lexemes) ∧
      (Grammar.Program lexemes → (∃ c, Chunk.compile source name = .ok c) ∨
        ∃ f, Chunk.compile source name = .error f ∧ f.cause.stage = .compile) := by
  intro lexemes
  constructor
  · rintro ⟨c, hc⟩
    obtain ⟨-, g, hrun, -⟩ := Chunk.compile_ok hc
    obtain ⟨r, hr, heof⟩ := Parser.block_derives (Gen.not_broken_of_block hrun)
    obtain ⟨us, t, hts, hlast, hus⟩ := Scanner.tokens_eq (Scanner.ofSource source none)
    have ht := h t (hts ▸ List.mem_append_right _ (List.mem_singleton_self t))
    have hlexemes : lexemes = us.map Token.lexeme ++ [.eof] := by
      rw [← Lexeme.eq_eof hlast ht]
      exact (congrArg _ hts).trans List.map_append
    have htakes : Grammar.Takes 0 lexemes (Parser.lexemes r) := hr.takes
    rw [hlexemes] at htakes
    have hr' : Grammar.Derives .block lexemes (Parser.lexemes r) := hr
    rwa [htakes.eq_eof (List.forall_mem_map.mpr hus) heof] at hr'
  · intro hprogram
    have hwhole := Parser.reads_of_derives hprogram _ _ rfl rfl (Nat.lt_succ_self _)
    cases hc : Chunk.compile source name with
    | ok c => exact .inl ⟨c, rfl⟩
    | error f => exact .inr ⟨f, rfl, Gen.block_faults hwhole _ f (Chunk.compile_error hc)⟩

theorem compile_program_entries :
    let source := Text.utf8 "local t = {1, x = -(2), [t] = (t).x,} t.x[1] = nil; print(t, {})"
    Grammar.Program ((Scanner.ofSource source none).tokens.1.map Token.lexeme) := by
  intro source
  have hfaults : ∀ t ∈ (Scanner.ofSource source none).tokens.1, t.lexeme.isFault = false := by decide +kernel
  have hok : (Chunk.compile source []).isOk = true := by decide +kernel
  cases hc : Chunk.compile source [] with
  | error f =>
      rw [hc] at hok
      cases hok
  | ok c => exact (compile_program hfaults).1 ⟨c, hc⟩

end MiniLua

import MiniLua.Proofs.Compile.Acceptance
import MiniLua.Proofs.Compile.Unplaced
import MiniLua.Proofs.Scan.Respacing

/-!
Layout does not matter to what is compiled. A source with other layout between its tokens compiles to the same constants,
code and local variables, or is refused for the same reason; only places differ.
-/

namespace MiniLua

namespace Chunk

/-- Two results of compiling that differ in places only. -/
inductive Alike : Except SourceFault Chunk → Except SourceFault Chunk → Prop
  | chunk {c c' : Chunk} (hname : c'.name = c.name) (hconstants : c'.constants = c.constants) (hcode : c'.code = c.code)
      (hlocals : c'.locals.map (fun l => (l.name, l.slot)) = c.locals.map fun l => (l.name, l.slot)) :
      Alike (.ok c) (.ok c')
  | fault {f f' : SourceFault} (hstage : f'.report.stage = f.report.stage)
      (hmessage : f'.report.message = f.report.message) : Alike (.error f) (.error f')

theorem locals_of_unplaced {ls ls' : Array LocalInfo} (h : ls'.map LocalInfo.unplaced = ls.map LocalInfo.unplaced) :
    ls'.map (fun l => (l.name, l.slot)) = ls.map fun l => (l.name, l.slot) := by
  have hpairs := congrArg (Array.map fun l => (l.name, l.slot)) h
  rw [Array.map_map, Array.map_map] at hpairs
  exact hpairs

theorem alike_of_unplaced {r r' : Except SourceFault Chunk}
    (h : unplacedResult unplaced r' = unplacedResult unplaced r) : Alike r r' := by
  cases r with
  | error f =>
      cases r' with
      | error f' =>
          have hf : f'.unplaced = f.unplaced := Except.error.inj h
          obtain ⟨hcause, -⟩ := SourceFault.mk.inj hf
          exact .fault (congrArg Cause.stage hcause) (congrArg Cause.message hcause)
      | ok c' => cases h
  | ok c =>
      cases r' with
      | error f' => cases h
      | ok c' =>
          have hc : c'.unplaced = c.unplaced := Except.ok.inj h
          obtain ⟨hname, hconstants, hcode, hlocals⟩ := Chunk.mk.inj hc
          exact .chunk hname hconstants hcode (locals_of_unplaced hlocals)

theorem alike_of_lexemes {source source' : Bytes} (name : Bytes)
    (h : (Scanner.ofSource source' none).tokens.1.map Token.lexeme =
      (Scanner.ofSource source none).tokens.1.map Token.lexeme) :
    Alike (compile source name) (compile source' name) := by
  have hunplaced (ts : List Token) : ts.map Token.unplaced = (ts.map Token.lexeme).map fun l => ⟨l, .start⟩ := by
    rw [List.map_map]
    rfl
  apply alike_of_unplaced
  rw [compile_unplaced, compile_unplaced, hunplaced, hunplaced, h]

theorem compile_respaced (source name : Bytes) (gaps : List Bytes)
    (hfaults : ∀ t ∈ (Scanner.ofSource source none).tokens.1, t.lexeme.isFault = false)
    (hlength : (Scanner.ofSource source none).tokens.1.length = gaps.length + 1)
    (hgaps : ∀ g ∈ gaps, Scan.IsSpacing g) :
    let source' := Scanner.respaced source gaps
    (Scanner.ofSource source' none).tokens.1.map Token.lexeme =
        (Scanner.ofSource source none).tokens.1.map Token.lexeme ∧
      Alike (compile source name) (compile source' name) := by
  intro source'
  have hlexemes : (Scanner.ofSource source' none).tokens.1.map Token.lexeme =
      (Scanner.ofSource source none).tokens.1.map Token.lexeme := by
    apply Scanner.lexemes_respaced hgaps _ hlength
    intro t ht cause hfault
    have hnot := hfaults t ht
    rw [hfault] at hnot
    cases hnot
  exact ⟨hlexemes, alike_of_lexemes name hlexemes⟩

theorem compile_respaced_comments :
    let source := Text.utf8 "local x=-1"
    let source' := Text.utf8 "local\tx --[=[ ]] ]=]=\n--[x\n- 1\n"
    Alike (compile source []) (compile source' []) := by
  intro source source'
  let gaps := [Text.utf8 "\t", Text.utf8 " --[=[ ]] ]=]", Text.utf8 "\n--[x\n", Text.utf8 " ", Text.utf8 "\n"]
  have hsource' : Scanner.respaced source gaps = source' := by decide +kernel
  have hgaps : ∀ g ∈ gaps, Scan.IsSpacing g := by decide +kernel
  rw [← hsource']
  exact (compile_respaced source [] gaps (by decide +kernel) (by decide +kernel) hgaps).2

end Chunk

end MiniLua

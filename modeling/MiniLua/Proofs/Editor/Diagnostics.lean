import MiniLua.Proofs.Compile.Acceptance
import MiniLua.Proofs.Editor.Occurrences

/-!
Where a source that is refused is said to be wrong. A fault points to a token that the parser has looked at, and what an
editor shows of it starts within a line of the text.
-/

namespace MiniLua

open Text Scanner

/-- A program is refused for what is found at one of its tokens. -/
theorem Gen.fault_pointsTo {us : List Token} {t : Token} {g : Gen} {f : SourceFault} (hl : t.lexeme.isLast = true)
    (h : (block (Block.ofTokens (us ++ [t]))).run g = .error f) : ∃ t' ∈ us ++ [t], f.PointsTo t' := by
  have hends : Parser.Ends (· ∈ us ++ [t]) (us ++ [t]) :=
    .append (fun _ h => List.mem_append_left _ h) (.last (List.mem_append_right _ (List.mem_singleton_self t)) hl)
  exact block_reports (Parser.block_blames _ hends) g f h

/-- A fault that is found with the end of the input, elsewhere, behind some tokens is found at one of these. -/
theorem Gen.fault_pointsTo_before {us : List Token} {p : Position} {g : Gen} {f : SourceFault} (hp : p ≠ f.pos)
    (h : (block (Block.ofTokens (us ++ [⟨.eof, p⟩]))).run g = .error f) : ∃ t ∈ us, f.PointsTo t := by
  obtain ⟨t, ht, hpos, hblames⟩ := fault_pointsTo rfl h
  rcases List.mem_append.mp ht with ht | ht
  · exact ⟨t, ht, hpos, hblames⟩
  · obtain rfl := List.mem_singleton.mp ht
    exact absurd hpos.symm hp

theorem Cause.stage_mem (cause : Cause) : cause.stage ∈ [.lexical, .grammar, .compile] := by
  cases cause with
  | scan => exact .head _
  | expected | unexpected | minusOperand | callAsValue => exact .tail _ (.head _)
  | tooManyConstants | tooManySlots | tooManyLocals | badKey => exact .tail _ (.tail _ (.head _))

namespace Editor

/-- The range starts in a line of the text, at its end at the latest. -/
def Range.StartsIn (text : Bytes) (r : Range) : Prop :=
  ∃ line, (splitAtByte newline text)[r.start.line.toNat]? = some line ∧ r.start.character.toNat ≤ line.length

section

variable (source : Bytes) (o length : Nat)

theorem ofPosition_start :
    let p := Position.ofOffset source o
    let start := (Range.ofPosition p.line p.column length).start
    start.line.toNat = (p.line - 1) % UInt32.size ∧ start.character.toNat = (p.column - 1) % UInt32.size := by
  intro p start
  obtain ⟨hline, hcolumn⟩ := Position.ofOffset_pos source o
  obtain ⟨hstart, hcharacter, -⟩ := ofPosition_toNat hline hcolumn length
  exact ⟨hstart, hcharacter⟩

theorem ofPosition_line_lt :
    let p := Position.ofOffset source o
    (Range.ofPosition p.line p.column length).start.line.toNat < (splitAtByte newline source).length := by
  intro p
  obtain ⟨hlt, -⟩ := List.getElem?_eq_some_iff.mp (Position.ofOffset_line source o).1
  rw [(ofPosition_start source o length).1]
  exact Nat.lt_of_le_of_lt (Nat.mod_le ..) hlt

theorem ofPosition_startsIn (h : (splitAtByte newline source).length ≤ UInt32.size) :
    let p := Position.ofOffset source o
    (Range.ofPosition p.line p.column length).StartsIn source := by
  intro p
  obtain ⟨hline, hcolumn⟩ := Position.ofOffset_line source o
  obtain ⟨hlt, -⟩ := List.getElem?_eq_some_iff.mp hline
  obtain ⟨hstart, hcharacter⟩ := ofPosition_start source o length
  have hle := Nat.mod_le ((Position.ofOffset source o).column - 1) UInt32.size
  rw [← Nat.mod_eq_of_lt (Nat.lt_of_lt_of_le hlt h), ← hstart] at hline
  refine ⟨_, hline, ?_⟩
  rw [hcharacter, List.length_append]
  omega

end

theorem diagnostics_of_error {source uri : Bytes} {f : SourceFault} (h : Chunk.compile source uri = .error f) :
    (analyze uri source).diagnostics = [⟨.ofReport f.report, f.report.stage.name, f.report.message⟩] := by
  rw [analyze, h]
  rfl

theorem ofReport_eq {f : SourceFault} {source : Bytes} {o : Nat} (hpos : f.pos = .ofOffset source o) :
    Range.ofReport f.report = .ofPosition f.pos.line f.pos.column 1 := by
  obtain ⟨hline, hcolumn⟩ := Position.ofOffset_pos source o
  rw [← hpos] at hline hcolumn
  have hline' : ¬ f.report.line ≤ 0 := Int.not_le.mpr (Int.natCast_pos.mpr hline)
  have hcolumn' : max f.report.column 1 = f.pos.column := Int.max_eq_left (Int.natCast_pos.mpr hcolumn)
  rw [Range.ofReport, if_neg hline', hcolumn']
  rfl

end Editor

open Editor

/-- A source is refused at one of its own places: at a token that has been looked at when the fault is known, at the end,
at a comment that is not closed or at a bad escape. There is one diagnostic then, and it starts in a line of the text. -/
theorem fault_points_into_source {source name : Bytes} {f : SourceFault} (h : Chunk.compile source name = .error f) :
    let s := ofSource source none
    let reach i := (s.after i).cursor.pos.offset
    let lines := splitAtByte newline source
    let range := Range.ofPosition f.pos.line f.pos.column 1
    f.report.stage ∈ [.lexical, .grammar, .compile] ∧
      f.report.line = f.pos.line ∧ f.report.column = f.pos.column ∧ f.pos.Marks source ∧
      (∃ i t, s.tokens.1[i]? = some t ∧ f.PointsTo t ∧ Tile source (reach i) (reach (i + 1)) t) ∧
      (∀ n p g, p ≠ f.pos → (Gen.block (Block.ofTokens (s.tokens.1.take n ++ [⟨.eof, p⟩]))).run g = .error f →
        ∃ t ∈ s.tokens.1.take n, f.PointsTo t) ∧
      (analyze name source).diagnostics = [⟨range, f.report.stage.name, f.report.message⟩] ∧
      range.start.line.toNat < lines.length ∧ (lines.length ≤ UInt32.size → range.StartsIn source) := by
  intro s reach lines range
  obtain ⟨us, last, hts, hlast, -⟩ := tokens_eq s
  obtain ⟨t, ht, hpoints⟩ : ∃ t ∈ s.tokens.1, f.PointsTo t := by
    have hrun := Chunk.compile_error h
    rw [hts] at hrun ⊢
    exact Gen.fault_pointsTo hlast hrun
  obtain ⟨i, hi⟩ := List.mem_iff_getElem?.mp ht
  have htile := tile_getElem? hi
  obtain ⟨o, -, ho, -⟩ := (ofSource_reads source).place ht
  have hpos : f.pos = .ofOffset source o := hpoints.1.trans ho
  have hmarks : f.pos.Marks source := hpoints.1 ▸ htile.marks
  have hrange : range = .ofPosition (Position.ofOffset source o).line (Position.ofOffset source o).column 1 := by
    rw [← hpos]
  refine ⟨f.cause.stage_mem, rfl, rfl, hmarks, ⟨i, t, hi, hpoints, htile⟩, ?_, ?_, ?_⟩
  · intro n p g hp hrun
    exact Gen.fault_pointsTo_before hp hrun
  · rw [diagnostics_of_error h, ofReport_eq hpos]
  · rw [hrange]
    exact ⟨ofPosition_line_lt source o 1, ofPosition_startsIn source o 1⟩

/-- A key is refused at its bracket in the second line, whatever follows the sign of equality. -/
theorem fault_points_into_source_key :
    let source := utf8 "t = \x7b\n  [nil] = 1\x7d x y"
    let tokens := (ofSource source none).tokens.1
    let f : SourceFault := ⟨.badKey .nil, ⟨8, 2, 3⟩⟩
    Chunk.compile source [] = .error f ∧ f.report.stage = .compile ∧ f.pos.Marks source ∧
      (∃ t ∈ tokens.take 7, f.PointsTo t) ∧
      (analyze [] source).diagnostics = [⟨⟨⟨1, 2⟩, ⟨1, 3⟩⟩, utf8 "COMPILE", utf8 "table index is nil"⟩] ∧
      Range.StartsIn source ⟨⟨1, 2⟩, ⟨1, 3⟩⟩ := by
  intro source tokens f
  have h : Chunk.compile source [] = .error f := eq_error_of_map (u := fun _ => ()) (by decide +kernel)
  have hbegun : (Gen.block (Block.ofTokens (tokens.take 7 ++ [⟨.eof, .start⟩]))).run ⟨{ name := [] }, 0⟩ = .error f :=
    eq_error_of_map (u := fun _ => ()) (by decide +kernel)
  obtain ⟨-, -, -, hmarks, -, hbefore, hdiagnostics, -, hstarts⟩ := fault_points_into_source h
  exact ⟨h, rfl, hmarks, hbefore 7 .start _ (by decide) hbegun, hdiagnostics, hstarts (by decide +kernel)⟩

end MiniLua

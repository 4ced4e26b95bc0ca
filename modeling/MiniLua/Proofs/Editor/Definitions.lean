import MiniLua.Proofs.Compile.Visits
import MiniLua.Proofs.Scan.Sequence

/-!
Declarations of variables, as the generator resolves them and as the editor looks them up. The editor goes by lines: it
is right exactly where no declaration of the name that comes later stands in the line of the variable or above.
-/

namespace MiniLua

open Editor

/-- The local that an operand stands for. -/
def Operand.local? (c : Chunk) : Operand → Option LocalInfo
  | .slot s => c.locals.toList.find? (·.slot.toInt == s)
  | _ => none

namespace Locals.Numbered

variable {infos earlier later : List LocalInfo} {l : LocalInfo}

theorem eq_of_slot_eq (h : Numbered infos) {l' : LocalInfo} (hl : l ∈ infos) (hl' : l' ∈ infos)
    (hslot : l.slot.toInt = l'.slot.toInt) : l = l' := by
  obtain ⟨i, hi⟩ := List.mem_iff_getElem?.mp hl
  obtain ⟨j, hj⟩ := List.mem_iff_getElem?.mp hl'
  rw [h i l hi, h j l' hj] at hslot
  obtain rfl : i = j := Int.ofNat.inj hslot
  exact Option.some.inj (hi.symm.trans hj)

theorem not_mem_later (h : Numbered (earlier ++ later)) (hl : l ∈ earlier) : l ∉ later := by
  intro hl'
  obtain ⟨i, hi⟩ := List.mem_iff_getElem?.mp hl
  obtain ⟨j, hj⟩ := List.mem_iff_getElem?.mp hl'
  have hlt := (List.getElem?_eq_some_iff.mp hi).1
  have hfirst := h i l ((List.getElem?_append_left hlt).trans hi)
  have hsecond := h (earlier.length + j) l (by
    rw [List.getElem?_append_right (Nat.le_add_right ..), Nat.add_sub_cancel_left, hj])
  omega

end Locals.Numbered

theorem Operand.local?_slot {c : Chunk} {l : LocalInfo} (h : Locals.Numbered c.locals.toList)
    (hl : l ∈ c.locals.toList) : (Operand.slot l.slot.toInt).local? c = some l := by
  cases hfind : c.locals.toList.find? (·.slot.toInt == l.slot.toInt) with
  | none => exact absurd (beq_self_eq_true _) (List.find?_eq_none.mp hfind l hl)
  | some l' =>
      have hslot : l'.slot.toInt = l.slot.toInt := by simpa using List.find?_some hfind
      rw [Operand.local?, hfind, h.eq_of_slot_eq (List.mem_of_find?_eq_some hfind) hl hslot]

namespace Editor

theorem find?_named_above {ls : List LocalInfo} {n : Bytes} {line : Int} (hline : ∀ l ∈ ls, l.line.toInt ≤ line) :
    ls.find? (fun l => l.name == n && decide (l.line.toInt ≤ line)) = ls.find? (·.name == n) := by
  induction ls with
  | nil => rfl
  | cons l ls ih =>
      obtain ⟨hl, hls⟩ := List.forall_mem_cons.mp hline
      rw [List.find?_cons, List.find?_cons, ih hls, decide_eq_true hl, Bool.and_true]

/-- The last local of a name among the earlier ones is what is looked up, exactly if no later one of the name stands in
the line or above. -/
theorem lookupLocal_eq_iff {c : Chunk} {earlier later : List LocalInfo} {n : Bytes} {line : Int}
    (h : Locals.Numbered c.locals.toList) (hc : c.locals.toList = earlier ++ later)
    (hline : ∀ l ∈ earlier, l.line.toInt ≤ line) :
    lookupLocal c n line = earlier.reverse.find? (·.name == n) ↔ ∀ l ∈ later, l.name = n → line < l.line.toInt := by
  have hlookup : lookupLocal c n line =
      (later.reverse.find? fun l => l.name == n && decide (l.line.toInt ≤ line)).or
        (earlier.reverse.find? (·.name == n)) := by
    rw [lookupLocal, hc, List.reverse_append, List.find?_append,
      find?_named_above fun l hl => hline l (List.mem_reverse.mp hl)]
  rw [hlookup]
  cases hfind : later.reverse.find? fun l => l.name == n && decide (l.line.toInt ≤ line) with
  | none =>
      refine iff_of_true rfl fun l hl hn => ?_
      have hnot := List.find?_eq_none.mp hfind l (List.mem_reverse.mpr hl)
      simpa [hn] using hnot
  | some l =>
      have hl := List.mem_reverse.mp (List.mem_of_find?_eq_some hfind)
      have hfound : l.name = n ∧ l.line.toInt ≤ line := by simpa using List.find?_some hfind
      refine iff_of_false (fun heq => ?_) fun hlater => ?_
      · have hmem := List.mem_reverse.mp (List.mem_of_find?_eq_some heq.symm)
        exact (hc ▸ h).not_mem_later hmem hl
      · exact absurd (hlater l hl hfound.1) (Int.not_lt.mpr hfound.2)

/-- A name is resolved to the last local of its text, or as a global if there is none. -/
theorem resolve_local? {c : Chunk} {v : Name} {s s' : Gen} {op : Operand} (h : Locals.Numbered c.locals.toList)
    (hs : s.chunk.locals.toList <+: c.locals.toList) (hrun : (Gen.resolve v).run s = .ok (op, s')) :
    ((∃ k, op = .global k) ∨ ∃ l, op = .slot l.slot.toInt ∧ op.local? c = some l ∧ l.name = v.text) ∧
      op.local? c = s.chunk.locals.toList.reverse.find? (·.name == v.text) := by
  rw [Gen.resolve, Gen.run_get_bind] at hrun
  split at hrun
  · next l hfind =>
    obtain ⟨rfl, rfl⟩ := Gen.run_pure_ok.mp hrun
    have hl := List.mem_reverse.mp (List.mem_of_find?_eq_some hfind)
    have hlocal := Operand.local?_slot h (hs.subset hl)
    have hname : l.name = v.text := by simpa using List.find?_some hfind
    exact ⟨.inr ⟨l, rfl, hlocal, hname⟩, by rw [hlocal, hfind]⟩
  · next hfind =>
    obtain ⟨k, g₁, -, hrun⟩ := Gen.run_bind_ok hrun
    obtain ⟨rfl, rfl⟩ := Gen.run_pure_ok.mp hrun
    exact ⟨.inl ⟨k, rfl⟩, hfind.symm⟩

end Editor

/-- Names stand in the lines of their tokens, one below the other. -/
theorem names_pairwise_line (source : Bytes) :
    ((Scanner.ofSource source none).tokens.1.filterMap Token.name?).Pairwise fun n n' => n.pos.line ≤ n'.pos.line := by
  apply (Scanner.ofSource_reads source).pairwise_line.filterMap
  intro t t' hle n hn n' hn'
  rwa [← (Token.of_name? hn).2, ← (Token.of_name? hn').2]

theorem name_line_le {source : Bytes} {n : Name} (h : n ∈ (Scanner.ofSource source none).tokens.1.filterMap Token.name?) :
    n.pos.line ≤ source.length := by
  obtain ⟨t, ht, hn⟩ := List.mem_filterMap.mp h
  obtain ⟨hname, hpos⟩ := Token.of_name? hn
  obtain ⟨o, -, ho, -, hlt⟩ := (Scanner.ofSource_reads source).place ht
  have hcount : (source.take o).count Text.newline ≤ o :=
    Nat.le_trans List.count_le_length (List.length_take_le ..)
  have hsome := hlt (by rw [hname]; rfl)
  rw [← hpos, ho, Position.line_ofOffset]
  omega

/-- The locals that a variable sees are declared in its line or above. -/
theorem line_le_of_scoped {source name : Bytes} {c : Chunk} {v : Name} {s g' : Gen} {l : LocalInfo}
    (hlen : source.length < 0x8000000000000000) (h : Chunk.compile source name = .ok c)
    (hv : Gen.Scoped (Block.ofTokens (Scanner.ofSource source none).tokens.1) { chunk := { name }, top := 0 } g' v s)
    (hl : l ∈ s.chunk.locals) : l.line.toInt ≤ v.pos.line := by
  obtain ⟨before, st, after, hsplit, hmem, hscope⟩ := hv.split
  obtain ⟨st', hst', d, hd, i, rfl⟩ := (hscope l hl).resolve_left (by simp)
  have hdeclared : d ∈ (before.flatMap Stat.mentions).map Mention.name := by
    rw [List.map_flatMap]
    exact List.mem_flatMap.mpr ⟨st', hst', Stat.mem_names_of_declared hd⟩
  have hvariable : v ∈ ((st :: after).flatMap Stat.mentions).map Mention.name := by
    rw [List.map_flatMap]
    exact List.mem_flatMap.mpr ⟨st, List.mem_cons_self, Stat.mem_names_of_variable hmem⟩
  -- Both names are tokens of the source, and the declared one comes first, since its statement does.
  have hnames := mentions_of_compile h
  dsimp only at hnames
  rw [hsplit, Block.mentions, List.flatMap_append, List.map_append] at hnames
  have horder := names_pairwise_line source
  have hbound : d.pos.line ≤ source.length := name_line_le (hnames ▸ List.mem_append_left _ hdeclared)
  rw [← hnames] at horder
  have hle := (List.pairwise_append.mp horder).2.2 d hdeclared v hvariable
  rw [Gen.entry, Int64.toInt_ofNat_of_lt (by omega)]
  omega

/-- Where the generator resolves a variable to a local or a global, looking up the name in its line finds that local, or
none, exactly if no local of the name that is declared later stands in the line or above. -/
theorem lookupLocal_eq_resolved_iff {source name : Bytes} {c : Chunk} (hlen : source.length < 0x8000000000000000)
    (h : Chunk.compile source name = .ok c) :
    let tokens := (Scanner.ofSource source none).tokens.1
    let program := Block.ofTokens tokens
    let start : Gen := { chunk := { name }, top := 0 }
    program.mentions.map Mention.name = tokens.filterMap Token.name? ∧
      (∀ v, v ∈ program.mentions.filterMap Mention.varName? ↔ ∃ s, program.Visits v s start) ∧
      ∀ v s, program.Visits v s start → s.chunk.locals.toList <+: c.locals.toList ∧
        ∃ op s', (Gen.resolve v).run s = .ok (op, s') ∧
          ((∃ k, op = .global k) ∨ ∃ l, op = .slot l.slot.toInt ∧ op.local? c = some l ∧ l.name = v.text) ∧
          (lookupLocal c v.text v.pos.line = op.local? c ↔
            ∀ l ∈ c.locals.toList.drop s.chunk.locals.size, l.name = v.text → v.pos.line < l.line.toInt) := by
  intro tokens program start
  obtain ⟨hwhole, g, hrun, rfl⟩ := Chunk.compile_ok h
  have hstart := Gen.clear_start name
  have hnumbered := (Gen.block_locals hwhole hstart hrun).2.numbered
  refine ⟨mentions_of_compile h, fun v => Gen.block_visits_iff hwhole hstart hrun, fun v s hv => ?_⟩
  have hscoped := Gen.block_scoped hwhole hstart hrun hv
  obtain ⟨op, s', hresolve⟩ := hscoped.resolves
  obtain ⟨hop, hlocal⟩ := resolve_local? hnumbered hscoped.locals hresolve
  refine ⟨hscoped.locals, op, s', hresolve, hop, ?_⟩
  obtain ⟨later, hlater⟩ := hscoped.locals
  have hdrop : g.chunk.locals.toList.drop s.chunk.locals.size = later := by
    rw [← hlater, ← Array.length_toList, List.drop_left]
  rw [hlocal, hdrop]
  exact lookupLocal_eq_iff hnumbered hlater.symm fun l hl => line_le_of_scoped hlen h hscoped (Array.mem_toList_iff.mp hl)

/-- The variable in the second line; the local of the third line is declared later. -/
theorem lookupLocal_eq_resolved_iff_shadowed :
    let source := Text.utf8 "local x = y\nprint(x)\nlocal x = x"
    let program := Block.ofTokens (Scanner.ofSource source none).tokens.1
    let start : Gen := { chunk := { name := [] }, top := 0 }
    let v : Name := ⟨Text.utf8 "x", ⟨18, 2, 7⟩⟩
    ∃ c s op s', Chunk.compile source [] = .ok c ∧ program.Visits v s start ∧ (Gen.resolve v).run s = .ok (op, s') ∧
      (lookupLocal c v.text v.pos.line = op.local? c ↔
        ∀ l ∈ c.locals.toList.drop s.chunk.locals.size, l.name = v.text → v.pos.line < l.line.toInt) := by
  intro source program start v
  have hok : (Chunk.compile source []).isOk = true := by decide +kernel
  cases hc : Chunk.compile source [] with
  | error f =>
      rw [hc] at hok
      cases hok
  | ok c =>
      obtain ⟨-, hvisits, hresolved⟩ := lookupLocal_eq_resolved_iff (by decide +kernel) hc
      obtain ⟨s, hs⟩ := (hvisits v).mp (by decide +kernel)
      obtain ⟨-, op, s', hrun, -, hiff⟩ := hresolved v s hs
      exact ⟨c, s, op, s', rfl, hs, hrun, hiff⟩

/-- The variable in the initializer of a local of its own name is a global, and the local is found. -/
theorem lookupLocal_ne_resolved :
    let source := Text.utf8 "local x = x"
    let start : Gen := { chunk := { name := [] }, top := 0 }
    let v : Name := ⟨Text.utf8 "x", ⟨10, 1, 11⟩⟩
    (Block.ofTokens (Scanner.ofSource source none).tokens.1).Visits v start start ∧
      (∃ k s', (Gen.resolve v).run start = .ok (.global k, s')) ∧
      ∃ c, Chunk.compile source [] = .ok c ∧
        lookupLocal c v.text v.pos.line = some (Gen.entry ⟨v.text, ⟨6, 1, 7⟩⟩ 0) := by
  intro source start v
  refine ⟨?_, ?_, ?_⟩
  · have htokens : (Scanner.ofSource source none).tokens.1 =
        [⟨.keyword .local_, ⟨0, 1, 1⟩⟩, ⟨.name v.text, ⟨6, 1, 7⟩⟩, ⟨.symbol .assign, ⟨8, 1, 9⟩⟩, ⟨.name v.text, v.pos⟩,
          ⟨.eof, ⟨11, 1, 12⟩⟩] := by
      decide +kernel
    rw [htokens]
    exact .inl ⟨rfl, rfl⟩
  · have hglobal : ((Gen.resolve v).run start).toOption.map Prod.fst = some (.global 0) := by decide +kernel
    cases hrun : (Gen.resolve v).run start with
    | error f =>
        rw [hrun] at hglobal
        cases hglobal
    | ok r =>
        rw [hrun] at hglobal
        obtain ⟨op, s'⟩ := r
        obtain rfl : op = .global 0 := Option.some.inj hglobal
        exact ⟨0, s', rfl⟩
  · have hlookup : ((Chunk.compile source []).toOption.bind (lookupLocal · v.text v.pos.line)) =
        some (Gen.entry ⟨v.text, ⟨6, 1, 7⟩⟩ 0) := by
      decide +kernel
    cases hc : Chunk.compile source [] with
    | error f =>
        rw [hc] at hlookup
        cases hlookup
    | ok c =>
        rw [hc] at hlookup
        exact ⟨c, rfl, hlookup⟩

end MiniLua

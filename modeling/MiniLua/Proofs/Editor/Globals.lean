import MiniLua.Proofs.Compile.Names
import MiniLua.Proofs.Editor.Footprint

/-!
The globals of a chunk are the free variables of its source.
-/

namespace MiniLua

open Editor

namespace Editor

theorem pairwise_lt_eraseDups {ns : List Bytes} (h : ns.Pairwise (· ≤ ·)) : ns.eraseDups.Pairwise (· < ·) := by
  -- The recursion drops the later copies of the head, so the induction is on the length.
  induction hn : ns.length using Nat.strongRecOn generalizing ns with
  | _ n ih =>
    cases ns with
    | nil => exact .nil
    | cons a ns =>
        have hle := List.pairwise_cons.mp h
        have hlt : (ns.filter fun b => !b == a).length < n := by
          have := List.length_filter_le (fun b => !b == a) ns
          rw [← hn, List.length_cons]
          omega
        rw [List.eraseDups_cons]
        refine List.pairwise_cons.mpr ⟨fun b hb => ?_, ih _ hlt (hle.2.filter _) rfl⟩
        obtain ⟨hmem, hne⟩ := List.mem_filter.mp (List.mem_eraseDups.mp hb)
        have hab : b ≠ a := by simpa using hne
        exact Std.lt_of_le_of_ne (hle.1 b hmem) hab.symm

theorem globalNames_ascending (c : Chunk) : (globalNames c).Pairwise (· < ·) := by
  apply pairwise_lt_eraseDups
  have htrans (a b d : Bytes) (hab : decide (a ≤ b) = true) (hbd : decide (b ≤ d) = true) : decide (a ≤ d) = true :=
    decide_eq_true (List.le_trans (of_decide_eq_true hab) (of_decide_eq_true hbd))
  have htotal (a b : Bytes) : (decide (a ≤ b) || decide (b ≤ a)) = true := by simpa using List.le_total a b
  have hsorted := List.pairwise_mergeSort htrans htotal
    ((c.code.toList.flatMap globalOperands).filterMap (stringConstant? c))
  exact hsorted.imp of_decide_eq_true

end Editor

/-- The globals of a chunk are its free variables, in ascending order: each name token of the source is a variable, a field,
a key or a declared name, and a global is a variable that no statement before it declares. -/
theorem globalNames_free {source name : Bytes} {c : Chunk} (h : Chunk.compile source name = .ok c) :
    let tokens := (Scanner.ofSource source none).tokens.1
    let program := Block.ofTokens tokens
    program.mentions.map Mention.name = tokens.filterMap Token.name? ∧
      (globalNames c).Pairwise (· < ·) ∧ ∀ n, n ∈ globalNames c ↔ program.Free n := by
  intro tokens program
  obtain ⟨hwhole, g, hrun, rfl⟩ := Chunk.compile_ok h
  refine ⟨mentions_of_compile h, globalNames_ascending _, fun n => ?_⟩
  obtain ⟨is, hfollows, hn⟩ := Gen.block_globals hwhole (Gen.clear_start name) hrun
  have hcode : is = g.chunk.code.toList := by simpa using hfollows.code.symm
  rw [mem_globalNames, ← hcode]
  exact (hn g.chunk (fun _ _ hk => hk) n).trans (and_iff_right (by simp))

theorem globalNames_free_shadowed :
    let source := Text.utf8 "local x = x; x.a = y[(x)]; local y = y; b = {y, c = d, [e] = y.f}; g(h, {i})"
    let program := Block.ofTokens (Scanner.ofSource source none).tokens.1
    ∃ c, Chunk.compile source [] = .ok c ∧ (globalNames c).Pairwise (· < ·) ∧
      ∀ n, n ∈ globalNames c ↔ program.Free n := by
  intro source program
  have hok : (Chunk.compile source []).isOk = true := by decide +kernel
  cases hc : Chunk.compile source [] with
  | error f =>
      rw [hc] at hok
      cases hok
  | ok c => exact ⟨c, rfl, (globalNames_free hc).2⟩

end MiniLua

import MiniLua.Listing
import MiniLua.Machine.Step
import MiniLua.Proofs.Text.Decimals
import MiniLua.Proofs.Text.Lines

/-!
The line of an instruction tells what it does. The words of the line are the name of the operation and the operands in
use, and an instruction reads no others.
-/

namespace MiniLua

open Text

namespace Text

/-- What stands between blanks. -/
def words (bs : Bytes) : List Bytes := (splitAtByte space bs).filter (!·.isEmpty)

def IsWord (w : Bytes) : Prop := w ≠ [] ∧ space ∉ w

theorem words_append_space (a b : Bytes) : words (a ++ space :: b) = words a ++ words b := by
  simp [words, splitAtByte_append]

theorem words_word {w : Bytes} (h : IsWord w) : words w = [w] := by
  simp [words, splitAtByte_of_notMem h.2, h.1]

theorem words_blanks (n : Nat) : words (List.replicate n space) = [] := by
  induction n with
  | zero => rfl
  | succ n ih =>
      have h := words_append_space [] (List.replicate n space)
      rwa [ih] at h

theorem words_append_blanks (a : Bytes) (n : Nat) : words (a ++ List.replicate n space) = words a := by
  cases n with
  | zero => simp
  | succ n => rw [List.replicate_succ, words_append_space, words_blanks, List.append_nil]

theorem words_trimRight (bs : Bytes) : words (trimRight (· == space) bs) = words bs := by
  have hblanks : bs.reverse.takeWhile (· == space) = List.replicate (bs.reverse.takeWhile (· == space)).length space :=
    List.eq_replicate_of_mem fun b hb => by simpa using List.all_eq_true.mp List.all_takeWhile b hb
  have hbs : bs = trimRight (· == space) bs ++ (bs.reverse.takeWhile (· == space)).reverse := by
    rw [trimRight, ← List.reverse_append, List.takeWhile_append_dropWhile, List.reverse_reverse]
  rw [hblanks, List.reverse_replicate] at hbs
  conv => rhs; rw [hbs]
  rw [words_append_blanks]

theorem words_flatMap (a : Bytes) {ws : List Bytes} (h : ∀ w ∈ ws, IsWord w) :
    words (a ++ ws.flatMap (space :: ·)) = words a ++ ws := by
  induction ws generalizing a with
  | nil => simp
  | cons w ws ih =>
      obtain ⟨hw, hws⟩ := List.forall_mem_cons.mp h
      rw [List.flatMap_cons, List.cons_append, words_append_space, ih w hws, words_word hw]
      rfl

theorem isWord_decimal (n : Nat) : IsWord (decimal n) := by
  refine ⟨decimal_ne_nil n, fun h => ?_⟩
  exact absurd (isDigit_of_mem_decimal h) (by decide)

theorem isWord_integer (x : Int) : IsWord (integer x) := by
  cases x with
  | ofNat n => exact isWord_decimal n
  | negSucc n => exact ⟨by simp [integer], by simpa [integer, space] using (isWord_decimal (n + 1)).2⟩

end Text

namespace Opcode

/-- A left inverse of the mnemonics, so that no two operations share one. -/
def ofMnemonic? (name : Bytes) : Option Opcode := all.find? fun o => utf8 o.mnemonic == name

theorem ofMnemonic?_mnemonic (o : Opcode) : ofMnemonic? (utf8 o.mnemonic) = some o := by cases o <;> decide

theorem isWord_mnemonic (o : Opcode) : IsWord (utf8 o.mnemonic) := by
  cases o <;> exact ⟨by decide, by decide⟩

theorem mnemonic_ne_unknown (o : Opcode) (r : Bytes) : utf8 o.mnemonic ≠ utf8 "UNKNOWN(0x" ++ r := by
  -- No mnemonic starts with a U.
  have hhead : (utf8 o.mnemonic).head? ≠ some 0x55 := by cases o <;> decide
  intro h
  rw [h] at hhead
  exact hhead rfl

theorem code_of_ofCode? {b : UInt8} {o : Opcode} (h : ofCode? b = some o) : o.code = b := by
  simpa using List.find?_some h

end Opcode

namespace Instruction

theorem hexByte_upper_injective {a b : UInt8} (h : (hexByte a).map upperByte = (hexByte b).map upperByte) : a = b := by
  have hdigit : ∀ d : Fin 16, hexValue (upperByte (hexDigit d)) = d := by decide
  have hvalue {n : Nat} (hn : n < 16) : hexValue (upperByte (hexDigit n)) = n := hdigit ⟨n, hn⟩
  have ha := a.toNat_lt
  have hb := b.toNat_lt
  simp only [hexByte, List.map_cons, List.map_nil, List.cons.injEq] at h
  have hhigh := congrArg hexValue h.1
  have hlow := congrArg hexValue h.2.1
  rw [hvalue (by omega), hvalue (by omega)] at hhigh hlow
  apply UInt8.toNat_inj.mp
  omega

theorem opName_injective {a b : UInt8} (h : opName a = opName b) : a = b := by
  unfold opName at h
  cases ha : Opcode.ofCode? a with
  | some o =>
      cases hb : Opcode.ofCode? b with
      | some o' =>
          simp only [ha, hb] at h
          have hname := congrArg Opcode.ofMnemonic? h
          simp only [Opcode.ofMnemonic?_mnemonic, Option.some.injEq] at hname
          rw [← Opcode.code_of_ofCode? ha, ← Opcode.code_of_ofCode? hb, hname]
      | none =>
          simp only [ha, hb, List.append_assoc] at h
          exact absurd h (o.mnemonic_ne_unknown _)
  | none =>
      cases hb : Opcode.ofCode? b with
      | some o =>
          simp only [ha, hb, List.append_assoc] at h
          exact absurd h.symm (o.mnemonic_ne_unknown _)
      | none =>
          simp only [ha, hb, List.append_assoc, List.append_cancel_left_eq] at h
          exact hexByte_upper_injective (List.append_cancel_right h)

theorem isWord_opName (op : UInt8) : IsWord (opName op) := by
  rw [opName]
  cases Opcode.ofCode? op with
  | some o => exact o.isWord_mnemonic
  | none =>
      have hdigit : ∀ d : Fin 16, upperByte (hexDigit d) ≠ space := by decide
      have hupper {n : Nat} (hn : n < 16) : space ≠ upperByte (hexDigit n) := (hdigit ⟨n, hn⟩).symm
      have hop := op.toNat_lt
      have hhex : space ∉ (hexByte op).map upperByte := by
        simp [hexByte, hupper (show op.toNat / 16 < 16 by omega), hupper (show op.toNat % 16 < 16 by omega)]
      have hopening : space ∉ utf8 "UNKNOWN(0x" := by decide
      have hclosing : space ∉ utf8 ")" := by decide
      refine ⟨?_, by simp [hhex, hopening, hclosing]⟩
      exact List.append_ne_nil_of_left_ne_nil (List.append_ne_nil_of_left_ne_nil (by decide) _) _

/-- The operands in use, as they are written. -/
def fields (i : Instruction) : List Bytes :=
  i.shownOperands.map (fun p => decimal p.2.toNat) ++ if i.hasInt then [integer i.int.toInt] else []

theorem isWord_of_mem_fields {i : Instruction} {w : Bytes} (h : w ∈ i.fields) : IsWord w := by
  rcases List.mem_append.mp h with h | h
  · obtain ⟨p, -, rfl⟩ := List.mem_map.mp h
    exact isWord_decimal _
  · split at h
    · rw [List.mem_singleton.mp h]
      exact isWord_integer _
    · exact absurd h List.not_mem_nil

theorem text_eq_fields (i : Instruction) :
    i.text = trimRight (· == space) (padRight 16 (opName i.op) ++ i.fields.flatMap (space :: ·)) := by
  have hint : (if i.hasInt then space :: integer i.int.toInt else []) =
      (if i.hasInt then [integer i.int.toInt] else []).flatMap (space :: ·) := by split <;> simp
  rw [text, hint, fields, List.flatMap_append, List.flatMap_map, List.append_assoc]

/-- The padding of the name and the blanks cut at the end leave the words as they are. -/
theorem words_text (i : Instruction) : words i.text = opName i.op :: i.fields := by
  rw [text_eq_fields, words_trimRight, words_flatMap _ (fun _ => isWord_of_mem_fields), padRight, words_append_blanks,
    words_word (isWord_opName i.op)]
  rfl

theorem kinds_of_op_eq {i j : Instruction} (h : i.op = j.op) :
    i.shownOperands.map Prod.fst = j.shownOperands.map Prod.fst := by
  rw [shownOperands, shownOperands, opcode?, opcode?, h]
  cases Opcode.ofCode? j.op with
  | none => rfl
  | some o =>
      have hfilter (ps : List (OperandKind × UInt8)) :
          (ps.filter fun p => p.1 != .none).map Prod.fst = (ps.map Prod.fst).filter (· != .none) := by
        rw [List.filter_map]
        rfl
      simp only [hfilter, List.map_cons, List.map_nil]

/-- Instructions with the same line have the same operation and the same operands in use. -/
theorem shown_eq_of_text_eq {i j : Instruction} (h : i.text = j.text) :
    i.op = j.op ∧ i.shownOperands = j.shownOperands ∧ (i.hasInt = true → i.int = j.int) := by
  have hwords : opName i.op :: i.fields = opName j.op :: j.fields := by rw [← words_text, ← words_text, h]
  obtain ⟨hname, hfields⟩ := List.cons.inj hwords
  have hop := opName_injective hname
  -- The operation says how many operands are written, so the two lists of fields end their operands at one place.
  have hkinds := kinds_of_op_eq hop
  have hlength : i.shownOperands.length = j.shownOperands.length := by simpa using congrArg List.length hkinds
  obtain ⟨hvalues, hint⟩ := List.append_inj hfields (by simpa using hlength)
  have hhas : i.hasInt = j.hasInt := by rw [hasInt, hasInt, opcode?, opcode?, hop]
  refine ⟨hop, ?_, fun hi => ?_⟩
  · have hinj : ∀ p q : OperandKind × UInt8, (p.1, decimal p.2.toNat) = (q.1, decimal q.2.toNat) → p = q := by
      intro p q hpq
      obtain ⟨hkind, hvalue⟩ := Prod.mk.inj hpq
      exact Prod.ext hkind (UInt8.toNat_inj.mp (decimal_injective hvalue))
    apply (List.map_inj_right hinj).mp
    rw [← List.zip_map', ← List.zip_map', hkinds, hvalues]
  · rw [← hhas, hi, if_pos rfl, if_pos rfl] at hint
    exact Int64.toInt_inj.mp (integer_injective (List.singleton_inj.mp hint))

end Instruction

namespace ExecM

/-- An instruction reads only the operands in use. -/
theorem step_congr {i j : Instruction} (hop : i.op = j.op) (hshown : i.shownOperands = j.shownOperands)
    (hint : i.hasInt = true → i.int = j.int) (c : Chunk) : step c i = step c j := by
  have hopcode : i.opcode? = j.opcode? := by rw [Instruction.opcode?, Instruction.opcode?, hop]
  cases ho : j.opcode? with
  | none => simp only [step, hopcode, ho, hop]
  | some o =>
      have hi := hopcode.trans ho
      simp only [Instruction.shownOperands, hi, ho] at hshown
      cases o <;> simp_all [step, Opcode.operands, Instruction.hasInt, Opcode.hasInt]

/-- Instructions with the same line do the same: from every machine they reach the same one, with the same fault or
none. -/
theorem step_eq_of_text_eq {i j : Instruction} (h : i.text = j.text) (c : Chunk) (m : Machine) :
    (step c i).run m = (step c j).run m := by
  obtain ⟨hop, hshown, hint⟩ := Instruction.shown_eq_of_text_eq h
  rw [step_congr hop hshown hint c]

/-- Operands that an operation does not use may differ. -/
theorem step_eq_of_text_eq_unused :
    let i : Instruction := ⟨Opcode.move.code, 3, 1, 0, 0⟩
    let j : Instruction := ⟨Opcode.move.code, 3, 1, 2, 5⟩
    i ≠ j ∧ i.text = j.text ∧ ∀ (c : Chunk) (m : Machine), (step c i).run m = (step c j).run m :=
  ⟨by decide, by decide +kernel, step_eq_of_text_eq (by decide +kernel)⟩

end ExecM

end MiniLua

import Mathlib.Data.List.Induction
import MiniLua.Proofs.Evaluation
import MiniLua.Proofs.Machine.Execution

/-!
Locals by name and locals by slot: the lowest slots of a stack, read with the names that were declared for them.
-/

namespace MiniLua

/-- Named values of the lowest slots, the last declaration first. -/
def Locals.ofSlots (infos : List LocalInfo) (stack : List Value) : Locals :=
  (List.zipWith (fun l v => (l.name, v)) infos stack).reverse

namespace Locals

theorem ofSlots_concat (infos : List LocalInfo) (l : LocalInfo) {stack : List Value} {v : Value}
    (h : stack[infos.length]? = some v) : ofSlots (infos ++ [l]) stack = (l.name, v) :: ofSlots infos stack := by
  obtain ⟨hlt, hv⟩ := List.getElem?_eq_some_iff.mp h
  have hs : stack = stack.take infos.length ++ v :: stack.drop (infos.length + 1) := by
    rw [← hv, ← List.drop_eq_getElem_cons hlt, List.take_append_drop]
  have hz : List.zipWith (fun l v => (l.name, v)) infos stack =
      List.zipWith (fun l v => (l.name, v)) infos (stack.take infos.length) := by
    rw [List.zipWith_eq_zipWith_take_min, Nat.min_eq_left (by omega), List.take_length]
  have hz' : List.zipWith (fun l v => (l.name, v)) (infos ++ [l]) stack =
      List.zipWith (fun l v => (l.name, v)) infos (stack.take infos.length) ++ [(l.name, v)] := by
    conv => lhs; rw [hs]
    rw [List.zipWith_append (by simp; omega)]
    rfl
  rw [ofSlots, ofSlots, hz, hz', List.reverse_append]
  rfl

/-- Only the slots of locals matter. -/
theorem ofSlots_congr {infos : List LocalInfo} {stack stack' : List Value}
    (h : ∀ i < infos.length, stack'[i]? = stack[i]?) : ofSlots infos stack' = ofSlots infos stack := by
  unfold ofSlots
  congr 1
  apply List.ext_getElem?
  intro i
  rw [List.getElem?_zipWith, List.getElem?_zipWith]
  by_cases hi : i < infos.length
  · rw [h i hi]
  · rw [List.getElem?_eq_none (by omega)]

/-- Every local is in the slot of its declaration number. -/
def Numbered (infos : List LocalInfo) : Prop := ∀ (i : Nat) l, infos[i]? = some l → l.slot.toInt = i

theorem Numbered.of_concat {infos : List LocalInfo} {l : LocalInfo} (h : Numbered (infos ++ [l])) :
    Numbered infos ∧ l.slot.toInt = infos.length := by
  constructor
  · intro i l' hl
    have hlt := (List.getElem?_eq_some_iff.mp hl).1
    exact h i l' (by rw [List.getElem?_append_left hlt, hl])
  · exact h infos.length l (by simp)

/-- Looking a local up by its name finds the slot of the last declaration. -/
theorem lookup_ofSlots {infos : List LocalInfo} {stack : List Value} (hle : infos.length ≤ stack.length)
    (hn : Numbered infos) (name : Bytes) :
    (ofSlots infos stack).lookup name =
      (infos.reverse.find? (·.name == name)).bind fun l => stack[l.slot.toInt.toNat]? := by
  induction infos using List.reverseRecOn with
  | nil => rfl
  | append_singleton infos l ih =>
      rw [List.length_append, List.length_singleton] at hle
      obtain ⟨hn, hl⟩ := hn.of_concat
      have hv : stack[infos.length]? = some stack[infos.length] := List.getElem?_eq_getElem (by omega)
      rw [ofSlots_concat infos l hv, List.lookup_cons, List.reverse_append, List.reverse_singleton,
        List.singleton_append, List.find?_cons, ih (by omega) hn]
      by_cases hname : l.name = name
      · rw [beq_iff_eq.mpr hname, beq_iff_eq.mpr hname.symm]
        change some stack[infos.length] = stack[l.slot.toInt.toNat]?
        rw [hl, Int.toNat_natCast, hv]
      · rw [beq_false_of_ne hname, beq_false_of_ne (Ne.symm hname)]

/-- Assigning to a local by its name writes the slot of the last declaration. -/
theorem assign_ofSlots {infos : List LocalInfo} {stack stack' : List Value} (hle : infos.length ≤ stack.length)
    (hn : Numbered infos) {name : Bytes} {v : Value} {l : LocalInfo}
    (hf : infos.reverse.find? (·.name == name) = some l) (hv : stack'[l.slot.toInt.toNat]? = some v)
    (hs : ∀ i, i ≠ l.slot.toInt.toNat → stack'[i]? = stack[i]?) :
    ofSlots infos stack' = (ofSlots infos stack).assign name v := by
  induction infos using List.reverseRecOn with
  | nil => cases hf
  | append_singleton infos l' ih =>
      rw [List.length_append, List.length_singleton] at hle
      obtain ⟨hn, hl⟩ := hn.of_concat
      rw [List.reverse_append, List.reverse_singleton, List.singleton_append, List.find?_cons] at hf
      have hold : stack[infos.length]? = some stack[infos.length] := List.getElem?_eq_getElem (by omega)
      by_cases hname : l'.name = name
      · obtain rfl : l' = l := by simpa [hname] using hf
        rw [hl, Int.toNat_natCast] at hv hs
        rw [ofSlots_concat infos l' hv, ofSlots_concat infos l' hold, assign, if_pos hname,
          ofSlots_congr fun i hi => hs i (by omega)]
      · rw [beq_false_of_ne hname] at hf
        obtain ⟨i, hi⟩ := List.mem_iff_getElem?.mp (List.mem_reverse.mp (List.mem_of_find?_eq_some hf))
        have hlt := (List.getElem?_eq_some_iff.mp hi).1
        have hslot := hn i l hi
        have hsame : stack'[infos.length]? = some stack[infos.length] := by
          rw [hs infos.length (by omega), hold]
        rw [ofSlots_concat infos l' hsame, ofSlots_concat infos l' hold, assign, if_neg hname, ih (by omega) hn hf]

end Locals

namespace Machine

def locals (m : Machine) (infos : Array LocalInfo) : Locals := Locals.ofSlots infos.toList m.stack.toList

theorem Agrees.locals {n : Nat} {m m' : Machine} (h : Agrees n m m') {infos : Array LocalInfo} (hi : infos.size ≤ n) :
    m'.locals infos = m.locals infos := by
  apply Locals.ofSlots_congr
  intro i hlt
  simpa using h i (Nat.lt_of_lt_of_le (by simpa using hlt) hi)

end Machine

end MiniLua

import MiniLua.Proofs.Cbor.Reading

/-!
The limits of the reader. Whatever is read, no array in it has more elements than the limit, and no string in it is longer
than the input.
-/

namespace MiniLua.Cbor

/-- Everywhere in an item, arrays are within the limit and the lengths of strings are numbers of 64 bits. -/
inductive Bounded : Item → Prop
  | uint (n : Nat) : Bounded (.uint n)
  | nint (n : Nat) : Bounded (.nint n)
  | bytes {content : Bytes} (h : content.length < argumentLimit) : Bounded (.bytes content)
  | text {pieces : List Bytes} (h : pieces.flatten.length < argumentLimit) : Bounded (.text pieces)
  | array {is : List Item} (hn : is.length ≤ maxElements) (h : ∀ i ∈ is, Bounded i) : Bounded (.array is)
  | map {is : List Item} (h : ∀ i ∈ is, Bounded i) : Bounded (.map is)
  | tag {number : Nat} {content : Item} (h : Bounded content) : Bounded (.tag number content)
  | simple (n : Nat) : Bounded (.simple n)
  | float (width bits : Nat) : Bounded (.float width bits)

/-- What holds of a value that is read and of the bytes behind it. -/
def Gives {α : Type} (P : α → Bytes → Prop) : Option (α × Bytes) → Prop
  | some (a, r) => P a r
  | none => True

section

variable {α β : Type} {P : α → Bytes → Prop} {Q : β → Bytes → Prop} {x : Option (α × Bytes)}

theorem Gives.bind {next : α × Bytes → Option (β × Bytes)} (h : Gives P x)
    (hnext : ∀ a r, P a r → Gives Q (next (a, r))) : Gives Q (x.bind next) := by
  cases x with
  | none => trivial
  | some p => exact hnext p.1 p.2 h

theorem Gives.unless {c : Prop} [Decidable c] (h : ¬ c → Gives P x) : Gives P (if c then none else x) := by
  split
  · trivial
  · next hc => exact h hc

end

variable (bs : Bytes)

theorem readHead_gives : Gives (fun _ r => r.length < bs.length) (readHead bs) := by
  cases bs with
  | nil => trivial
  | cons b bs =>
      have hdrop (n : Nat) : (bs.drop n).length < (b :: bs).length := by
        rw [List.length_drop]
        exact Nat.lt_succ_of_le (Nat.sub_le _ _)
      unfold readHead
      dsimp only
      repeat' split
      all_goals first | trivial | exact Nat.lt_succ_self _ | exact hdrop _

theorem takeExactly_gives (n : Nat) :
    Gives (fun taken r => taken.length + r.length = bs.length) (takeExactly n bs) := by
  refine .unless fun _ => ?_
  change (bs.take n).length + (bs.drop n).length = bs.length
  rw [← List.length_append, List.take_append_drop]

theorem length_tail_le : bs.tail.length ≤ bs.length := by
  rw [List.length_tail]
  exact Nat.sub_le _ _

theorem pieces_gives (major fuel : Nat) :
    Gives (fun ps r => ps.flatten.length + r.length ≤ bs.length) (pieces major fuel bs) := by
  induction fuel generalizing bs with
  | zero => trivial
  | succ fuel ih =>
      rw [pieces]
      split
      · simp [Gives]
      · refine (readHead_gives bs).bind fun h r hr => ?_
        dsimp only
        split
        · trivial
        · refine (takeExactly_gives r h.value).bind fun piece r' hpiece => (ih r').bind fun ps r'' hps => ?_
          change (piece ++ ps.flatten).length + r''.length ≤ bs.length
          rw [List.length_append]
          omega

mutual

/-- An item that is read is within the limits. -/
theorem item_gives (fuel depth : Nat) (bs : Bytes) (hbs : bs.length < argumentLimit) :
    Gives (fun i r => Bounded i ∧ r.length ≤ bs.length) (item fuel depth bs) := by
  cases fuel with
  | zero =>
      rw [item]
      trivial
  | succ fuel =>
      rw [item]
      refine (readHead_gives bs).bind fun h r hr => ?_
      dsimp only
      split
      case h_1 => exact ⟨.uint _, by omega⟩
      case h_2 => exact ⟨.nint _, by omega⟩
      case h_3 =>
        split
        · refine (pieces_gives r 2 _).bind fun ps r' hps => ?_
          exact ⟨.bytes (show ps.flatten.length < _ by omega), show r'.length ≤ _ by omega⟩
        · refine (takeExactly_gives r _).bind fun content r' h => ?_
          exact ⟨.bytes (show content.length < _ by omega), show r'.length ≤ _ by omega⟩
      case h_4 =>
        split
        · refine (pieces_gives r 3 _).bind fun ps r' hps => ?_
          exact ⟨.text (show ps.flatten.length < _ by omega), show r'.length ≤ _ by omega⟩
        · refine (takeExactly_gives r _).bind fun content r' h => ?_
          have htext : [content].flatten.length < argumentLimit := by
            rw [List.flatten_singleton]
            omega
          exact ⟨.text htext, show r'.length ≤ _ by omega⟩
      case h_5 =>
        refine .unless fun hlimit => ?_
        split
        · refine (itemsToBreak_gives fuel _ r (by omega)).bind fun is r' his => .unless fun hn => ?_
          exact ⟨.array (Nat.le_of_not_lt hn) his.1, show r'.length ≤ _ by omega⟩
        · refine (items_gives fuel _ h.value r (by omega)).bind fun is r' his => ?_
          exact ⟨.array (show is.length ≤ _ by omega) his.2.1, show r'.length ≤ _ by omega⟩
      case h_6 =>
        refine .unless fun _ => ?_
        split
        · refine (itemsToBreak_gives fuel _ r (by omega)).bind fun is r' his => .unless fun _ => ?_
          exact ⟨.map his.1, show r'.length ≤ _ by omega⟩
        · refine (items_gives fuel _ _ r (by omega)).bind fun is r' his => ?_
          exact ⟨.map his.2.1, show r'.length ≤ _ by omega⟩
      case h_7 =>
        refine .unless fun _ => (item_gives fuel _ r (by omega)).bind fun content r' hcontent => ?_
        exact ⟨.tag hcontent.1, show r'.length ≤ _ by omega⟩
      case h_8 =>
        split
        · exact ⟨.float _ _, by omega⟩
        · exact ⟨.simple _, by omega⟩

theorem items_gives (fuel depth n : Nat) (bs : Bytes) (hbs : bs.length < argumentLimit) :
    Gives (fun is r => is.length = n ∧ (∀ i ∈ is, Bounded i) ∧ r.length ≤ bs.length) (items fuel depth n bs) := by
  cases n with
  | zero =>
      rw [items]
      exact ⟨rfl, List.forall_mem_nil _, Nat.le_refl _⟩
  | succ n =>
      cases fuel with
      | zero =>
          rw [items]
          · trivial
          · exact nofun
      | succ fuel =>
          rw [items]
          refine (item_gives fuel depth bs hbs).bind fun i r hi => ?_
          refine (items_gives fuel depth n r (by omega)).bind fun is r' his => ?_
          exact ⟨congrArg (· + 1) his.1, List.forall_mem_cons.mpr ⟨hi.1, his.2.1⟩, show r'.length ≤ _ by omega⟩

theorem itemsToBreak_gives (fuel depth : Nat) (bs : Bytes) (hbs : bs.length < argumentLimit) :
    Gives (fun is r => (∀ i ∈ is, Bounded i) ∧ r.length ≤ bs.length) (itemsToBreak fuel depth bs) := by
  cases fuel with
  | zero =>
      rw [itemsToBreak]
      trivial
  | succ fuel =>
      rw [itemsToBreak]
      split
      · exact ⟨List.forall_mem_nil _, length_tail_le bs⟩
      · refine (item_gives fuel depth bs hbs).bind fun i r hi => ?_
        refine (itemsToBreak_gives fuel depth r (by omega)).bind fun is r' his => ?_
        exact ⟨List.forall_mem_cons.mpr ⟨hi.1, his.1⟩, show r'.length ≤ _ by omega⟩

end

/-- What a byte string consists of is within the limits. -/
theorem read_bounded {bs : Bytes} {i : Item} (h : read bs = some i) (hbs : bs.length < argumentLimit) : Bounded i := by
  have hitem := item_gives (2 * bs.length + 2) 0 bs hbs
  unfold read at h
  split at h
  · next hread =>
    rw [hread] at hitem
    obtain rfl := Option.some.inj h
    exact hitem.1
  · cases h

end MiniLua.Cbor

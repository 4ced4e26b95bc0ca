import MiniLua.Machine.Step
import MiniLua.Proofs.Table.Refinement

/-!
The invariant of tables. Calls may fail, for a key that is nil or NaN, and whatever calls were made on a table, its
buckets are in order.
-/

namespace MiniLua

namespace Table

/-- A call on a table: the fault, if it has one, and the table afterwards. -/
def attempt (byteHash : Bytes → UInt64) (t : Table) (op : Op) : Option KeyFault × Table :=
  match t.apply byteHash op with
  | .ok t' => (none, t')
  | .error f => (some f, t)

/-- The table after a history of calls, of which some may have failed. -/
def attempts (byteHash : Bytes → UInt64) (ops : List Op) : Table :=
  ops.foldl (fun t op => (t.attempt byteHash op).2) empty

variable {byteHash : Bytes → UInt64} {t : Table}

theorem checkKey_cases (k : Value) :
    (checkKey k = .ok () ∧ k.isNil = false ∧ k.isNaN = false) ∨
      checkKey k = .error (if k.isNil then .nil else .nan) := by
  unfold checkKey
  cases hnil : k.isNil with
  | true => exact .inr rfl
  | false =>
      cases hnan : k.isNaN with
      | true => exact .inr rfl
      | false => exact .inl ⟨rfl, rfl, rfl⟩

theorem set_of_checkKey_error {k : Value} {f : KeyFault} (h : checkKey k = .error f) (t : Table) (v : Value) :
    t.set byteHash k v = .error f := by
  rw [set, h]
  rfl

/-- A call changes the table as a proper operation does, or fails and leaves it as it is. -/
theorem attempt_cases (byteHash : Bytes → UInt64) (t : Table) (op : Op) :
    (op.Proper ∧ t.attempt byteHash op = (none, t.after byteHash op)) ∨ ∃ f, t.attempt byteHash op = (some f, t) := by
  cases op with
  | append vs => exact .inl ⟨trivial, rfl⟩
  | set k v =>
      rcases checkKey_cases k with ⟨-, hk⟩ | hf
      · have hproper : (Op.set k v).Proper := hk
        exact .inl ⟨hproper, by rw [attempt, apply_eq t hproper]⟩
      · exact .inr ⟨_, by rw [attempt, apply, set_of_checkKey_error hf]⟩

theorem size_attempt (byteHash : Bytes → UInt64) (t : Table) (op : Op) :
    t.array.size ≤ (t.attempt byteHash op).2.array.size := by
  rcases attempt_cases byteHash t op with ⟨-, h⟩ | ⟨f, h⟩
  · rw [h]
    exact size_after byteHash t op
  · exact Nat.le_of_eq (by rw [h])

theorem Sound.after (ht : Sound byteHash (t.array.size + 1) t) {op : Op} (hop : op.Proper)
    (hfit : (t.after byteHash op).Fits) :
    Sound byteHash ((t.after byteHash op).array.size + 1) (t.after byteHash op) := by
  cases op with
  | set k v => exact (put_entries ht hop hfit).1
  | append vs => exact (append_entries ht vs hfit).1

theorem Sound.attempt (ht : Sound byteHash (t.array.size + 1) t) (op : Op) (hfit : (t.attempt byteHash op).2.Fits) :
    Sound byteHash ((t.attempt byteHash op).2.array.size + 1) (t.attempt byteHash op).2 := by
  rcases attempt_cases byteHash t op with ⟨hop, h⟩ | ⟨f, h⟩
  · rw [h] at hfit ⊢
    exact ht.after hop hfit
  · rw [h]
    exact ht

theorem Sound.foldl {ops : List Op} (ht : t.Fits → Sound byteHash (t.array.size + 1) t)
    (hfit : (ops.foldl (fun t op => (t.attempt byteHash op).2) t).Fits) :
    let t' := ops.foldl (fun t op => (t.attempt byteHash op).2) t
    Sound byteHash (t'.array.size + 1) t' := by
  induction ops generalizing t with
  | nil => exact ht hfit
  | cons op ops ih =>
      refine ih (fun hfit' => ?_) hfit
      exact (ht (Nat.lt_of_le_of_lt (size_attempt byteHash t op) hfit')).attempt op hfit'

end Table

/-- A machine refuses a key that is nil or NaN with an error of the program, and no part of it changes. -/
theorem ExecM.setIn_run_error {k : Value} {f : KeyFault} (h : Table.checkKey k = .error f) (id : Nat) (v : Value)
    (m : Machine) : (ExecM.setIn id k v).run m = (.error (.runtime (.badKey f)), m) := by
  change (match (m.table id).set byteHash k v with
    | .ok t => (set (m.setTable id t) : ExecM Unit)
    | .error fault => ExecM.fail (.badKey fault)).run m = _
  rw [Table.set_of_checkKey_error h]
  rfl

namespace Table

/-- Whatever the hash, after every history of calls the buckets of a table are in order, and a call with a key that is
nil or NaN is an error of the program and changes nothing, in a table and in a machine that holds it. -/
theorem attempts_sound (byteHash : Bytes → UInt64) (ops : List Op) (hfit : (attempts byteHash ops).Fits) :
    let t := attempts byteHash ops
    Sound byteHash (t.array.size + 1) t ∧
      ∀ k v, k.isNil = true ∨ k.isNaN = true →
        let f : KeyFault := if k.isNil then .nil else .nan
        t.attempt byteHash (.set k v) = (some f, t) ∧
          (∀ id m, (ExecM.setIn id k v).run m = (.error (.runtime (.badKey f)), m)) ∧
          (Fault.runtime (.badKey f)).report? = some { stage := .runtime, message := f.message } := by
  intro t
  refine ⟨Sound.foldl (fun _ => Refines.empty.sound) hfit, fun k v hk => ?_⟩
  rcases checkKey_cases k with ⟨-, hnil, hnan⟩ | hf
  · rw [hnil, hnan] at hk
    exact hk.elim nofun nofun
  · refine ⟨?_, fun id m => ExecM.setIn_run_error hf id v m, rfl⟩
    rw [attempt, apply, set_of_checkKey_error hf]

/-- Calls of which the second and the last but one fail; all keys share one bucket. -/
def someFail : List Op :=
  [.set (.int 2) (.int 5), .set .nil (.int 1), .set (.bool true) (.int 7), .append [.int 4, .int 6],
    .set (.float ⟨0x7ff8000000000001⟩) .nil, .set (.int 4) (.int 3)]

theorem attempts_sound_someFail :
    let t := attempts (fun _ => 0) someFail
    t.Fits ∧ t.count = 2 ∧ Sound (fun _ => 0) (t.array.size + 1) t ∧
      t.attempt (fun _ => 0) (.set .nil .nil) = (some .nil, t) := by
  intro t
  have hfit : t.Fits := by decide +kernel
  have hcount : t.count = 2 := by decide +kernel
  obtain ⟨hsound, hfail⟩ := attempts_sound (fun _ => 0) someFail hfit
  exact ⟨hfit, hcount, hsound, (hfail .nil .nil (.inl rfl)).1⟩

end Table

end MiniLua

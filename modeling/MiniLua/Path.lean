import MiniLua.Text.Bytes

/-!
Paths as texts. They are cleaned, joined and taken apart by their components alone, without a look at any file.
-/

namespace MiniLua.Path

open Text

def slash : UInt8 := 0x2f

def here : Bytes := [0x2e]

def up : Bytes := [0x2e, 0x2e]

def isAbsolute (p : Bytes) : Bool := p.head? == some slash

def components (p : Bytes) : List Bytes := splitAtByte slash p

/-- Adds a component to those of a clean path: `..` takes away a name, and goes nowhere from the root. -/
def step (rooted : Bool) (names : List Bytes) (c : Bytes) : List Bytes :=
  if c.isEmpty || c == here then names
  else if c == up then
    match names.getLast? with
    | some last => if last == up then names ++ [up] else names.dropLast
    | none => if rooted then [] else [up]
  else names ++ [c]

def names (p : Bytes) : List Bytes := (components p).foldl (step (isAbsolute p)) []

/-- Text of an absolute path. -/
def ofNames (names : List Bytes) : Bytes := slash :: joinWith [slash] names

/-- The shortest path that means the same. -/
def clean (p : Bytes) : Bytes :=
  if isAbsolute p then ofNames (names p)
  else if (names p).isEmpty then here
  else joinWith [slash] (names p)

def join (a b : Bytes) : Bytes :=
  match a.isEmpty, b.isEmpty with
  | true, true => []
  | true, false => clean b
  | false, true => clean a
  | false, false => clean (a ++ slash :: b)

/-- All but the last component. -/
def parent (p : Bytes) : Bytes := clean (p.reverse.dropWhile (· != slash)).reverse

/-- Names of the absolute path that `p` means in the directory `dir`. -/
def absoluteNames (dir : List Bytes) (p : Bytes) : List Bytes :=
  if isAbsolute p then names p else names (ofNames dir ++ slash :: p)

/-! ### The way up

A path is never longer for being cleaned, and its parent is shorter, until the parent is the path itself. -/

/-- Bytes in the components of a path, with one more for each. -/
def extent : List Bytes → Nat
  | [] => 0
  | c :: cs => c.length + 1 + extent cs

theorem extent_append (cs ds : List Bytes) : extent (cs ++ ds) = extent cs + extent ds := by
  induction cs with
  | nil => rw [List.nil_append, extent, Nat.zero_add]
  | cons c cs ih =>
      rw [List.cons_append, extent, extent, ih]
      omega

theorem extent_components (p : Bytes) : extent (components p) = p.length + 1 := by
  induction p with
  | nil => rfl
  | cons b r ih =>
      by_cases hb : b = slash
      · rw [components, hb, splitAtByte_cons_self, extent, ← components, ih, List.length_nil, List.length_cons]
        omega
      · obtain ⟨ps, hps⟩ := splitAtByte_eq_cons slash r
        rw [components, hps, extent] at ih
        rw [components, splitAtByte_cons_ne hb hps, extent, List.length_cons, List.length_cons]
        omega

theorem extent_step_le (rooted : Bool) (ns : List Bytes) (c : Bytes) :
    extent (step rooted ns c) ≤ extent ns + (c.length + 1) := by
  have hadd (d : Bytes) : extent (ns ++ [d]) = extent ns + (d.length + 1) := by rw [extent_append, extent]; rfl
  rw [step]
  split
  · omega
  split
  next hup =>
      rw [beq_iff_eq] at hup
      subst hup
      split
      next last hlast =>
          split
          · exact Nat.le_of_eq (hadd up)
          · obtain ⟨above, rfl⟩ := List.getLast?_eq_some_iff.mp hlast
            rw [List.dropLast_concat, extent_append]
            omega
      next => split <;> simp [extent]
  · exact Nat.le_of_eq (hadd c)

theorem extent_foldl_le (rooted : Bool) (cs ns : List Bytes) :
    extent (cs.foldl (step rooted) ns) ≤ extent ns + extent cs := by
  induction cs generalizing ns with
  | nil => exact Nat.le_refl _
  | cons c cs ih =>
      have hstep := extent_step_le rooted ns c
      have hrest := ih (step rooted ns c)
      rw [List.foldl_cons, extent]
      omega

theorem length_joinWith {ns : List Bytes} (h : ns ≠ []) : (joinWith [slash] ns).length + 1 = extent ns := by
  induction ns with
  | nil => exact absurd rfl h
  | cons n ns ih =>
      cases ns with
      | nil => simp [joinWith, extent]
      | cons m ns =>
          have hns := ih (List.cons_ne_nil m ns)
          simp only [joinWith, List.intercalate_cons_cons, List.length_append, List.length_singleton] at hns ⊢
          rw [extent]
          omega

/-- The component before a leading or behind a final slash is empty and adds nothing. -/
theorem names_slash_cons (p : Bytes) : names (slash :: p) = (components p).foldl (step true) [] := by
  rw [names, components, splitAtByte_cons_self]
  rfl

theorem names_append_slash {p : Bytes} (h : p ≠ []) : names (p ++ [slash]) = names p := by
  obtain ⟨b, r, rfl⟩ := List.exists_cons_of_ne_nil h
  rw [names, components, splitAtByte_append, List.foldl_append]
  rfl

theorem clean_append_slash {p : Bytes} (h : p ≠ []) : clean (p ++ [slash]) = clean p := by
  have habsolute : isAbsolute (p ++ [slash]) = isAbsolute p := by
    obtain ⟨b, r, rfl⟩ := List.exists_cons_of_ne_nil h
    rfl
  rw [clean, clean, habsolute, names_append_slash h]

theorem length_clean_le {p : Bytes} (h : p ≠ []) : (clean p).length ≤ p.length := by
  obtain ⟨b, r, rfl⟩ := List.exists_cons_of_ne_nil h
  rw [clean]
  by_cases hb : b = slash
  · subst hb
    have hnames := extent_foldl_le true (components r) []
    rw [extent_components, ← names_slash_cons] at hnames
    rw [if_pos (by simp [isAbsolute]), ofNames, List.length_cons, List.length_cons]
    by_cases hempty : names (slash :: r) = []
    · simp [hempty, joinWith]
    · have := length_joinWith hempty
      simp [extent] at hnames this ⊢
      omega
  · have hnames := extent_foldl_le (isAbsolute (b :: r)) (components (b :: r)) []
    rw [extent_components, ← names] at hnames
    rw [if_neg (by simpa [isAbsolute] using hb)]
    split
    · simp [here]
    next hempty =>
        have := length_joinWith (mt List.isEmpty_iff.mpr hempty)
        simp [extent] at hnames this ⊢
        omega

theorem dropWhile_reverse {last : Bytes} (h : slash ∉ last) (r : Bytes) :
    (last.reverse ++ r).dropWhile (· != slash) = r.dropWhile (· != slash) := by
  refine List.dropWhile_append_of_pos fun b hb => bne_iff_ne.mpr ?_
  rintro rfl
  exact h (List.mem_reverse.mp hb)

theorem parent_append {last : Bytes} (r : Bytes) (h : slash ∉ last) :
    parent (r ++ slash :: last) = clean (r ++ [slash]) := by
  rw [parent, List.reverse_append, List.reverse_cons, List.append_assoc, dropWhile_reverse h]
  simp

theorem parent_of_notMem {p : Bytes} (h : slash ∉ p) : parent p = here := by
  rw [parent, ← List.append_nil p.reverse, dropWhile_reverse h]
  rfl

theorem exists_last_slash {p : Bytes} (h : slash ∈ p) : ∃ r last, p = r ++ slash :: last ∧ slash ∉ last := by
  obtain ⟨last, r, hp, hlast⟩ := List.eq_append_cons_of_mem (List.mem_reverse.mpr h)
  refine ⟨r.reverse, last.reverse, ?_, mt List.mem_reverse.mp hlast⟩
  rw [← List.reverse_reverse p, hp]
  simp

theorem length_parent_lt {p : Bytes} (hmem : slash ∈ p) (h : parent p ≠ p) : (parent p).length < p.length := by
  obtain ⟨r, last, rfl, hlast⟩ := exists_last_slash hmem
  rw [parent_append r hlast] at h ⊢
  by_cases hr : r = []
  · subst hr
    have hne : last ≠ [] := by
      rintro rfl
      exact h rfl
    exact Nat.succ_lt_succ (List.length_pos_iff.mpr hne)
  · have hshort := length_clean_le hr
    rw [clean_append_slash hr, List.length_append, List.length_cons]
    omega

/-- Falls on the way up, from any path: `.` is the least, then come the shorter paths. -/
def weight (p : Bytes) : Nat := if p = here then 0 else p.length + 1

theorem weight_parent_lt {p : Bytes} (h : parent p ≠ p) : weight (parent p) < weight p := by
  by_cases hmem : slash ∈ p
  · have hp : p ≠ here := by
      rintro rfl
      exact absurd hmem (by decide)
    have hlength := length_parent_lt hmem h
    rw [weight, weight, if_neg hp]
    split <;> omega
  · rw [parent_of_notMem hmem] at h ⊢
    rw [weight, if_pos rfl, weight, if_neg (Ne.symm h)]
    exact Nat.succ_pos _

end MiniLua.Path

import MiniLua.Proofs.Table.Dense

/-!
Tables present dictionaries: whatever the hash, a table that came about by updates and appended values answers as the
dictionary with the same history does.
-/

namespace MiniLua

/-- A change of a table. -/
inductive Op where
  | set (k v : Value)
  | append (vs : List Value)

/-- A key that is set is neither nil nor NaN. -/
def Op.Proper : Op → Prop
  | .set k _ => k.isNil = false ∧ k.isNaN = false
  | .append _ => True

namespace Dict

/-- Appended values go to the integer keys behind the border. -/
def apply (d : Dict) : Op → Dict
  | .set k v => d.put k v
  | .append vs => fill d.border vs d

/-- The dictionary that a history of changes leaves. -/
def run (ops : List Op) : Dict := ops.foldl apply []

/-- Two dictionaries are the same map. -/
def Same (d d' : Dict) : Prop := ∀ k, d.hasKey k = d'.hasKey k ∧ d.get k = d'.get k

theorem length_le_of_hasKey {d d' : Dict} (hd : d.Distinct) (h : ∀ e ∈ d, d'.hasKey e.key = true) :
    d.length ≤ d'.length := by
  induction d generalizing d' with
  | nil => exact Nat.zero_le _
  | cons e d ih =>
      obtain ⟨hhead, htail⟩ := List.pairwise_cons.mp hd
      obtain ⟨e', he', hkey⟩ := hasKey_iff.mp (h e List.mem_cons_self)
      obtain ⟨before, behind, rfl⟩ := List.append_of_mem he'
      have hrest : ∀ a ∈ d, hasKey (before ++ behind) a.key = true := fun a ha => by
        have hne : e'.key.equal a.key = false := by
          refine Bool.eq_false_iff.mpr fun hea => ?_
          rw [Value.equal_comm] at hkey
          cases (hhead a ha).symm.trans (Value.equal_trans hkey hea)
        have := h a (List.mem_cons_of_mem _ ha)
        rw [hasKey_perm List.perm_middle] at this
        simpa [hasKey, hne] using this
      have hle := ih htail hrest
      rw [List.length_append] at hle
      rw [List.length_append, List.length_cons, List.length_cons]
      omega

end Dict

namespace Table

/-- The dense part has a next key: its length and one more is still an integer. -/
def Fits (t : Table) : Prop := t.array.size < maxIndex

instance (t : Table) : Decidable t.Fits := inferInstanceAs (Decidable (t.array.size < maxIndex))

def apply (byteHash : Bytes → UInt64) (t : Table) : Op → Except KeyFault Table
  | .set k v => t.set byteHash k v
  | .append vs => .ok (t.append byteHash vs)

/-- The table that a history of changes leaves. -/
def run (byteHash : Bytes → UInt64) (ops : List Op) : Except KeyFault Table := ops.foldlM (apply byteHash) empty

/-- The table after a proper change. -/
def after (byteHash : Bytes → UInt64) (t : Table) : Op → Table
  | .set k v => t.put byteHash k v
  | .append vs => t.append byteHash vs

theorem apply_eq {byteHash : Bytes → UInt64} (t : Table) {op : Op} (h : op.Proper) :
    t.apply byteHash op = .ok (t.after byteHash op) := by
  cases op with
  | set k v =>
      obtain ⟨hnil, hnan⟩ := h
      simp only [apply, set, checkKey, hnil, hnan]
      rfl
  | append vs => rfl

theorem run_eq (byteHash : Bytes → UInt64) {ops : List Op} (h : ∀ op ∈ ops, op.Proper) :
    run byteHash ops = .ok (ops.foldl (after byteHash) empty) := by
  suffices ∀ t, ops.foldlM (apply byteHash) t = .ok (ops.foldl (after byteHash) t) from this empty
  induction ops with
  | nil => exact fun _ => rfl
  | cons op ops ih =>
      intro t
      obtain ⟨hop, hops⟩ := List.forall_mem_cons.mp h
      rw [List.foldlM_cons, apply_eq t hop]
      exact ih hops (t.after byteHash op)

theorem size_after (byteHash : Bytes → UInt64) (t : Table) (op : Op) :
    t.array.size ≤ (t.after byteHash op).array.size := by
  cases op with
  | set k v => exact size_put t k v
  | append vs => exact Nat.le_trans (Nat.le_add_right _ _) (size_append byteHash t vs)

/-- No visit along a list of entries says to stop. -/
def Unstopped {σ : Type} (visit : σ → Entry → Bool × σ) : List Entry → σ → Prop
  | [], _ => True
  | e :: es, s => (visit s e).1 = true ∧ Unstopped visit es (visit s e).2

theorem walkList_eq {σ : Type} {visit : σ → Entry → Bool × σ} {es : List Entry} {s : σ} (h : Unstopped visit es s) :
    walkList visit es s = es.foldl (fun s e => (visit s e).2) s := by
  induction es generalizing s with
  | nil => rfl
  | cons e es ih =>
      rw [walkList, List.foldl_cons, ← ih h.2]
      simp only [h.1, if_true]

/-- A table answers as a dictionary does. -/
structure Presents (byteHash : Bytes → UInt64) (t : Table) (d : Dict) : Prop where
  get : ∀ k, t.get byteHash k = d.get k
  /-- The dense part is as long as the integers from 1 on are keys. -/
  size : ∀ n, n ≤ t.array.size ↔ ∀ i, 1 ≤ i → i ≤ n → d.hasKey (.ofIndex i) = true
  values : t.array.toList = (List.range t.array.size).map fun i => d.get (.ofIndex (i + 1))
  count : t.count = (d.filter fun e => !e.key.inRange t.array.size).length
  distinct : d.Distinct
  /-- A walk that is not stopped visits the dense part in order, then the other entries, and all of them once. -/
  walk : ∃ rest : List Entry, (dense 1 t.array.toList ++ rest).Perm d ∧
    ∀ {σ : Type} (visit : σ → Entry → Bool × σ) (s : σ), Unstopped visit (dense 1 t.array.toList ++ rest) s →
      t.walk visit s = (dense 1 t.array.toList ++ rest).foldl (fun s e => (visit s e).2) s

structure Refines (byteHash : Bytes → UInt64) (t : Table) (d : Dict) : Prop where
  sound : Sound byteHash (t.array.size + 1) t
  perm : t.entries.Perm d

variable {byteHash : Bytes → UInt64} {t : Table} {d : Dict}

namespace Refines

theorem loose (h : Refines byteHash t d) (hfit : t.Fits) : Sound byteHash t.array.size t := h.sound.of_succ hfit

theorem entries_distinct (h : Refines byteHash t d) (hfit : t.Fits) : Dict.Distinct t.entries :=
  (h.loose hfit).entries_distinct (Nat.le_of_lt hfit)

theorem hasKey_ofIndex (h : Refines byteHash t d) (hfit : t.Fits) {i : Nat} (hi : i ≤ t.array.size) :
    d.hasKey (.ofIndex (i + 1)) = decide (i < t.array.size) := by
  have hdense : Dict.hasKey (dense 1 t.array.toList) (.ofIndex (i + 1)) = decide (i < t.array.size) := by
    rw [hasKey_dense_eq (by simpa using Nat.le_of_lt hfit), Array.length_toList, Bool.eq_iff_iff,
      Value.inRange_ofIndex (Nat.le_trans (Nat.succ_le_succ hi) hfit), decide_eq_true_eq]
    omega
  have hmap : Dict.hasKey t.mapEntries (.ofIndex (i + 1)) = false := by
    refine Dict.hasKey_eq_false.mpr fun e he => Bool.eq_false_iff.mpr fun hek => ?_
    have hr := h.sound.sparse e he
    rw [Value.equal_int.mp hek, ← Value.ofIndex] at hr
    cases hr.symm.trans ((Value.inRange_ofIndex (Nat.le_trans (Nat.succ_le_succ hi) hfit)).mpr ⟨by omega, by omega⟩)
  rw [← Dict.hasKey_perm h.perm, entries_eq, Dict.hasKey_append, hdense, hmap, Bool.or_false]

theorem length_eq (h : Refines byteHash t d) : d.length = t.array.size + t.count := by
  rw [← h.perm.length_eq, entries_eq, List.length_append, length_dense, Array.length_toList, h.sound.count]

theorem border_eq (h : Refines byteHash t d) (hfit : t.Fits) : d.border = t.array.size := by
  have hrange : List.range d.length = List.range t.array.size ++ List.range' t.array.size t.count := by
    rw [h.length_eq, List.range_eq_range', List.range_eq_range', ← List.range'_append_1, Nat.zero_add]
  have hbelow : ∀ i ∈ List.range t.array.size, d.hasKey (.ofIndex (i + 1)) = true := fun i hi => by
    have hlt := List.mem_range.mp hi
    rw [h.hasKey_ofIndex hfit (Nat.le_of_lt hlt), decide_eq_true hlt]
  have hrest : (List.range' t.array.size t.count).takeWhile (fun i => d.hasKey (.ofIndex (i + 1))) = [] := by
    cases t.count with
    | zero => rfl
    | succ n =>
        rw [List.range'_succ, List.takeWhile_cons, h.hasKey_ofIndex hfit (Nat.le_refl _)]
        simp
  rw [Dict.border, hrange, List.takeWhile_append_of_pos hbelow, hrest, List.append_nil, List.length_range]

/-- One change keeps table and dictionary together. -/
theorem after (h : Refines byteHash t d) (hfit : t.Fits) {op : Op} (hop : op.Proper)
    (hfit' : (t.after byteHash op).Fits) : Refines byteHash (t.after byteHash op) (d.apply op) := by
  cases op with
  | set k v =>
      obtain ⟨hsound, hperm⟩ := put_entries h.sound hop hfit'
      exact ⟨hsound, hperm.trans (Dict.put_perm (h.entries_distinct hfit) h.perm)⟩
  | append vs =>
      obtain ⟨hsound, hperm⟩ := append_entries h.sound vs hfit'
      refine ⟨hsound, hperm.trans ?_⟩
      rw [Dict.apply, h.border_eq hfit]
      exact fill_perm _ vs (h.entries_distinct hfit) h.perm

theorem empty : Refines byteHash empty [] := by
  have hnone : Table.empty.mapEntries = [] := rfl
  refine ⟨⟨fun h e he => ?_, fun h => ?_, .nil, ?_, rfl, ?_⟩, .refl _⟩
  · cases (mem_mapEntries.mpr ⟨h, he⟩ : e ∈ Table.empty.mapEntries)
  · simp [Table.empty]
  · exact List.forall_mem_nil _
  · exact List.forall_mem_nil _

/-- A history of changes keeps table and dictionary together, as long as the table fits. -/
theorem foldl {ops : List Op} (hops : ∀ op ∈ ops, op.Proper) (h : t.Fits → Refines byteHash t d)
    (hfit : (ops.foldl (Table.after byteHash) t).Fits) :
    Refines byteHash (ops.foldl (Table.after byteHash) t) (ops.foldl Dict.apply d) := by
  induction ops generalizing t d with
  | nil => exact h hfit
  | cons op ops ih =>
      obtain ⟨hop, hops⟩ := List.forall_mem_cons.mp hops
      refine ih hops (fun hfit' => ?_) hfit
      have hfit : t.Fits := Nat.lt_of_le_of_lt (size_after byteHash t op) hfit'
      exact (h hfit).after hfit hop hfit'

theorem presents (h : Refines byteHash t d) (hfit : t.Fits) : t.Presents byteHash d := by
  have hdistinct := h.entries_distinct hfit
  have hget (k : Value) : t.get byteHash k = d.get k := by
    rw [get_eq (h.loose hfit) (Nat.le_of_lt hfit), Dict.get_perm hdistinct h.perm]
  refine ⟨hget, fun n => ?_, ?_, ?_, hdistinct.perm h.perm, t.mapEntries, h.perm, fun visit s hs => walkList_eq hs⟩
  · constructor
    · intro hn i h1 hi
      obtain ⟨i, rfl⟩ := Nat.exists_eq_add_of_le' h1
      rw [h.hasKey_ofIndex hfit (by omega), decide_eq_true (by omega)]
    · intro hkeys
      refine Nat.le_of_not_lt fun hlt => ?_
      have := hkeys (t.array.size + 1) (by omega) hlt
      rw [h.hasKey_ofIndex hfit (Nat.le_refl _)] at this
      simp at this
  · refine List.ext_getElem (by simp) fun i hi _ => ?_
    rw [List.getElem_map, List.getElem_range, ← Dict.get_perm hdistinct h.perm, entries_eq, Nat.add_comm i 1,
      Dict.get_append_left (hasKey_dense hi), get_dense hi ?_]
    · have hi' : i < t.array.size := by simpa using hi
      simp [hi']
    · rw [Array.length_toList, Nat.add_comm]
      exact Nat.succ_le_succ (Nat.le_of_lt hfit)
  · rw [← (h.perm.filter _).length_eq, entries_eq, List.filter_append, h.sound.count]
    have hdense : (dense 1 t.array.toList).filter (fun e => !e.key.inRange t.array.size) = [] := by
      refine List.filter_eq_nil_iff.mpr fun e he => ?_
      obtain ⟨i, hi, hkey⟩ := mem_dense he
      have hin := hasKey_dense (s := 1) hi
      rw [hasKey_dense_eq (by simpa using Nat.le_of_lt hfit), Array.length_toList] at hin
      rw [hkey, hin]
      exact Bool.noConfusion
    have hmap : t.mapEntries.filter (fun e => !e.key.inRange t.array.size) = t.mapEntries :=
      List.filter_eq_self.mpr fun e he => by rw [(h.loose hfit).sparse e he]; rfl
    rw [hdense, hmap, List.nil_append]

theorem hasKey_of_mem (h : Refines byteHash t d) {e : Entry} (he : e ∈ d) : d.hasKey e.key = true := by
  refine Dict.hasKey_iff.mpr ⟨e, he, Value.equal_self ?_⟩
  rcases List.mem_append.mp (h.perm.mem_iff.mpr he) with hd | hm
  · obtain ⟨i, -, hkey⟩ := mem_dense hd
    rw [hkey]
    rfl
  · exact (h.sound.proper e hm).2

theorem same_answers {byteHash' : Bytes → UInt64} {t' : Table} {d' : Dict} (h : Refines byteHash t d) (hfit : t.Fits)
    (h' : Refines byteHash' t' d') (hfit' : t'.Fits) (hsame : d.Same d') :
    (∀ k, t.get byteHash k = t'.get byteHash' k) ∧ t.array = t'.array ∧ t.count = t'.count := by
  have hp := h.presents hfit
  have hp' := h'.presents hfit'
  have hsize : t.array.size = t'.array.size := by
    refine Nat.le_antisymm ((hp'.size _).mpr ?_) ((hp.size _).mpr ?_)
    · intro i h1 hi
      rw [← (hsame _).1]
      exact (hp.size _).mp (Nat.le_refl _) i h1 hi
    · intro i h1 hi
      rw [(hsame _).1]
      exact (hp'.size _).mp (Nat.le_refl _) i h1 hi
  have hlength : d.length = d'.length := by
    refine Nat.le_antisymm (Dict.length_le_of_hasKey hp.distinct ?_) (Dict.length_le_of_hasKey hp'.distinct ?_)
    · intro e he
      rw [← (hsame _).1]
      exact h.hasKey_of_mem he
    · intro e he
      rw [(hsame _).1]
      exact h'.hasKey_of_mem he
  refine ⟨fun k => ?_, Array.ext' ?_, ?_⟩
  · rw [hp.get, hp'.get, (hsame k).2]
  · rw [hp.values, hp'.values, hsize]
    exact List.map_congr_left fun i _ => (hsame _).2
  · have := h.length_eq
    have := h'.length_eq
    omega

end Refines

/-- Whatever the hash, a history of proper changes leaves a table that presents the dictionary it leaves, and tables that
present the same map cannot be told apart. -/
theorem run_presents (byteHash : Bytes → UInt64) (ops : List Op) (hops : ∀ op ∈ ops, op.Proper) :
    ∃ t, run byteHash ops = .ok t ∧ (t.Fits → t.Presents byteHash (Dict.run ops) ∧
      ∀ (byteHash' : Bytes → UInt64) (ops' : List Op) (t' : Table), (∀ op ∈ ops', op.Proper) →
        run byteHash' ops' = .ok t' → t'.Fits → (Dict.run ops).Same (Dict.run ops') →
          (∀ k, t.get byteHash k = t'.get byteHash' k) ∧ t.array = t'.array ∧ t.count = t'.count) := by
  refine ⟨_, run_eq byteHash hops, fun hfit => ?_⟩
  have href := Refines.foldl hops (fun _ => .empty) hfit
  refine ⟨href.presents hfit, fun byteHash' ops' t' hops' hrun hfit' hsame => ?_⟩
  obtain rfl := Except.ok.inj ((run_eq byteHash' hops').symm.trans hrun)
  exact href.same_answers hfit (.foldl hops' (fun _ => .empty) hfit') hfit' hsame

/-- Integer keys that come from the end to the start, among others. -/
def backwards : List Op :=
  [.set (.int 3) (.bool true), .set (.bool true) (.int 7), .set (.int 2) (.int 5), .append [.int 1],
    .set (.bool true) (.int 8)]

/-- The same keys and values, the integer keys in order. -/
def forwards : List Op := [.append [.int 1, .int 5, .bool true], .set (.bool true) (.int 8)]

theorem run_presents_backwards : ∃ t t', run (fun _ => 0) backwards = .ok t ∧
    t.Presents (fun _ => 0) (Dict.run backwards) ∧ run (fun bs => bs.length.toUInt64) forwards = .ok t' ∧
      t.array = t'.array ∧ t.count = t'.count := by
  have hops : ∀ op ∈ backwards, op.Proper := by simp [backwards, Op.Proper, Value.isNil, Value.isNaN]
  have hops' : ∀ op ∈ forwards, op.Proper := by simp [forwards, Op.Proper, Value.isNil, Value.isNaN]
  obtain ⟨t, hrun, h⟩ := run_presents (fun _ => 0) backwards hops
  have hfit : t.Fits := by
    rw [← Except.ok.inj ((run_eq _ hops).symm.trans hrun)]
    decide +kernel
  obtain ⟨hpresents, htell⟩ := h hfit
  have hfit' : (forwards.foldl (after fun bs => bs.length.toUInt64) empty).Fits := by decide +kernel
  have hperm : (Dict.run backwards).Perm (Dict.run forwards) := by decide +kernel
  have hsame : (Dict.run backwards).Same (Dict.run forwards) := fun k =>
    ⟨Dict.hasKey_perm hperm k, Dict.get_perm hpresents.distinct hperm⟩
  have hrun' := run_eq (fun bs => bs.length.toUInt64) hops'
  obtain ⟨-, harray, hcount⟩ := htell _ _ _ hops' hrun' hfit' hsame
  exact ⟨t, _, hrun, hpresents, hrun', harray, hcount⟩

end Table

end MiniLua

import Mathlib.Data.List.Basic
import Mathlib.Data.Nat.Find
import Mathlib.Logic.Function.Iterate
import MiniLua.Manifest

/-!
The way up from a directory. An absolute path is the text of proper names, its parents are the texts of fewer and fewer
of them, and the manifest that counts is the first one met on the way to the root.
-/

namespace MiniLua

open Text

namespace Path

/-- A name that an entry can have: no component that is skipped or goes up. -/
structure Proper (n : Bytes) : Prop where
  ne_nil : n ≠ []
  ne_here : n ≠ here
  ne_up : n ≠ up
  notMem : slash ∉ n

theorem Proper.step {n : Bytes} (h : Proper n) (rooted : Bool) (ns : List Bytes) : step rooted ns n = ns ++ [n] := by
  simp [Path.step, h.ne_nil, h.ne_here, h.ne_up]

theorem foldl_proper {ms : List Bytes} (h : ∀ m ∈ ms, Proper m) (rooted : Bool) (ns : List Bytes) :
    ms.foldl (step rooted) ns = ns ++ ms := by
  induction ms generalizing ns with
  | nil => rw [List.foldl_nil, List.append_nil]
  | cons m ms ih =>
      obtain ⟨hm, hms⟩ := List.forall_mem_cons.mp h
      rw [List.foldl_cons, hm.step, ih hms, List.append_assoc, List.singleton_append]

theorem slash_notMem_components {p c : Bytes} (h : c ∈ components p) : slash ∉ c := by
  induction p generalizing c with
  | nil =>
      rw [List.mem_singleton.mp h]
      exact List.not_mem_nil
  | cons b r ih =>
      rw [components] at h ih
      by_cases hb : b = slash
      · rw [hb, splitAtByte_cons_self] at h
        rcases List.mem_cons.mp h with rfl | h
        · exact List.not_mem_nil
        · exact ih h
      · obtain ⟨ps, hps⟩ := splitAtByte_eq_cons slash r
        rw [splitAtByte_cons_ne hb hps] at h
        rw [hps] at ih
        rcases List.mem_cons.mp h with rfl | h
        · exact List.not_mem_cons_of_ne_of_not_mem (Ne.symm hb) (ih List.mem_cons_self)
        · exact ih (List.mem_cons_of_mem _ h)

theorem step_proper {ns : List Bytes} {c : Bytes} (hns : ∀ n ∈ ns, Proper n) (hc : slash ∉ c) :
    ∀ n ∈ step true ns c, Proper n := by
  rw [step]
  split
  · exact hns
  next hkept =>
      rw [Bool.or_eq_true, not_or, List.isEmpty_iff, beq_iff_eq] at hkept
      split
      · split
        next last hlast =>
            rw [if_neg (by simpa using (hns last (List.mem_of_getLast? hlast)).ne_up)]
            exact fun n hn => hns n (List.dropLast_subset ns hn)
        · exact fun n hn => absurd hn List.not_mem_nil
      next hup =>
          intro n hn
          rcases List.mem_append.mp hn with hn | hn
          · exact hns n hn
          · rw [List.mem_singleton.mp hn]
            exact ⟨hkept.1, hkept.2, by simpa using hup, hc⟩

theorem foldl_step_proper {cs ns : List Bytes} (hcs : ∀ c ∈ cs, slash ∉ c) (hns : ∀ n ∈ ns, Proper n) :
    ∀ n ∈ cs.foldl (step true) ns, Proper n := by
  induction cs generalizing ns with
  | nil => exact hns
  | cons c cs ih =>
      obtain ⟨hc, hcs⟩ := List.forall_mem_cons.mp hcs
      exact ih hcs (step_proper hns hc)

theorem names_proper (p : Bytes) : ∀ n ∈ names (slash :: p), Proper n := by
  rw [names_slash_cons]
  exact foldl_step_proper (fun _ => slash_notMem_components) (fun _ hn => absurd hn List.not_mem_nil)

theorem absoluteNames_proper (dir : List Bytes) (p : Bytes) : ∀ n ∈ absoluteNames dir p, Proper n := by
  rw [absoluteNames]
  split
  next h =>
      obtain ⟨r, rfl⟩ := List.head?_eq_some_iff.mp (eq_of_beq h)
      exact names_proper r
  · exact names_proper _

theorem foldl_components_joinWith {ms : List Bytes} (h : ∀ m ∈ ms, Proper m) :
    (components (joinWith [slash] ms)).foldl (step true) [] = ms := by
  suffices hcomponents : ms ≠ [] → components (joinWith [slash] ms) = ms by
    by_cases hms : ms = []
    · rw [hms]
      rfl
    · rw [hcomponents hms, foldl_proper h, List.nil_append]
  intro hms
  induction ms with
  | nil => exact absurd rfl hms
  | cons m ms ih =>
      obtain ⟨hm, hrest⟩ := List.forall_mem_cons.mp h
      cases ms with
      | nil =>
          rw [joinWith, List.intercalate_singleton]
          exact splitAtByte_of_notMem hm.notMem
      | cons n ns =>
          rw [joinWith, List.intercalate_cons_cons, List.append_assoc, List.singleton_append, components,
            splitAtByte_append, splitAtByte_of_notMem hm.notMem]
          exact congrArg (m :: ·) (ih hrest (List.cons_ne_nil n ns))

theorem names_ofNames {ms : List Bytes} (h : ∀ m ∈ ms, Proper m) : names (ofNames ms) = ms := by
  rw [ofNames, names_slash_cons, foldl_components_joinWith h]

theorem clean_ofNames {ms : List Bytes} (h : ∀ m ∈ ms, Proper m) : clean (ofNames ms) = ofNames ms := by
  rw [clean, names_ofNames h]
  exact if_pos rfl

theorem absoluteNames_ofNames {ms : List Bytes} (dir : List Bytes) (h : ∀ m ∈ ms, Proper m) :
    absoluteNames dir (ofNames ms) = ms := by
  rw [absoluteNames, names_ofNames h]
  exact if_pos rfl

theorem join_ofNames {ms : List Bytes} {n : Bytes} (h : ∀ m ∈ ms, Proper m) (hn : Proper n) :
    join (ofNames ms) n = ofNames (ms ++ [n]) := by
  have hnames : names (ofNames ms ++ slash :: n) = ms ++ [n] := by
    rw [ofNames, List.cons_append, names_slash_cons, components, splitAtByte_append, List.foldl_append, ← components,
      foldl_components_joinWith h, splitAtByte_of_notMem hn.notMem, List.foldl_cons, hn.step, List.foldl_nil]
  have hjoin : join (ofNames ms) n = clean (ofNames ms ++ slash :: n) := by
    rw [join, List.isEmpty_eq_false_iff.mpr hn.ne_nil]
    rfl
  rw [hjoin, clean, hnames]
  exact if_pos rfl

theorem ofNames_concat {ms : List Bytes} (h : ms ≠ []) (n : Bytes) :
    ofNames (ms ++ [n]) = ofNames ms ++ slash :: n := by
  rw [ofNames, ofNames, List.cons_append]
  congr 1
  induction ms with
  | nil => exact absurd rfl h
  | cons m ms ih =>
      cases ms with
      | nil => simp [joinWith]
      | cons l ls =>
          have hls := ih (List.cons_ne_nil l ls)
          simp only [joinWith, List.cons_append, List.intercalate_cons_cons, List.append_assoc] at hls ⊢
          rw [hls]

/-- The parent of a directory lacks its last name; the root is its own parent. -/
theorem parent_ofNames {ms : List Bytes} (h : ∀ m ∈ ms, Proper m) : parent (ofNames ms) = ofNames ms.dropLast := by
  rcases List.eq_nil_or_concat' ms with rfl | ⟨above, n, rfl⟩
  · rfl
  · rw [List.dropLast_concat]
    have hn := h n (by simp)
    by_cases habove : above = []
    · rw [habove, List.nil_append, ofNames, joinWith, List.intercalate_singleton]
      exact parent_append [] hn.notMem
    · rw [ofNames_concat habove, parent_append _ hn.notMem, clean_append_slash (by simp [ofNames])]
      exact clean_ofNames fun m hm => h m (by simp [hm])

theorem parent_iterate_ofNames {ms : List Bytes} (h : ∀ m ∈ ms, Proper m) (k : Nat) :
    parent^[k] (ofNames ms) = ofNames (ms.take (ms.length - k)) := by
  induction k with
  | zero => rw [Function.iterate_zero_apply, Nat.sub_zero, List.take_length]
  | succ k ih =>
      rw [Function.iterate_succ_apply', ih, parent_ofNames fun m hm => h m (List.mem_of_mem_take hm),
        List.dropLast_eq_take, List.take_take, List.length_take]
      congr 2
      omega

end Path

namespace Manifest

variable {fs : Files} {dir : Bytes}

theorem fileName_proper : Path.Proper fileName := by
  constructor <;> decide

theorem load_dir {path : Bytes} {m : Manifest} (h : load fs path = .ok m) :
    m.dir = Path.ofNames (Path.absoluteNames fs.workingDir (Path.parent path)) := by
  rw [load] at h
  split at h
  · cases h
  split at h
  · cases h
  split at h
  · cases h
  generalize globalValues path _ = globals at h
  cases globals <;> cases h
  rfl

theorem climb_here (h : isIn fs dir = true) : climb fs dir = (loadFrom fs dir).map some := by
  rw [climb, if_pos h]

theorem climb_parent (h : isIn fs dir = false) (hparent : Path.parent dir ≠ dir) :
    climb fs dir = climb fs (Path.parent dir) := by
  rw [climb, if_neg (by simp [h]), dif_neg hparent]

theorem climb_top (h : isIn fs dir = false) (hparent : Path.parent dir = dir) : climb fs dir = .ok none := by
  rw [climb, if_neg (by simp [h]), dif_pos hparent]

/-- The first manifest on the way up is read, wherever the way starts. -/
theorem climb_first {k : Nat} (hbelow : ∀ j < k, isIn fs (Path.parent^[j] dir) = false)
    (hk : isIn fs (Path.parent^[k] dir) = true) : climb fs dir = (loadFrom fs (Path.parent^[k] dir)).map some := by
  induction k generalizing dir with
  | zero => exact climb_here hk
  | succ k ih =>
      have hdir : isIn fs dir = false := hbelow 0 (Nat.succ_pos k)
      by_cases hparent : Path.parent dir = dir
      · rw [Function.iterate_fixed hparent] at hk
        cases hk.symm.trans hdir
      · rw [climb_parent hdir hparent]
        exact ih (fun j hj => hbelow (j + 1) (Nat.succ_lt_succ hj)) hk

theorem climb_nowhere (h : ∀ k, isIn fs (Path.parent^[k] dir) = false) : climb fs dir = .ok none := by
  have hdir : isIn fs dir = false := h 0
  induction dir using climb.induct fs with
  | case1 dir hthere => cases hthere.symm.trans hdir
  | case2 dir _ hparent => exact climb_top hdir hparent
  | case3 dir _ hparent ih =>
      rw [climb_parent hdir hparent]
      exact ih (fun k => h (k + 1)) (h 1)

theorem climb_eq_none_iff : climb fs dir = .ok none ↔ ∀ k, isIn fs (Path.parent^[k] dir) = false := by
  refine ⟨fun hclimb => ?_, climb_nowhere⟩
  by_contra hall
  have hsome : ∃ k, isIn fs (Path.parent^[k] dir) = true := by simpa using hall
  have hfirst := climb_first (fun _ hj => Bool.eq_false_iff.mpr (Nat.find_min hsome hj)) (Nat.find_spec hsome)
  rw [hclimb] at hfirst
  cases hload : loadFrom fs (Path.parent^[Nat.find hsome] dir) <;> rw [hload] at hfirst <;> cases hfirst

/-- The manifest of a directory is in that directory, whatever it says. -/
theorem loadFrom_dir {names : List Bytes} (h : ∀ n ∈ names, Path.Proper n) {m : Manifest}
    (hload : loadFrom fs (Path.ofNames names) = .ok m) : m.dir = Path.ofNames names := by
  have hfile : ∀ n ∈ names ++ [fileName], Path.Proper n := by
    intro n hn
    rcases List.mem_append.mp hn with hn | hn
    · exact h n hn
    · exact List.mem_singleton.mp hn ▸ fileName_proper
  rw [load_dir hload, Path.join_ofNames h fileName_proper, Path.parent_ofNames hfile, List.dropLast_concat,
    Path.absoluteNames_ofNames _ h]

/-- The directory that a path means and all those above it are searched from below, by the names in them, and the first
one with a manifest decides: its manifest or its fault is the answer. -/
theorem nearest_first (fs : Files) (dir : Bytes) :
    let names := Path.absoluteNames fs.workingDir dir
    let above (k : Nat) := names.take (names.length - k)
    (∀ n ∈ names, Path.Proper n) ∧
    (∀ k, Path.parent^[k] (Path.ofNames names) = Path.ofNames (above k) ∧
      isIn fs (Path.ofNames (above k)) = fs.exists? (Path.ofNames (above k ++ [fileName]))) ∧
    (∀ k, isIn fs (Path.ofNames (above k)) = true → (∀ j < k, isIn fs (Path.ofNames (above j)) = false) →
      nearest fs dir = (load fs (Path.ofNames (above k ++ [fileName]))).map some ∧
      ∀ m, nearest fs dir = .ok (some m) → m.dir = Path.ofNames (above k)) ∧
    (nearest fs dir = .ok none ↔ ∀ k, isIn fs (Path.ofNames (above k)) = false) := by
  intro names above
  have hnames : ∀ n ∈ names, Path.Proper n := Path.absoluteNames_proper fs.workingDir dir
  have habove (k : Nat) : ∀ n ∈ above k, Path.Proper n := fun n hn => hnames n (List.mem_of_mem_take hn)
  have hparent (k : Nat) : Path.parent^[k] (Path.ofNames names) = Path.ofNames (above k) :=
    Path.parent_iterate_ofNames hnames k
  have hjoin (k : Nat) : Path.join (Path.ofNames (above k)) fileName = Path.ofNames (above k ++ [fileName]) :=
    Path.join_ofNames (habove k) fileName_proper
  refine ⟨hnames, fun k => ⟨hparent k, by rw [isIn, hjoin]⟩, fun k hk hbelow => ?_, ?_⟩
  · have hnearest : nearest fs dir = (loadFrom fs (Path.ofNames (above k))).map some := by
      rw [← hparent] at hk ⊢
      exact climb_first (fun j hj => hparent j ▸ hbelow j hj) hk
    refine ⟨by rw [hnearest, loadFrom, hjoin], fun m hm => ?_⟩
    rw [hnearest] at hm
    cases hload : loadFrom fs (Path.ofNames (above k)) with
    | error fault => rw [hload] at hm; cases hm
    | ok m' =>
        rw [hload] at hm
        cases hm
        exact loadFrom_dir (habove k) hload
  · rw [nearest, climb_eq_none_iff]
    exact forall_congr' fun k => by rw [hparent k]

/-- Directories `/a/b/c`, with a manifest in the root and another one, which is none, in `/a`. -/
def nested : Files :=
  ((((({ workingDir := [utf8 "a"] } : Files).add [utf8 "a"] .directory).add [utf8 "a", utf8 "b"] .directory).add
    [utf8 "a", utf8 "b", utf8 "c"] .directory).add [fileName] (.file [])).add [utf8 "a", fileName] (.file (utf8 "="))

theorem nearest_first_nested :
    nearest nested (utf8 "./b//x/../c/") = (load nested (utf8 "/a/lunette.toml")).map some := by
  have hnear := (nearest_first nested (utf8 "./b//x/../c/")).2.2.1 2 (by decide +kernel) (by decide +kernel)
  have hfile : Path.ofNames (((Path.absoluteNames nested.workingDir (utf8 "./b//x/../c/")).take 1) ++ [fileName]) =
      utf8 "/a/lunette.toml" := by decide +kernel
  exact hfile ▸ hnear.1

end Manifest

end MiniLua

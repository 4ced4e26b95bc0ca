import MiniLua.Proofs.Editor.Serialization

/-!
Calls that begin when the worker has been stopped. They can return at once that it is stopped, and this is all they can
return once the loop has seen the stop too. Until then the loop may still take their requests and run their jobs.
-/

namespace MiniLua.Editor.Interleaving

variable {α : Type} {job : Nat → Job α} {machine : Machine} {s s' t : State α} {call : Nat}

/-- The job of the call is not run, and whatever the call returns is that the worker is stopped. -/
def Refused (s : State α) (call : Nat) : Prop :=
  call ∉ s.runs ∧ ∀ r, s.phase call = .returned r → r = .error .stopped

/-- The loop has seen the stop, and it has no answer for the call. -/
structure Barred (s : State α) (call : Nat) : Prop where
  finished : s.loop = .finished
  unanswered : s.answer call = none
  refused : Refused s call

theorem setPhase_cases {i : Nat} {p q : Phase α} (h : (s.setPhase i p).phase call = q) :
    call = i ∧ q = p ∨ s.phase call = q := by
  simp only [State.setPhase] at h
  split at h
  · next hi => exact .inl ⟨hi, h.symm⟩
  · exact .inr h

namespace Barred

theorem setPhase (h : Barred s call) {i : Nat} {p : Phase α}
    (hp : call = i → ∀ r, p = .returned r → r = .error .stopped) : Barred (s.setPhase i p) call := by
  refine ⟨h.finished, h.unanswered, h.refused.1, fun r hr => ?_⟩
  rcases setPhase_cases hr with ⟨rfl, rfl⟩ | hr
  · exact hp rfl r rfl
  · exact h.refused.2 r hr

theorem step (h : Barred s call) {a : Action} (hstep : Steps job s a s') : Barred s' call := by
  cases hstep with
  | start hphase => exact h.setPhase fun _ r hr => by cases hr
  | enter hphase hroom =>
      obtain ⟨hfinished, hunanswered, hrefused⟩ := h.setPhase (p := .awaiting) fun _ r hr => by cases hr
      exact ⟨hfinished, hunanswered, hrefused⟩
  | refuse hphase hstopped | abandon hphase hstopped =>
      exact h.setPhase fun _ r hr => by cases hr; rfl
  | take hloop hqueue =>
      rw [h.finished] at hloop
      cases hloop
  | finish hloop =>
      rw [h.finished] at hloop
      cases hloop
  | quit hloop hstopped =>
      rw [h.finished] at hloop
      cases hloop
  | receive hphase hanswer =>
      refine h.setPhase fun hcall => ?_
      rw [← hcall, h.unanswered] at hanswer
      cases hanswer
  | stop => exact ⟨h.finished, h.unanswered, h.refused⟩

theorem play (h : Barred s call) {actions : List Action} (hplay : s.play? job actions = some s') : Barred s' call := by
  induction actions generalizing s with
  | nil =>
      cases hplay
      exact h
  | cons a actions ih =>
      obtain ⟨u, hstep, hrest⟩ := play?_cons hplay
      exact ih (h.step (steps_of_step? hstep)) hrest

end Barred

theorem Serialized.barred {done : List Nat} (h : Serialized job machine s done) (hidle : s.phase call = .idle)
    (hfinished : s.loop = .finished) : Barred s call := by
  have hentered := h.early call (.inl hidle)
  rw [h.entered_eq, List.mem_append, not_or] at hentered
  refine ⟨hfinished, ?_, hentered.1, fun r hr => ?_⟩
  · refine Option.eq_none_iff_forall_ne_some.mpr fun r hr => hentered.1 ?_
    obtain ⟨before, after, rfl, -⟩ := h.answered call r hr
    rw [h.runs_eq]
    simp
  · rw [hidle] at hr
    cases hr

theorem step?_of_steps {a : Action} (h : Steps job s a s') : s.step? job a = some s' := by
  cases h with
  | start hphase => simp only [State.step?, hphase]
  | enter hphase hroom => simp only [State.step?, hphase, if_pos hroom]
  | refuse hphase hstopped | abandon hphase hstopped => simp only [State.step?, hphase, hstopped]
  | take hloop hqueue => simp only [State.step?, hloop, hqueue]
  | finish hloop => simp only [State.step?, hloop]
  | quit hloop hstopped => simp only [State.step?, hloop, hstopped]
  | receive hphase hanswer => simp only [State.step?, hphase, hanswer]
  | stop => rfl

theorem Steps.play {a : Action} {actions : List Action} (h : Steps job s a t) (h' : t.play? job actions = some s') :
    s.play? job (a :: actions) = some s' := by
  rw [State.play?, List.foldlM_cons]
  exact Option.bind_eq_some_iff.mpr ⟨t, step?_of_steps h, h'⟩

theorem play?_trans {actions actions' : List Action} (h : s.play? job actions = some t)
    (h' : t.play? job actions' = some s') : s.play? job (actions ++ actions') = some s' := by
  rw [State.play?, List.foldlM_append]
  exact Option.bind_eq_some_iff.mpr ⟨t, h, h'⟩

/-- A loop that has not seen a stop comes to the end of its current job. -/
theorem play_waiting (job : Nat → Job α) (hloop : s.loop ≠ .finished) :
    ∃ actions t, s.play? job actions = some t ∧ t.loop = .waiting ∧ t.queue = s.queue ∧ t.phase = s.phase := by
  cases hl : s.loop with
  | waiting => exact ⟨[], s, rfl, hl, rfl, rfl⟩
  | running i => exact ⟨[.finish], _, (Steps.finish hl).play rfl, rfl, rfl, rfl⟩
  | finished => exact absurd hl hloop

/-- A loop that has not seen a stop can work off its queue while the callers wait. -/
theorem play_drained (job : Nat → Job α) (hloop : s.loop ≠ .finished) :
    ∃ actions t, s.play? job actions = some t ∧ t.loop = .waiting ∧ t.queue = [] ∧ t.phase = s.phase := by
  obtain ⟨queue, hqueue⟩ : ∃ queue, s.queue = queue := ⟨_, rfl⟩
  induction queue generalizing s with
  | nil =>
      obtain ⟨actions, t, hplay, hwaiting, hsame, hphase⟩ := play_waiting job hloop
      exact ⟨actions, t, hplay, hwaiting, hsame.trans hqueue, hphase⟩
  | cons i rest ih =>
      obtain ⟨actions, t, hplay, hwaiting, hsame, hphase⟩ := play_waiting job hloop
      have htake : Steps job t .take { t with loop := .running i, queue := rest, runs := t.runs ++ [i] } :=
        .take hwaiting (hsame.trans hqueue)
      obtain ⟨actions', u, hplay', hend, hempty, hphase'⟩ :=
        ih (s := { t with loop := .running i, queue := rest, runs := t.runs ++ [i] }) Loop.noConfusion rfl
      exact ⟨_, u, play?_trans hplay (htake.play hplay'), hend, hempty, hphase'.trans hphase⟩

/-- A waiting loop without other requests can serve a call from its request to its answer. -/
theorem play_served (job : Nat → Job α) (hloop : s.loop = .waiting) (hqueue : s.queue = [])
    (hphase : s.phase call = .entering) :
    ∃ actions s', s.play? job actions = some s' ∧ call ∈ s'.runs ∧
      s'.phase call = .returned ((job call s.machine).1.mapError .failed) := by
  have henter : Steps job s (.enter call)
      { s.setPhase call .awaiting with queue := s.queue ++ [call], entered := s.entered ++ [call] } :=
    .enter hphase (by rw [hqueue]; exact Nat.zero_lt_succ 63)
  rw [hqueue] at henter
  have hserve : s.play? job [.enter call, .take, .finish, .receive call] = some _ :=
    henter.play (Steps.play (.take hloop rfl) (Steps.play (.finish rfl)
      (Steps.play (.receive (if_pos rfl) (if_pos rfl)) rfl)))
  exact ⟨_, _, hserve, List.mem_append_right _ (List.mem_singleton_self call), if_pos rfl⟩

/-- As long as the loop has not seen the stop, a call that begins can still have its job run and return its result. -/
theorem exists_served (job : Nat → Job α) (hidle : s.phase call = .idle) (hloop : s.loop ≠ .finished) :
    ∃ actions s' machine', s.play? job (.start call :: actions) = some s' ∧ call ∈ s'.runs ∧
      s'.phase call = .returned ((job call machine').1.mapError .failed) := by
  have hstart : Steps job s (.start call) (s.setPhase call .entering) := .start hidle
  obtain ⟨actions, t, hplay, hwaiting, hempty, hphase⟩ := play_drained job (s := s.setPhase call .entering) hloop
  have hentering : t.phase call = .entering := by
    rw [hphase]
    exact if_pos rfl
  obtain ⟨actions', s', hplay', hserved⟩ := play_served job hwaiting hempty hentering
  exact ⟨_, s', t.machine, hstart.play (play?_trans hplay hplay'), hserved⟩

theorem Steps.stopped {a : Action} (h : Steps job s a s') (hstopped : s.stopped = true) : s'.stopped = true := by
  cases h with
  | start | enter | refuse | take | finish | quit | receive | abandon => exact hstopped
  | stop => rfl

/-- A call that has begun, in a worker that has been stopped. -/
def Late (s : State α) (call : Nat) : Prop := s.stopped = true ∧ s.phase call ≠ .idle

theorem Late.step {a : Action} (h : Late s call) (hstep : Steps job s a s') : Late s' call := by
  refine ⟨hstep.stopped h.1, fun hidle => h.2 ?_⟩
  cases hstep with
  | start | refuse | receive | abandon =>
      rcases setPhase_cases hidle with ⟨-, hp⟩ | hidle
      · cases hp
      · exact hidle
  | enter =>
      rcases setPhase_cases hidle with ⟨-, hp⟩ | hidle
      · cases hp
      · exact hidle
  | take | finish | quit | stop => exact hidle

theorem Late.play {actions : List Action} (h : Late s call) (hplay : s.play? job actions = some s') : Late s' call := by
  induction actions generalizing s with
  | nil =>
      cases hplay
      exact h
  | cons a actions ih =>
      obtain ⟨u, hstep, hrest⟩ := play?_cons hplay
      exact ih (h.step (steps_of_step? hstep)) hrest

/-- No call has to wait for a worker that has been stopped. -/
theorem Late.returns (h : Late s call) :
    (∃ r, s.phase call = .returned r) ∨
      ∃ a t, s.step? job a = some t ∧ t.phase call = .returned (.error .stopped) := by
  cases hphase : s.phase call with
  | idle => exact absurd hphase h.2
  | entering => exact .inr ⟨_, _, step?_of_steps (.refuse hphase h.1), if_pos rfl⟩
  | awaiting => exact .inr ⟨_, _, step?_of_steps (.abandon hphase h.1), if_pos rfl⟩
  | returned r => exact .inl ⟨r, rfl⟩

/-- A call that begins after the stop is sure to be refused exactly if the loop has seen the stop; and it need never
wait, since it can return at any time that the worker is stopped. -/
theorem late_call_refused_iff (job : Nat → Job α) (machine : Machine) (before : List Action) (s : State α)
    (hplay : (initial machine).play? job before = some s) (hstopped : s.stopped = true) (call : Nat)
    (hidle : s.phase call = .idle) :
    ((∀ actions s', s.play? job (.start call :: actions) = some s' →
        call ∉ s'.runs ∧ ∀ r, s'.phase call = .returned r → r = .error .stopped) ↔ s.loop = .finished) ∧
      ∀ actions s', s.play? job (.start call :: actions) = some s' →
        (∃ r, s'.phase call = .returned r) ∨
          ∃ a t, s'.step? job a = some t ∧ t.phase call = .returned (.error .stopped) := by
  obtain ⟨done, hserialized⟩ := (Serialized.initial job machine).play hplay
  refine ⟨⟨fun hrefused => ?_, fun hfinished actions s' hrest => ?_⟩, fun actions s' hrest => ?_⟩
  · refine Classical.byContradiction fun hloop => ?_
    obtain ⟨actions, s', -, hserved, hruns, -⟩ := exists_served job hidle hloop
    exact (hrefused actions s' hserved).1 hruns
  · exact ((hserialized.barred hidle hfinished).play hrest).refused
  · obtain ⟨t, hstart, hrest⟩ := play?_cons hrest
    have hlate : Late t call := by
      cases steps_of_step? hstart with
      | start => exact ⟨hstopped, fun h => by cases h.symm.trans (if_pos rfl)⟩
    exact (hlate.play hrest).returns

/-- The loop ends its last job behind the stop, sees the stop, and then a call begins. -/
theorem late_call_refused_iff_quit :
    let job : Nat → Job Nat := fun call m => (.ok call, m)
    let before : List Action := [.start 1, .enter 1, .take, .stop, .finish, .quit, .receive 1]
    ∃ s, (initial {}).play? job before = some s ∧ s.stopped = true ∧ s.phase 2 = .idle ∧ s.loop = .finished ∧
      ∀ actions s', s.play? job (.start 2 :: actions) = some s' →
        2 ∉ s'.runs ∧ ∀ r, s'.phase 2 = .returned r → r = .error .stopped := by
  intro job before
  obtain ⟨s, hplay, hstopped, hidle, hfinished⟩ : ∃ s, (initial {}).play? job before = some s ∧ s.stopped = true ∧
      s.phase 2 = .idle ∧ s.loop = .finished := ⟨_, rfl, rfl, rfl, rfl⟩
  exact ⟨s, hplay, hstopped, hidle, hfinished,
    (late_call_refused_iff job {} before s hplay hstopped 2 hidle).1.mpr hfinished⟩

/-- The loop has not seen the stop when the call begins: it takes the request, and the caller takes the answer. -/
theorem late_call_served :
    let job : Nat → Job Nat := fun call m => (.ok call, m.setGlobal (Text.utf8 "x") (.bool true))
    ∃ s, (initial {}).play? job [.stop, .start 3, .enter 3, .take, .finish, .receive 3] = some s ∧ s.runs = [3] ∧
      s.phase 3 = .returned (.ok 3) ∧ s.machine = ({} : Machine).setGlobal (Text.utf8 "x") (.bool true) :=
  ⟨_, rfl, rfl, rfl, rfl⟩

end MiniLua.Editor.Interleaving

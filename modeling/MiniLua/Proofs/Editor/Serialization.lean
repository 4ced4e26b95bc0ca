import MiniLua.Editor.Interleaving

/-!
The worker under many callers does what a worker does that is given the jobs one after the other. Jobs are run in the
order in which their requests entered the queue, each at most once and none while another is running; and a call that
returns anything but that the worker is stopped returns what its own job gives.
-/

namespace MiniLua.Editor

namespace Interleaving

variable {α : Type}

/-- The worker after it has been given the jobs of these calls one after the other. -/
def serial (job : Nat → Job α) (w : Worker) (calls : List Nat) : Worker :=
  calls.foldl (fun w call => (w.submit (job call)).2) w

theorem serial_concat (job : Nat → Job α) (w : Worker) (calls : List Nat) (call : Nat) :
    serial job w (calls ++ [call]) = ((serial job w calls).submit (job call)).2 := List.foldl_append

theorem serial_running (job : Nat → Job α) {w : Worker} (h : w.stopped = false) (calls : List Nat) :
    (serial job w calls).stopped = false := by
  induction calls generalizing w with
  | nil => exact h
  | cons call calls ih =>
      have hnext : (w.submit (job call)).2.stopped = false := by
        rw [Worker.submit_running h]
        exact h
      exact ih hnext

/-- The call that is being run. -/
def Loop.current : Loop → List Nat
  | running call => [call]
  | waiting | finished => []

/-- What an action does where it is open. -/
inductive Steps (job : Nat → Job α) (s : State α) : Action → State α → Prop
  | start {call : Nat} (hphase : s.phase call = .idle) : Steps job s (.start call) (s.setPhase call .entering)
  | enter {call : Nat} (hphase : s.phase call = .entering) (hroom : s.queue.length < capacity) :
      Steps job s (.enter call)
        { s.setPhase call .awaiting with queue := s.queue ++ [call], entered := s.entered ++ [call] }
  | refuse {call : Nat} (hphase : s.phase call = .entering) (hstopped : s.stopped = true) :
      Steps job s (.refuse call) (s.setPhase call (.returned (.error .stopped)))
  | take {call : Nat} {rest : List Nat} (hloop : s.loop = .waiting) (hqueue : s.queue = call :: rest) :
      Steps job s .take { s with loop := .running call, queue := rest, runs := s.runs ++ [call] }
  | finish {call : Nat} (hloop : s.loop = .running call) :
      Steps job s .finish
        { s.setAnswer call (job call s.machine).1 with loop := .waiting, machine := (job call s.machine).2 }
  | quit (hloop : s.loop = .waiting) (hstopped : s.stopped = true) : Steps job s .quit { s with loop := .finished }
  | receive {call : Nat} {r : Except Trouble α} (hphase : s.phase call = .awaiting) (hanswer : s.answer call = some r) :
      Steps job s (.receive call) (s.setPhase call (.returned (r.mapError .failed)))
  | abandon {call : Nat} (hphase : s.phase call = .awaiting) (hstopped : s.stopped = true) :
      Steps job s (.abandon call) (s.setPhase call (.returned (.error .stopped)))
  | stop : Steps job s .stop { s with stopped := true }

variable {job : Nat → Job α} {machine : Machine} {s s' : State α}

theorem steps_of_step? {a : Action} (h : s.step? job a = some s') : Steps job s a s' := by
  unfold State.step? at h
  split at h
  case h_1 call =>
    split at h
    · next hphase =>
      cases h
      exact .start hphase
    · cases h
  case h_2 call =>
    split at h
    · next hphase =>
      split at h
      · next hroom =>
        cases h
        exact .enter hphase hroom
      · cases h
    · cases h
  case h_3 call =>
    split at h
    · next hphase hstopped =>
      cases h
      exact .refuse hphase hstopped
    · cases h
  case h_4 =>
    split at h
    · next hloop hqueue =>
      cases h
      exact .take hloop hqueue
    · cases h
  case h_5 =>
    split at h
    · next hloop =>
      cases h
      exact .finish hloop
    · cases h
  case h_6 =>
    split at h
    · next hloop hstopped =>
      cases h
      exact .quit hloop hstopped
    · cases h
  case h_7 call =>
    split at h
    · next hphase hanswer =>
      cases h
      exact .receive hphase hanswer
    · cases h
  case h_8 call =>
    split at h
    · next hphase hstopped =>
      cases h
      exact .abandon hphase hstopped
    · cases h
  case h_9 =>
    cases h
    exact .stop

/-- What a call returns whose job is given to a worker in its turn among these. -/
def Answers (job : Nat → Job α) (machine : Machine) (done : List Nat) (call : Nat) (r : Except WorkerFault α) : Prop :=
  ∃ before after, done = before ++ call :: after ∧ r = ((serial job { machine } before).submit (job call)).1

/-- The jobs of `done` have been run, and only the current one has been begun after them. -/
structure Serialized (job : Nat → Job α) (machine : Machine) (s : State α) (done : List Nat) : Prop where
  runs_eq : s.runs = done ++ s.loop.current
  entered_eq : s.entered = s.runs ++ s.queue
  nodup : s.entered.Nodup
  early : ∀ call, s.phase call = .idle ∨ s.phase call = .entering → call ∉ s.entered
  machine_eq : s.machine = (serial job { machine } done).machine
  answered : ∀ call r, s.answer call = some r → Answers job machine done call (r.mapError .failed)
  returned : ∀ call r, s.phase call = .returned r → r ≠ .error .stopped → Answers job machine done call r

theorem Answers.concat {done : List Nat} {call : Nat} {r : Except WorkerFault α} (h : Answers job machine done call r)
    (next : Nat) : Answers job machine (done ++ [next]) call r := by
  obtain ⟨before, after, rfl, hr⟩ := h
  exact ⟨before, after ++ [next], by simp, hr⟩

theorem answers_concat (job : Nat → Job α) (machine : Machine) (done : List Nat) (call : Nat) :
    Answers job machine (done ++ [call]) call ((serial job { machine } done).submit (job call)).1 :=
  ⟨done, [], rfl, rfl⟩

namespace Serialized

variable {done : List Nat}

theorem initial (job : Nat → Job α) (machine : Machine) : Serialized job machine (initial machine) [] := by
  constructor
  · rfl
  · rfl
  · exact List.nodup_nil
  · exact fun _ _ => List.not_mem_nil
  · rfl
  · intro call r h
    cases h
  · intro call r h
    cases h

/-- A call goes on; the queue, the loop and the machine stay as they are. -/
theorem setPhase (h : Serialized job machine s done) {call : Nat} {p : Phase α}
    (hearly : p = .idle ∨ p = .entering → call ∉ s.entered)
    (hreturned : ∀ r, p = .returned r → r ≠ .error .stopped → Answers job machine done call r) :
    Serialized job machine (s.setPhase call p) done := by
  refine ⟨h.runs_eq, h.entered_eq, h.nodup, ?_, h.machine_eq, h.answered, ?_⟩
  · intro other hphase
    simp only [State.setPhase] at hphase
    split at hphase
    · next heq => exact heq ▸ hearly hphase
    · exact h.early other hphase
  · intro other r hphase
    simp only [State.setPhase] at hphase
    split at hphase
    · next heq => exact heq ▸ hreturned r hphase
    · exact h.returned other r hphase

/-- The request of a call enters the queue. -/
theorem push (h : Serialized job machine s done) {call : Nat} (hphase : s.phase call = .awaiting)
    (hnew : call ∉ s.entered) :
    Serialized job machine { s with queue := s.queue ++ [call], entered := s.entered ++ [call] } done := by
  refine ⟨h.runs_eq, ?_, ?_, ?_, h.machine_eq, h.answered, h.returned⟩
  · simp only [h.entered_eq, List.append_assoc]
  · refine List.nodup_append.mpr ⟨h.nodup, by simp, ?_⟩
    rintro other hother _ hcall rfl
    exact hnew (List.mem_singleton.mp hcall ▸ hother)
  · intro other hother hmem
    rcases List.mem_append.mp hmem with hmem | hmem
    · exact h.early other hother hmem
    · rw [List.mem_singleton.mp hmem, hphase] at hother
      rcases hother with hp | hp <;> cases hp

theorem take (h : Serialized job machine s done) {call : Nat} {rest : List Nat} (hloop : s.loop = .waiting)
    (hqueue : s.queue = call :: rest) :
    Serialized job machine { s with loop := .running call, queue := rest, runs := s.runs ++ [call] } done := by
  refine ⟨?_, ?_, h.nodup, h.early, h.machine_eq, h.answered, h.returned⟩
  · have hruns := h.runs_eq
    rw [hloop, Loop.current, List.append_nil] at hruns
    exact congrArg (· ++ [call]) hruns
  · have hentered := h.entered_eq
    rw [hqueue] at hentered
    simpa using hentered

theorem finish (h : Serialized job machine s done) {call : Nat} (hloop : s.loop = .running call) :
    Serialized job machine
      { s.setAnswer call (job call s.machine).1 with loop := .waiting, machine := (job call s.machine).2 }
      (done ++ [call]) := by
  have hsubmit := Worker.submit_running (serial_running job (w := { machine }) rfl done) (job call)
  rw [← h.machine_eq] at hsubmit
  refine ⟨?_, h.entered_eq, h.nodup, h.early, ?_, ?_, ?_⟩
  · have hruns := h.runs_eq
    rw [hloop] at hruns
    exact hruns.trans (List.append_nil _).symm
  · rw [serial_concat, hsubmit]
  · intro other r hanswer
    simp only [State.setAnswer] at hanswer
    split at hanswer
    · next heq =>
      cases hanswer
      have hown := answers_concat job machine done call
      rw [hsubmit] at hown
      exact heq ▸ hown
    · exact (h.answered other r hanswer).concat call
  · intro other r hphase hr
    exact (h.returned other r hphase hr).concat call

theorem step (h : Serialized job machine s done) {a : Action} (hstep : Steps job s a s') :
    ∃ done', Serialized job machine s' done' := by
  cases hstep with
  | start hphase =>
      refine ⟨done, h.setPhase (fun _ => h.early _ (.inl hphase)) ?_⟩
      intro r hr
      cases hr
  | enter hphase _ =>
      refine ⟨done, (h.setPhase ?_ ?_).push (if_pos rfl) (h.early _ (.inr hphase))⟩
      · rintro (hp | hp) <;> cases hp
      · intro r hr
        cases hr
  | refuse | abandon =>
      refine ⟨done, h.setPhase ?_ ?_⟩
      · rintro (hp | hp) <;> cases hp
      · intro r hr hne
        cases hr
        exact absurd rfl hne
  | take hloop hqueue => exact ⟨done, h.take hloop hqueue⟩
  | finish hloop => exact ⟨_, h.finish hloop⟩
  | quit hloop _ =>
      have hruns := h.runs_eq
      rw [hloop] at hruns
      exact ⟨done, hruns, h.entered_eq, h.nodup, h.early, h.machine_eq, h.answered, h.returned⟩
  | receive hphase hanswer =>
      refine ⟨done, h.setPhase ?_ ?_⟩
      · rintro (hp | hp) <;> cases hp
      · intro r hr _
        cases hr
        exact h.answered _ _ hanswer
  | stop => exact ⟨done, h.runs_eq, h.entered_eq, h.nodup, h.early, h.machine_eq, h.answered, h.returned⟩

end Serialized

theorem play?_cons {a : Action} {actions : List Action} (h : s.play? job (a :: actions) = some s') :
    ∃ t, s.step? job a = some t ∧ t.play? job actions = some s' := by
  rw [State.play?, List.foldlM_cons] at h
  exact Option.bind_eq_some_iff.mp h

theorem play?_append {actions actions' : List Action} (h : s.play? job (actions ++ actions') = some s') :
    ∃ t, s.play? job actions = some t ∧ t.play? job actions' = some s' := by
  rw [State.play?, List.foldlM_append] at h
  exact Option.bind_eq_some_iff.mp h

theorem Serialized.play {done : List Nat} (h : Serialized job machine s done) {actions : List Action}
    (hplay : s.play? job actions = some s') : ∃ done', Serialized job machine s' done' := by
  induction actions generalizing s done with
  | nil =>
      cases hplay
      exact ⟨done, h⟩
  | cons a actions ih =>
      obtain ⟨t, hstep, hrest⟩ := play?_cons hplay
      obtain ⟨done, ht⟩ := h.step (steps_of_step? hstep)
      exact ih ht hrest

theorem Steps.still_running {a : Action} {call : Nat} (h : Steps job s a s') (hloop : s.loop = .running call)
    (ha : a ≠ .finish) : s'.loop = .running call := by
  cases h with
  | start | enter | refuse | receive | abandon | stop => exact hloop
  | take hwaiting _ =>
      rw [hloop] at hwaiting
      cases hwaiting
  | quit hwaiting _ =>
      rw [hloop] at hwaiting
      cases hwaiting
  | finish => exact absurd rfl ha

theorem play_still_running {actions : List Action} {call : Nat} (hplay : s.play? job actions = some s')
    (hloop : s.loop = .running call) (hactions : .finish ∉ actions) : s'.loop = .running call := by
  induction actions generalizing s with
  | nil =>
      cases hplay
      exact hloop
  | cons a actions ih =>
      have hne : .finish ≠ a ∧ .finish ∉ actions := by simpa using hactions
      obtain ⟨t, hstep, hrest⟩ := play?_cons hplay
      exact ih hrest ((steps_of_step? hstep).still_running hloop (Ne.symm hne.1)) hne.2

/-- Between two runs that begin, the first one ends. -/
theorem finish_between_takes {a b c : List Action} (hplay : s.play? job (a ++ .take :: (b ++ .take :: c)) = some s') :
    .finish ∈ b := by
  obtain ⟨t, -, htake⟩ := play?_append hplay
  obtain ⟨u, hfirst, hrest⟩ := play?_cons htake
  obtain ⟨v, hb, hlast⟩ := play?_append hrest
  obtain ⟨w, hsecond, -⟩ := play?_cons hlast
  refine Classical.byContradiction fun hnot => ?_
  cases steps_of_step? hfirst with
  | take =>
      have hrunning := play_still_running hb rfl hnot
      cases steps_of_step? hsecond with
      | take hwaiting _ =>
          rw [hrunning] at hwaiting
          cases hwaiting

theorem play_serialized (job : Nat → Job α) (machine : Machine) (actions : List Action) (s : State α)
    (hplay : (initial machine).play? job actions = some s) :
    s.runs.Nodup ∧ s.entered = s.runs ++ s.queue ∧
      (∀ a b c, actions = a ++ .take :: (b ++ .take :: c) → .finish ∈ b) ∧
      (∃ done, s.runs = done ++ s.loop.current ∧ s.machine = (serial job { machine } done).machine ∧
        ∀ call r, s.phase call = .returned r → r ≠ .error .stopped →
          ∃ before after, done = before ++ call :: after ∧
            r = ((serial job { machine } before).submit (job call)).1) ∧
      ∀ call text machine', s.loop = .running call → job call s.machine = (.error (.panic text), machine') →
        ∃ s', s.step? job .finish = some s' ∧ s'.loop = .waiting ∧ s'.queue = s.queue ∧
          s'.answer call = some (.error (.panic text)) := by
  obtain ⟨done, h⟩ := (Serialized.initial job machine).play hplay
  refine ⟨?_, h.entered_eq, ?_, ⟨done, h.runs_eq, h.machine_eq, h.returned⟩, ?_⟩
  · have hnodup := h.nodup
    rw [h.entered_eq] at hnodup
    exact (List.nodup_append.mp hnodup).1
  · rintro a b c rfl
    exact finish_between_takes hplay
  · intro call text machine' hloop hjob
    rw [State.step?, hloop]
    refine ⟨_, rfl, rfl, rfl, ?_⟩
    simp [State.setAnswer, hjob]

/-- A call that panics, one that returns a value, and one that does not wait for its answer any more. -/
theorem play_serialized_panic :
    let panic : Trouble := .panic (Text.utf8 "boom")
    let job : Nat → Job Nat := fun call m => if call = 0 then (.error panic, m) else (.ok call, m)
    let actions : List Action :=
      [.start 2, .start 0, .start 1, .enter 1, .enter 0, .take, .enter 2, .finish, .receive 1, .take, .stop, .finish,
        .abandon 2, .take, .receive 0]
    ∃ s, (initial {}).play? job actions = some s ∧ s.runs = [1, 0, 2] ∧ s.runs.Nodup ∧
      s.phase 0 = .returned (.error (.failed panic)) ∧
      ∃ before after, [1, 0] = before ++ 0 :: after ∧
        .error (.failed panic) = ((serial job { machine := {} } before).submit (job 0)).1 := by
  intro panic job actions
  obtain ⟨s, hplay, hruns, hloop, hphase⟩ : ∃ s, (initial {}).play? job actions = some s ∧ s.runs = [1, 0, 2] ∧
      s.loop = .running 2 ∧ s.phase 0 = .returned (.error (.failed panic)) := ⟨_, rfl, rfl, rfl, rfl⟩
  obtain ⟨hnodup, -, -, ⟨done, hdone, -, hreturned⟩, -⟩ := play_serialized job {} actions s hplay
  have hcompleted : done = [1, 0] := by
    rw [hruns, hloop] at hdone
    exact List.append_cancel_right (hdone.symm : done ++ [2] = [1, 0] ++ [2])
  rw [hcompleted] at hreturned
  exact ⟨s, hplay, hruns, hnodup, hphase, hreturned 0 _ hphase (by simp)⟩

end Interleaving

end MiniLua.Editor

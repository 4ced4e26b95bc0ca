import MiniLua.Editor.Worker

/-!
The worker under many callers at once. A call enters its request into a queue and then awaits the answer; the loop of the
worker takes the requests one after the other. Callers and loop can also see that the worker has been stopped, and where
several ways are open any of them may be taken.
-/

namespace MiniLua.Editor.Interleaving

variable {α : Type}

/-- Number of requests that can wait. -/
def capacity : Nat := 64

/-- Where the loop of the worker is. -/
inductive Loop where
  | waiting
  | running (call : Nat)
  | finished
  deriving DecidableEq, Repr

/-- How far a call is. -/
inductive Phase (α : Type) where
  | idle
  | entering
  | awaiting
  | returned (result : Except WorkerFault α)

structure State (α : Type) where
  machine : Machine
  stopped : Bool := false
  loop : Loop := .waiting
  queue : List Nat := []
  phase : Nat → Phase α := fun _ => .idle
  /-- Answers that have been given, also those that nobody awaits any more. -/
  answer : Nat → Option (Except Trouble α) := fun _ => none
  /-- Calls whose requests have entered the queue, in order. -/
  entered : List Nat := []
  /-- Calls whose jobs have been run or are running, in order. -/
  runs : List Nat := []

inductive Action where
  | start (call : Nat)
  | enter (call : Nat)
  /-- A call that has not entered its request sees that the worker is stopped. -/
  | refuse (call : Nat)
  | take
  | finish
  | quit
  | receive (call : Nat)
  /-- A call that awaits its answer sees that the worker is stopped. -/
  | abandon (call : Nat)
  | stop
  deriving DecidableEq, Repr

namespace State

def setPhase (s : State α) (call : Nat) (p : Phase α) : State α :=
  { s with phase := fun i => if i = call then p else s.phase i }

def setAnswer (s : State α) (call : Nat) (r : Except Trouble α) : State α :=
  { s with answer := fun i => if i = call then some r else s.answer i }

/-- The state after an action; none where the action is not open. Call `i` asks for the job `job i`. -/
def step? (job : Nat → Job α) (s : State α) : Action → Option (State α)
  | .start call =>
    match s.phase call with
    | .idle => some (s.setPhase call .entering)
    | _ => none
  | .enter call =>
    match s.phase call with
    | .entering =>
      if s.queue.length < capacity then
        some { s.setPhase call .awaiting with queue := s.queue ++ [call], entered := s.entered ++ [call] }
      else none
    | _ => none
  | .refuse call =>
    match s.phase call, s.stopped with
    | .entering, true => some (s.setPhase call (.returned (.error .stopped)))
    | _, _ => none
  | .take =>
    match s.loop, s.queue with
    | .waiting, call :: rest => some { s with loop := .running call, queue := rest, runs := s.runs ++ [call] }
    | _, _ => none
  | .finish =>
    match s.loop with
    | .running call =>
      let (r, machine) := job call s.machine
      some { s.setAnswer call r with loop := .waiting, machine }
    | _ => none
  | .quit =>
    match s.loop, s.stopped with
    | .waiting, true => some { s with loop := .finished }
    | _, _ => none
  | .receive call =>
    match s.phase call, s.answer call with
    | .awaiting, some r => some (s.setPhase call (.returned (r.mapError .failed)))
    | _, _ => none
  | .abandon call =>
    match s.phase call, s.stopped with
    | .awaiting, true => some (s.setPhase call (.returned (.error .stopped)))
    | _, _ => none
  | .stop => some { s with stopped := true }

/-- The state after several actions. -/
def play? (job : Nat → Job α) (s : State α) (actions : List Action) : Option (State α) :=
  actions.foldlM (step? job) s

end State

/-- The state from which every interleaving begins: nothing called, the loop waiting. -/
def initial (machine : Machine) : State α := { machine }

/-- What can come about by any interleaving of callers, loop and stop. -/
def Reachable (job : Nat → Job α) (machine : Machine) (s : State α) : Prop :=
  ∃ actions, (initial machine).play? job actions = some s

end MiniLua.Editor.Interleaving

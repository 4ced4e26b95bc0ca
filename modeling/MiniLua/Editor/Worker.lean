import MiniLua.Machine.Basic

/-!
The worker: all use of the machine goes through it, one job after the other. A job that fails does not stop it.
-/

namespace MiniLua.Editor

open Text

/-- How a job fails: with a report, or with a fault that is not meant for the user. -/
inductive Trouble where
  | report (report : Report)
  | panic (text : Bytes)
  deriving DecidableEq, Repr

abbrev Job (α : Type) := Machine → Except Trouble α × Machine

inductive WorkerFault where
  | stopped
  | failed (trouble : Trouble)
  deriving DecidableEq, Repr

def WorkerFault.message : WorkerFault → Bytes
  | stopped => utf8 "vm worker stopped"
  | failed (.report report) => report.text
  | failed (.panic text) => utf8 "vm worker: panic: " ++ text

structure Worker where
  machine : Machine
  stopped : Bool := false

namespace Worker

/-- Runs a job, unless the worker has been stopped. -/
def submit {α : Type} (w : Worker) (job : Job α) : Except WorkerFault α × Worker :=
  if w.stopped then (.error .stopped, w)
  else
    let (result, machine) := job w.machine
    (result.mapError .failed, { w with machine })

theorem submit_running {α : Type} {w : Worker} (h : w.stopped = false) (job : Job α) :
    w.submit job = ((job w.machine).1.mapError .failed, { w with machine := (job w.machine).2 }) := by
  rw [submit, h]
  rfl

def stop (w : Worker) : Worker := { w with stopped := true }

end Worker

end MiniLua.Editor

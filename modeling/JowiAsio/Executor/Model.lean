import Mathlib.Data.List.Basic
import JowiAsio.Lib.Atomic
import JowiAsio.Lib.Machine

/-!
The workers of a `PoolExecutor` (`executor.cc`) and the registry of event
loops (`event_loop.cc`), as a machine.

A worker has a thread, which runs `thread_work`, and an atomic word with
two flags, by which whoever owns the worker tells the thread what to do.
The two run concurrently. The steps of the owner are those of the
constructor, of `start` and `stop`, which retry a compare-exchange, and of
the destructor; one step of `thread_work` goes up to its next load or its
next call. The word can be read before the constructor has initialised
it. What such a load gives is in the label of the step.

`I` are the thread ids, which are unique among the threads that have not
been joined, and `L` are the event loops.
-/

namespace JowiAsio.Executor

open Lib

variable {I L : Type}

/-! ### The registry -/

/-- `EventLoop::__local_loop`. -/
abbrev Registry (I L : Type) := I → Option L

def registerEventLoop [DecidableEq I] (r : Registry I L) (l : L) (id : I) :
    Bool × Registry I L :=
  match r id with
  | none => (true, Function.update r id (some l))
  | some _ => (false, r)

def getEventLoop (r : Registry I L) (id : I) : Option L := r id

/-! ### The flags and `thread_work` -/

/-- `StateType`: the start signal and the stop signal. -/
structure Flags where
  start : Bool
  stop : Bool
  deriving DecidableEq

/-- Where a thread is in `thread_work`. -/
inductive Thread (L : Type)
  /-- before a load, to start or to wait for a signal -/
  | wait
  /-- before `require_event_loop` -/
  | require (state : Flags)
  /-- before the condition of the loop that calls `run_one` -/
  | work (loop : L) (state : Flags)
  /-- after `run_one`, before the next load -/
  | reload (loop : L)
  | returned
  /-- `require_event_loop` has thrown, and nothing catches it -/
  | terminated

/-- One step of `thread_work`. `loaded` is what a load gives, and
`registered` the loop of the thread's own id. -/
def Thread.step (loaded : Flags) (registered : Option L) : Thread L → Option (Thread L)
  | .wait => some (if !loaded.start && loaded.stop then .wait else .require loaded)
  | .require state =>
      some (match registered with
        | some loop => .work loop state
        | none => .terminated)
  -- with the flag, `run_one` is called
  | .work loop state => some (if state.stop then .reload loop else .returned)
  | .reload loop => some (.work loop loaded)
  | .returned | .terminated => none

/-! ### A worker -/

/-- What the owner of a worker is doing with it. -/
inductive Control
  /-- in the constructor: the thread runs, `__state` comes next -/
  | initialise
  /-- in the body of the constructor -/
  | register
  | idle
  /-- in `start`, before its compare-exchange -/
  | starting (e d : Flags)
  /-- in `stop`, before its compare-exchange -/
  | stopping (e d : Flags)
  /-- in the destructor, after `__finalise_state` -/
  | joining
  | destroyed
  deriving DecidableEq

/-- A worker with the loop that its constructor got. -/
structure Worker (I L : Type) where
  loop : L
  id : I
  word : Option Flags
  control : Control
  thread : Thread L

/-- The next step with a worker, of its owner or of its thread. -/
inductive Action
  | initialise
  | register
  | start
  | stop
  | compareExchange (spurious : Bool)
  | destroy
  | join
  | thread (uninitialised : Flags)

namespace Worker

/-- `__t` is initialised first: the thread runs from then on. -/
def construct (id : I) (loop : L) : Worker I L := ⟨loop, id, none, .initialise, .wait⟩

/-- The compare-exchange of `start`, and its loop body when that succeeds. -/
def startStep (spurious : Bool) (v : Worker I L) (word e d : Flags) : Worker I L :=
  let r := casWeak spurious word e d
  { v with
    word := some r.cell
    control := if r.ok then .starting r.expected ⟨true, r.expected.stop⟩ else .idle }

/-- The compare-exchange of `stop`, and its loop body when that succeeds. -/
def stopStep (spurious : Bool) (v : Worker I L) (word e d : Flags) : Worker I L :=
  let r := casWeak spurious word e d
  { v with
    word := some r.cell
    control := if r.ok then .stopping r.expected ⟨r.expected.start, true⟩ else .idle }

def step [DecidableEq I] (r : Registry I L) (v : Worker I L) (a : Action) :
    Option (Worker I L × Registry I L) :=
  match v.control, a with
  | .initialise, .initialise =>
      some ({ v with word := some ⟨false, true⟩, control := .register }, r)
  -- whether the registration succeeds is ignored
  | .register, .register =>
      some ({ v with control := .idle }, (registerEventLoop r v.loop v.id).2)
  | .idle, .start => some ({ v with control := .starting ⟨false, false⟩ ⟨true, false⟩ }, r)
  | .idle, .stop => some ({ v with control := .stopping ⟨true, false⟩ ⟨true, true⟩ }, r)
  | .starting e d, .compareExchange spurious =>
      v.word.map fun word => (v.startStep spurious word e d, r)
  | .stopping e d, .compareExchange spurious =>
      v.word.map fun word => (v.stopStep spurious word e d, r)
  | .idle, .destroy => some ({ v with word := some ⟨true, true⟩, control := .joining }, r)
  | .joining, .join =>
      match v.thread with
      | .returned => some ({ v with control := .destroyed }, r)
      | _ => none
  | _, .thread uninitialised =>
      (v.thread.step (v.word.getD uninitialised) (getEventLoop r v.id)).map fun t =>
        ({ v with thread := t }, r)
  | _, _ => none

end Worker

/-! ### All workers -/

structure State (I L : Type) where
  registry : Registry I L
  workers : List (Worker I L)

/-- A worker is constructed, whose thread gets an id that no thread has
which has not been joined; or the next step with the worker `w`. -/
inductive Label (I L : Type)
  | construct (id : I) (loop : L)
  | worker (w : ℕ) (a : Action)

section

variable [DecidableEq I]

def workerStep (s : State I L) (w : ℕ) (a : Action) : Option (State I L) :=
  s.workers[w]?.bind fun v =>
    (v.step s.registry a).map fun p => ⟨p.2, s.workers.set w p.1⟩

def step (s : State I L) : Label I L → Option (State I L)
  | .construct id loop =>
      if ∀ v ∈ s.workers, v.control ≠ .destroyed → v.id ≠ id then
        some { s with workers := s.workers ++ [.construct id loop] }
      else none
  | .worker w a => workerStep s w a

end

def init : State I L := ⟨fun _ => none, []⟩

end JowiAsio.Executor

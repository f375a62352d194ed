import Mathlib.Logic.Function.Basic
import JowiAsio.Lib.Fifo
import JowiAsio.Lib.Machine

/-!
`BasicTask`, its two awaitables and the `EventLoop` (`basic_task.cc`,
`event_loop.cc`), run on one thread by `parallel_expected`
(`executor.cc`), as a machine.

A task's coroutine is given by its `Body`: what it does until it ends.
The machine has the coroutines, the queue of the loop and the call stack
of the thread. A step works on the topmost frame of the stack, so that
`TaskAwaitable`, which waits by calling `run_one` from inside the awaiting
coroutine, nests as deeply as it does in the program.

The poll awaitables are a parameter: `poll p w` is one call of
`await_ready` on an awaitable with state `p` when the rest of the world
(a set of semaphores, say) is `w`.

The queue is the bounded FIFO that `RingbufQueue` is when one thread uses
it. A push that finds it full spins.
-/

namespace JowiAsio.EventLoop

open Lib

/-! ### Tasks -/

/-- What one call of `await_ready` on a poll awaitable gives: the
awaitable still waits, or it is ready and `await_resume` will return `v`,
or the poll throws. -/
inductive Poll (π V ε : Type)
  | notReady (p : π)
  | ready (v : V)
  | threw (e : ε)

/-- The coroutine of a `BasicTask`, from the point it has reached. `act`
is a computation that changes the world outside the task, such as the
release of a semaphore; the continuations of the two awaits get the value
of `await_resume`, or the exception that is raised at the await. -/
inductive Body (π V ε σ : Type)
  | coReturn (v : V)
  | throw (e : ε)
  | act (f : σ → σ) (next : Body π V ε σ)
  | poll (p : π) (next : Except ε V → Body π V ε σ)
  | await (child : Body π V ε σ) (next : Except ε V → Body π V ε σ)

variable {π V ε σ : Type}

/-- What a coroutine does with the outcome of an await. -/
abbrev Cont (π V ε σ : Type) := Except ε V → Body π V ε σ

/-- A coroutine: not created yet, at its initial suspend point, on the
call stack, suspended in `LoopAwaitable::await_suspend`, or at its final
suspend point with what its `PromiseState` holds. The coroutines of
`__rec_wait`, which resume the coroutine `h`, have their own states. -/
inductive Coro (π V ε σ : Type)
  | absent
  | start (b : Body π V ε σ)
  | running
  | waiting (p : π) (next : Cont π V ε σ)
  | finished (r : Except ε V)
  | recWait (h : ℕ)
  | recRunning
  | recFinished
  | destroyed

/-- An entry of the queue: a handle with its `CoroStateDeleter`. -/
structure Entry where
  coro : ℕ
  owning : Bool
  deriving DecidableEq

/-- A frame of the call stack. -/
inductive Frame (π V ε σ : Type)
  /-- `run_forever`, before its next `run_one` -/
  | runForever
  /-- `run_one`, while the coroutine it took from the queue runs -/
  | runOne (e : Entry)
  /-- `EventLoop::push`, before its next attempt -/
  | push (e : Entry)
  /-- the coroutine `c`, about to do `b` -/
  | exec (c : ℕ) (b : Body π V ε σ)
  /-- `TaskAwaitable::await_suspend` called by `c`, before its loop condition -/
  | awaitLoop (c child : ℕ) (next : Cont π V ε σ)
  /-- the coroutine `r` of `__rec_wait(loop, h)`, before its `await_ready` -/
  | recWait (r h : ℕ)
  /-- the same, before its `co_return` -/
  | recReturn (r : ℕ)

/-- How the run of the thread ended. -/
inductive Outcome
  | running
  /-- `run_forever` has returned -/
  | returned
  /-- an exception left a `noexcept` function -/
  | terminated
  /-- undefined behaviour: the value of an empty `PromiseState` was read,
  or a coroutine was resumed that is not suspended there -/
  | undefined
  deriving DecidableEq

/-- The call stack, the topmost frame first. -/
abbrev Stack (π V ε σ : Type) := List (Frame π V ε σ)

structure State (π V ε σ : Type) where
  coros : ℕ → Coro π V ε σ
  created : ℕ
  queue : List Entry
  capacity : ℕ
  stack : Stack π V ε σ
  world : σ
  outcome : Outcome

namespace State

/-- Call: a frame is put on the stack. -/
def enter (s : State π V ε σ) (f : Frame π V ε σ) : State π V ε σ :=
  { s with stack := f :: s.stack }

/-- The frames below the topmost one. -/
def below (s : State π V ε σ) (rest : Stack π V ε σ) : State π V ε σ := { s with stack := rest }

def setCoro (s : State π V ε σ) (c : ℕ) (x : Coro π V ε σ) : State π V ε σ :=
  { s with coros := Function.update s.coros c x }

def setQueue (s : State π V ε σ) (q : List Entry) : State π V ε σ := { s with queue := q }

def setWorld (s : State π V ε σ) (w : σ) : State π V ε σ := { s with world := w }

/-- A coroutine is created, and `EventLoop::push` is called with it. -/
def pushNew (s : State π V ε σ) (x : Coro π V ε σ) (owning : Bool) : State π V ε σ :=
  { s with
    coros := Function.update s.coros s.created x
    created := s.created + 1
    stack := .push ⟨s.created, owning⟩ :: s.stack }

def halt (s : State π V ε σ) (o : Outcome) : State π V ε σ :=
  { s with stack := [], outcome := o }

/-- `resume()` on the handle of `c`. -/
def resume (s : State π V ε σ) (c : ℕ) : State π V ε σ :=
  match s.coros c with
  | .start b => (s.setCoro c .running).enter (.exec c b)
  | .recWait h => (s.setCoro c .recRunning).enter (.recWait c h)
  | _ => s.halt .undefined

/-- `run_one`, called by the topmost frame; there is none to run when the
queue is empty. -/
def runOne (s : State π V ε σ) : Option (State π V ε σ) :=
  match s.queue with
  | [] => none
  | e :: q => some (((s.setQueue q).enter (.runOne e)).resume e.coro)

/-- `LoopAwaitable::await_suspend`, and the failing branch of
`__rec_wait`: a coroutine that polls again for `h` is created and
pushed. -/
def recWait (s : State π V ε σ) (h : ℕ) : State π V ε σ := s.pushNew (.recWait h) true

end State

/-! ### The step function -/

section

variable (poll : π → σ → Poll π V ε × σ)

/-- The coroutine `c` goes on with `b`. The frame of `c` has been taken
from the stack of `s`. -/
def execStep (s : State π V ε σ) (c : ℕ) : Body π V ε σ → State π V ε σ
  | .coReturn v => s.setCoro c (.finished (.ok v))
  | .throw e => s.setCoro c (.finished (.error e))
  | .act f next => (s.setWorld (f s.world)).enter (.exec c next)
  | .poll p next =>
      match poll p s.world with
      | (.ready v, w) => (s.setWorld w).enter (.exec c (next (.ok v)))
      | (.threw e, w) => (s.setWorld w).enter (.exec c (next (.error e)))
      | (.notReady p', w) => ((s.setWorld w).setCoro c (.waiting p' next)).recWait c
  -- the child is created by the expression that awaits it, so it is not
  -- complete when `await_ready` asks
  | .await child next => (s.enter (.awaitLoop c s.created next)).pushNew (.start child) false

/-- `__rec_wait(loop, h)` calls `await_ready`. An exception of the poll is
captured in the promise of `__rec_wait`, and nothing resumes `h`. -/
def recWaitStep (s : State π V ε σ) (r h : ℕ) : State π V ε σ :=
  match s.coros h with
  | .waiting p next =>
      match poll p s.world with
      | (.ready v, w) =>
          (((s.setWorld w).setCoro h .running).enter (.recReturn r)).enter
            (.exec h (next (.ok v)))
      | (.threw _, w) => (s.setWorld w).enter (.recReturn r)
      | (.notReady p', w) =>
          (((s.setWorld w).setCoro h (.waiting p' next)).enter (.recReturn r)).recWait h
  | _ => s.halt .undefined

/-- The loop of `TaskAwaitable::await_suspend`. When it ends, the awaiting
coroutine is resumed and `await_resume` reads the value of the child. The
child is destroyed with the `TaskAwaitable`. -/
def awaitLoopStep (s : State π V ε σ) (c child : ℕ) (next : Cont π V ε σ) : State π V ε σ :=
  match s.coros child with
  | .finished (.ok v) => (s.setCoro child .destroyed).enter (.exec c (next (.ok v)))
  -- `await_resume` is `noexcept`
  | .finished (.error _) => s.halt .terminated
  | _ => ((s.enter (.awaitLoop c child next)).runOne).getD (s.halt .undefined)

/-- One step of the thread. There is none once the run has ended. -/
def step (s : State π V ε σ) (_ : Unit) : Option (State π V ε σ) :=
  match s.stack with
  | [] => none
  | f :: rest =>
      let s := s.below rest
      match f with
      | .runForever => some (((s.enter .runForever).runOne).getD (s.halt .returned))
      | .runOne e => some (if e.owning then s.setCoro e.coro .destroyed else s)
      | .push e =>
          some (match Fifo.push (s.capacity - 1) s.queue e with
            | some q => s.setQueue q
            | none => s.enter (.push e))
      | .exec c b => some (execStep poll s c b)
      | .awaitLoop c child next => some (awaitLoopStep s c child next)
      | .recWait r h => some (recWaitStep poll s r h)
      | .recReturn r => some (s.setCoro r .recFinished)

end

/-- `parallel_expected(ts...)` on a loop that was empty, when its pushes
are done and it calls `run_forever`. There is no such state when the
tasks do not fit into the queue: then the pushes spin. -/
def parallelExpected (capacity : ℕ) (w : σ) (ts : List (Body π V ε σ)) :
    Option (State π V ε σ) :=
  ((List.range ts.length).foldlM (fun q c => Fifo.push (capacity - 1) q ⟨c, false⟩) []).map
    fun q =>
      { coros := fun c => (ts[c]?.map Coro.start).getD .absent
        created := ts.length
        queue := q
        capacity := capacity
        stack := [.runForever]
        world := w
        outcome := .running }

/-- `expected_value()` of the task `c`. -/
def State.expectedValue (s : State π V ε σ) (c : ℕ) : Option (Except ε V) :=
  match s.coros c with
  | .finished r => some r
  | _ => none

end JowiAsio.EventLoop

import JowiAsio.EventLoop.Model

/-!
Tasks on one `EventLoop` that several threads run.

The workers of a `PoolExecutor` (`executor.cc`) all call `run_one` on the
loop that they were registered with, again and again, and a thread in
`run_forever` on that loop is one more of them. Each has its own call
stack. They share the coroutines, the queue and the world that tasks act
on, and a step of the machine is one step of one of them: a push, a pop,
a test of the completion flag, a poll, or what a coroutine does between
two of these.

Bodies, polls and entries of the queue are those of the machine for one
thread. What differs is what another thread can see: a coroutine that has
set its flag still runs until it is suspended at its final suspend point
(`completing`), and the loop of `TaskAwaitable::await_suspend` tests the
flag and pops the queue in two steps.

The queue is a bounded FIFO, with one step for a push and one for a pop.
A push that finds it full spins. On `RingbufQueue` a push claims its slot
and stores in it later, and a pop that claims the slot in between returns
nothing. So what is proved of the workers is about the runs in which no
pop claims a slot before its push has stored; those calls are linearizable
to a FIFO (`Ringbuf.ClaimsStored`).
-/

namespace JowiAsio.Workers

open Lib
open EventLoop (Body Cont Entry Poll)

variable {π V ε σ : Type}

/-- A coroutine of a task, or of `__rec_wait`, which resumes the coroutine
`h`. -/
inductive Coro (π V ε σ : Type)
  | absent
  /-- at its initial suspend point -/
  | start (b : Body π V ε σ)
  /-- on the stack of a worker -/
  | running
  /-- the same, but `PromiseState` holds `r` and its flag is set -/
  | completing (r : Except ε V)
  /-- suspended in `LoopAwaitable::await_suspend` -/
  | waiting (p : π) (next : Cont π V ε σ)
  /-- the same, but the poll threw inside `__rec_wait` -/
  | lost
  /-- at its final suspend point -/
  | finished (r : Except ε V)
  | recWait (h : ℕ)
  | recRunning
  | recFinished
  | destroyed

/-- What its `PromiseState` holds. -/
def Coro.promiseState : Coro π V ε σ → Option (Except ε V)
  | .completing r | .finished r => some r
  | _ => none

/-- `emplace` and `capture_exception` set the flag right after the value. -/
def Coro.isComplete (x : Coro π V ε σ) : Bool := x.promiseState.isSome

/-- A frame of the call stack of a worker. -/
inductive Frame (π V ε σ : Type)
  /-- `run_one`, while the coroutine it took from the queue runs -/
  | runOne (e : Entry)
  /-- `EventLoop::push`, before its next attempt -/
  | push (e : Entry)
  /-- the coroutine `c`, about to do `b` -/
  | exec (c : ℕ) (b : Body π V ε σ)
  /-- the coroutine `c`, on its way to its final suspend point -/
  | finish (c : ℕ) (r : Except ε V)
  /-- `TaskAwaitable::await_suspend` called by `c`, before it tests the flag -/
  | test (c child : ℕ) (next : Cont π V ε σ)
  /-- the same, before it calls `run_one` -/
  | take (c child : ℕ) (next : Cont π V ε σ)
  /-- `await_suspend` has returned the handle of `c`, which is resumed and
  is about to call `await_resume` -/
  | resume (c child : ℕ) (next : Cont π V ε σ)
  /-- the coroutine `r` of `__rec_wait(loop, h)`, before its `await_ready` -/
  | recWait (r h : ℕ)
  /-- the same, before its `co_return` -/
  | recReturn (r : ℕ)

/-- The call stack of a worker, the topmost frame first. With the empty
one the worker is in the loop of `thread_work`. -/
abbrev Stack (π V ε σ : Type) := List (Frame π V ε σ)

/-- What the workers share. -/
structure Shared (π V ε σ : Type) where
  coros : ℕ → Coro π V ε σ
  created : ℕ
  queue : List Entry
  capacity : ℕ
  world : σ

/-- How the run of the program ended. -/
inductive Outcome
  | running
  /-- an exception left a `noexcept` function -/
  | terminated
  /-- undefined behaviour: a task was read or destroyed, or a coroutine
  resumed, that is not suspended there -/
  | undefined
  deriving DecidableEq

/-- What a worker leaves behind, or how it ended the program. -/
abbrev Result (π V ε σ : Type) := Except Outcome (Shared π V ε σ × Stack π V ε σ)

namespace Shared

def setCoro (s : Shared π V ε σ) (c : ℕ) (x : Coro π V ε σ) : Shared π V ε σ :=
  { s with coros := Function.update s.coros c x }

def setQueue (s : Shared π V ε σ) (q : List Entry) : Shared π V ε σ := { s with queue := q }

def setWorld (s : Shared π V ε σ) (w : σ) : Shared π V ε σ := { s with world := w }

/-- A coroutine is created, with the number `s.created`. -/
def create (s : Shared π V ε σ) (x : Coro π V ε σ) : Shared π V ε σ :=
  { s with coros := Function.update s.coros s.created x, created := s.created + 1 }

/-- `resume()` on the handle of `c`. -/
def resume (s : Shared π V ε σ) (c : ℕ) (below : Stack π V ε σ) : Result π V ε σ :=
  match s.coros c with
  | .start b => .ok (s.setCoro c .running, .exec c b :: below)
  | .recWait h => .ok (s.setCoro c .recRunning, .recWait c h :: below)
  | _ => .error .undefined

/-- `run_one` pops the entry `e`, which leaves `q` in the queue. -/
def runOne (s : Shared π V ε σ) (e : Entry) (q : List Entry) (below : Stack π V ε σ) :
    Result π V ε σ :=
  (s.setQueue q).resume e.coro (.runOne e :: below)

/-- `CoroStateDeleter` on an owning entry. The coroutine has to be
suspended, here or at another point than the one `run_one` resumed. -/
def destroyOwned (s : Shared π V ε σ) (c : ℕ) (below : Stack π V ε σ) : Result π V ε σ :=
  match s.coros c with
  | .start _ | .waiting _ _ | .lost | .finished _ | .recWait _ | .recFinished =>
      .ok (s.setCoro c .destroyed, below)
  | _ => .error .undefined

/-- `LoopAwaitable::await_suspend`, and the failing branch of
`__rec_wait`: a coroutine that polls again for `h` is created and
pushed. -/
def recWait (s : Shared π V ε σ) (h : ℕ) (below : Stack π V ε σ) :
    Shared π V ε σ × Stack π V ε σ :=
  (s.create (.recWait h), .push ⟨s.created, true⟩ :: below)

end Shared

/-! ### The step functions -/

section

variable (poll : π → σ → Poll π V ε × σ)

/-- The coroutine `c` goes on, above the frames `below`. -/
def execStep (s : Shared π V ε σ) (c : ℕ) (below : Stack π V ε σ) :
    Body π V ε σ → Shared π V ε σ × Stack π V ε σ
  -- the value is stored and the flag is set; nothing is suspended yet
  | .coReturn v => (s.setCoro c (.completing (.ok v)), .finish c (.ok v) :: below)
  | .throw e => (s.setCoro c (.completing (.error e)), .finish c (.error e) :: below)
  | .act f next => (s.setWorld (f s.world), .exec c next :: below)
  | .poll p next =>
      match poll p s.world with
      | (.ready v, w) => (s.setWorld w, .exec c (next (.ok v)) :: below)
      | (.threw e, w) => (s.setWorld w, .exec c (next (.error e)) :: below)
      | (.notReady p', w) => ((s.setWorld w).setCoro c (.waiting p' next)).recWait c below
  -- the child is not complete when `await_ready` asks, and it is pushed
  | .await child next =>
      (s.create (.start child), .push ⟨s.created, false⟩ :: .test c s.created next :: below)

/-- `__rec_wait(loop, h)` calls `await_ready`. -/
def recWaitStep (s : Shared π V ε σ) (r h : ℕ) (below : Stack π V ε σ) : Result π V ε σ :=
  match s.coros h with
  | .waiting p next =>
      match poll p s.world with
      | (.ready v, w) =>
          .ok ((s.setWorld w).setCoro h .running, .exec h (next (.ok v)) :: .recReturn r :: below)
      -- captured in the promise of `__rec_wait`
      | (.threw _, w) => .ok ((s.setWorld w).setCoro h .lost, .recReturn r :: below)
      | (.notReady p', w) =>
          .ok (((s.setWorld w).setCoro h (.waiting p' next)).recWait h (.recReturn r :: below))
  | _ => .error .undefined

/-- `await_resume` reads the value of the child, and the `TaskAwaitable`
destroys the child. -/
def awaitResumeStep (s : Shared π V ε σ) (c child : ℕ) (next : Cont π V ε σ)
    (below : Stack π V ε σ) : Result π V ε σ :=
  match s.coros child with
  | .finished (.ok v) => .ok (s.setCoro child .destroyed, .exec c (next (.ok v)) :: below)
  -- `await_resume` is `noexcept`
  | .finished (.error _) => .error .terminated
  | _ => .error .undefined

/-- One step of a worker, given its stack. -/
def workerStep (s : Shared π V ε σ) : Stack π V ε σ → Result π V ε σ
  | [] =>
      match s.queue with
      | [] => .ok (s, [])
      | e :: q => s.runOne e q []
  | .runOne e :: below => if e.owning then s.destroyOwned e.coro below else .ok (s, below)
  | .push e :: below =>
      match Fifo.push (s.capacity - 1) s.queue e with
      | some q => .ok (s.setQueue q, below)
      | none => .ok (s, .push e :: below)
  | .exec c b :: below => .ok (execStep poll s c below b)
  | .finish c r :: below => .ok (s.setCoro c (.finished r), below)
  | .test c child next :: below =>
      if (s.coros child).isComplete then .ok (s, .resume c child next :: below)
      else .ok (s, .take c child next :: below)
  | .take c child next :: below =>
      match s.queue with
      | [] => .ok (s, .resume c child next :: below)
      | e :: q => s.runOne e q (.test c child next :: below)
  | .resume c child next :: below => awaitResumeStep s c child next below
  | .recWait r h :: below => recWaitStep poll s r h below
  | .recReturn r :: below => .ok (s.setCoro r .recFinished, below)

end

/-! ### The program -/

structure State (π V ε σ : Type) where
  shared : Shared π V ε σ
  workers : List (Stack π V ε σ)
  outcome : Outcome

inductive Label (π V ε σ : Type)
  /-- a task that runs `b` is created outside and pushed -/
  | push (b : Body π V ε σ) (owning : Bool)
  /-- a step of the worker `w` -/
  | worker (w : ℕ)

/-- One step of the program. There is none once it has ended. -/
def step (poll : π → σ → Poll π V ε × σ) (s : State π V ε σ) :
    Label π V ε σ → Option (State π V ε σ)
  | .push b owning =>
      if s.outcome = .running then
        (Fifo.push (s.shared.capacity - 1) s.shared.queue ⟨s.shared.created, owning⟩).map fun q =>
          { s with shared := (s.shared.create (.start b)).setQueue q }
      else none
  | .worker w =>
      if s.outcome = .running then
        s.workers[w]?.map fun stack =>
          match workerStep poll s.shared stack with
          | .ok (shared, stack') => { s with shared := shared, workers := s.workers.set w stack' }
          | .error o => { s with outcome := o }
      else none

/-- `n` workers on a loop with nothing in its queue. -/
def init (capacity n : ℕ) (w : σ) : State π V ε σ where
  shared :=
    { coros := fun _ => .absent
      created := 0
      queue := []
      capacity := capacity
      world := w }
  workers := List.replicate n []
  outcome := .running

end JowiAsio.Workers

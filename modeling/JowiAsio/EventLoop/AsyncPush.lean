import Mathlib.Logic.Function.Basic
import JowiAsio.EventLoop.Model

/-!
`EventLoop::apush` (`event_loop.cc`), awaited by coroutines that run on
the loop.

An await makes its first `try_push` before it suspends. In a `BasicTask`
the `AsyncPush` is awaited through `LoopAwaitable` (`basic_task.cc`), which
suspends the coroutine by pushing a coroutine of `__rec_wait` with
`EventLoop::push`. That spins while the queue is full, and it is full
then. On one thread nobody makes room for it. Coroutines of another type
call the `await_suspend` of the `AsyncPush`, which spins as well.

The machine has one thread. What the code on it does next is in the
labels: the program that owns the loop, and the coroutines, which create
tasks, push their handles, call `run_one` and await. So a run of the
machine is a run of any program. `apushed` records with what `apush` was
awaited, and `enqueued` what these awaits have enqueued.
-/

namespace JowiAsio.EventLoop.AsyncPush

open Lib

/-- A coroutine that can be resumed: a task's, or one of
`__rec_wait(loop, h)`, which is pushed when it is created. -/
inductive Handle
  | task (c : ℕ)
  | recWait (h : ℕ)
  deriving DecidableEq

/-- A handle with its `CoroStateDeleter`. -/
structure Entry where
  handle : Handle
  owning : Bool
  deriving DecidableEq

/-- The coroutine of a task: not created yet, at its initial suspend point,
on the call stack, suspended by `LoopAwaitable`, or at its final suspend
point. In an `AsyncPush` it is suspended with the `__ptr` of that. -/
inductive Coro
  | absent
  | start
  | running
  | polling
  | pushing (ptr : Option Entry)
  | finished
  | destroyed
  deriving DecidableEq

/-- A frame of the call stack. -/
inductive Frame
  /-- the program that owns the loop -/
  | main
  /-- `run_one`, while the coroutine it took from the queue runs -/
  | runOne (e : Entry)
  /-- `EventLoop::push`, before its next attempt -/
  | push (e : Entry)
  /-- the coroutine `c` -/
  | exec (c : ℕ)
  /-- `TaskAwaitable::await_suspend` called by `c`, before its loop condition -/
  | awaitLoop (c child : ℕ)
  /-- a coroutine of `__rec_wait(loop, h)`, before its `await_ready` -/
  | recWait (h : ℕ)
  /-- the same, before its `co_return` -/
  | recReturn
  /-- `AsyncPush::await_suspend` called by `c`, after its push -/
  | asyncReturn (c : ℕ)
  deriving DecidableEq

/-- What a call of `await_ready` on another poll awaitable gives. -/
inductive Polled
  | notReady
  | ready
  | threw
  deriving DecidableEq

/-- What code on the thread does next. `apush own h owning` awaits
`apush(h, owning)`, in a `BasicTask` or, with `own`, by the `await_suspend`
of the `AsyncPush`. -/
inductive Act
  | spawn
  | push (h : ℕ) (owning : Bool)
  | runOne
  | apush (own : Bool) (h : ℕ) (owning : Bool)
  | poll (res : Polled)
  | await (child : ℕ)
  | coReturn
  deriving DecidableEq

/-- The steps: what the topmost code does next, the outcome of a poll in
`__rec_wait`, and what the thread does by itself. -/
inductive Label
  | act (a : Act)
  | polled (res : Polled)
  | thread
  deriving DecidableEq

structure State where
  coros : ℕ → Coro
  created : ℕ
  queue : List Entry
  capacity : ℕ
  stack : List Frame
  outcome : Outcome
  apushed : List Entry
  enqueued : List Entry

namespace State

def enter (s : State) (f : Frame) : State := { s with stack := f :: s.stack }

/-- The frames below the topmost one. -/
def below (s : State) (rest : List Frame) : State := { s with stack := rest }

def setCoro (s : State) (c : ℕ) (x : Coro) : State :=
  { s with coros := Function.update s.coros c x }

def setQueue (s : State) (q : List Entry) : State := { s with queue := q }

def halt (s : State) (o : Outcome) : State := { s with stack := [], outcome := o }

/-- A task is created. -/
def spawn (s : State) : State :=
  { s with
    coros := Function.update s.coros s.created .start
    created := s.created + 1 }

/-- `resume()` on a handle. -/
def resume (s : State) : Handle → State
  | .task c =>
      match s.coros c with
      | .start | .polling | .pushing _ => (s.setCoro c .running).enter (.exec c)
      | _ => s.halt .undefined
  | .recWait h => s.enter (.recWait h)

/-- `run_one`, called by the topmost frame. -/
def runOne (s : State) : Option State :=
  match s.queue with
  | [] => none
  | e :: q => some (((s.setQueue q).enter (.runOne e)).resume e.handle)

/-- `LoopAwaitable::await_suspend`, and the failing branch of
`__rec_wait`. -/
def recWait (s : State) (h : ℕ) : State := s.enter (.push ⟨.recWait h, true⟩)

/-- `AsyncPush::await_suspend`. -/
def awaitSuspend (s : State) (c : ℕ) (e : Entry) : State :=
  (s.enter (.asyncReturn c)).enter (.push e)

/-- `try_push`, which gives back what it could not enqueue. -/
def tryPush (s : State) (e : Entry) : Option Entry × State :=
  match Fifo.push (s.capacity - 1) s.queue e with
  | some q => (none, { s with queue := q, enqueued := s.enqueued ++ [e] })
  | none => (some e, s)

/-- The coroutine `c` awaits `apush`: the first `await_ready`, and
`await_suspend` if that fails. The frame of `c` has been taken from the
stack of `s`. -/
def apush (s : State) (c : ℕ) (own : Bool) (e : Entry) : State :=
  match { s with apushed := s.apushed ++ [e] }.tryPush e with
  | (none, s') => s'.enter (.exec c)
  | (some e', s') =>
      if own then (s'.setCoro c (.pushing (some e'))).awaitSuspend c e'
      else (s'.setCoro c (.pushing (some e'))).recWait c

/-- The coroutine `c` awaits another poll awaitable. An exception is raised
in it. -/
def poll (s : State) (c : ℕ) : Polled → State
  | .ready | .threw => s.enter (.exec c)
  | .notReady => (s.setCoro c .polling).recWait c

/-- The coroutine `c` awaits the task `child`. -/
def await (s : State) (c child : ℕ) : State :=
  match s.coros child with
  | .finished => s.enter (.exec c)
  | _ => (s.enter (.awaitLoop c child)).enter (.push ⟨.task child, false⟩)

/-- What the program and a coroutine can both do. -/
def call (s : State) : Act → Option State
  | .spawn => some s.spawn
  | .push h owning => some (s.enter (.push ⟨.task h, owning⟩))
  | .runOne => some (s.runOne.getD s)
  | _ => none

/-- The coroutine `c`, whose frame is above `rest`, does `a`. -/
def exec (s : State) (rest : List Frame) (c : ℕ) : Act → Option State
  | .apush own h owning => some ((s.below rest).apush c own ⟨.task h, owning⟩)
  | .poll res => some ((s.below rest).poll c res)
  | .await child => some ((s.below rest).await c child)
  | .coReturn => some ((s.below rest).setCoro c .finished)
  | a => s.call a

/-- `__rec_wait(loop, h)` after a poll. An exception of the poll is captured
in its promise, and nothing resumes `h`. -/
def recPolled (s : State) (h : ℕ) : Polled → State
  | .ready => ((s.setCoro h .running).enter .recReturn).enter (.exec h)
  | .threw => s.enter .recReturn
  | .notReady => (s.enter .recReturn).recWait h

/-- `__rec_wait(loop, h)` for an `AsyncPush`; `value()` of an empty `__ptr`
throws. -/
def recPush (s : State) (h : ℕ) : Option Entry → State
  | none => s.enter .recReturn
  | some e =>
      match s.tryPush e with
      | (none, s') => ((s'.setCoro h .running).enter .recReturn).enter (.exec h)
      | (some e', s') => ((s'.setCoro h (.pushing (some e'))).enter .recReturn).recWait h

/-- `AsyncPush::await_suspend` returns the handle of `c`, which goes on. -/
def asyncReturn (s : State) (c : ℕ) : State :=
  match s.coros c with
  | .pushing (some e) =>
      (({ s with enqueued := s.enqueued ++ [e] }).setCoro c .running).enter (.exec c)
  | _ => s.halt .undefined

/-- The frame of `run_one` is left, with the entry. -/
def leaveRunOne (s : State) (e : Entry) : State :=
  match e.handle with
  | .task c => if e.owning then s.setCoro c .destroyed else s
  | .recWait _ => s

/-- The loop of `TaskAwaitable::await_suspend`. When the queue is empty it
ends before the child is complete, and `await_resume` reads no value. -/
def awaitLoop (s : State) (c child : ℕ) : State :=
  match s.coros child with
  | .finished => s.enter (.exec c)
  | _ => ((s.enter (.awaitLoop c child)).runOne).getD (s.halt .undefined)

end State

def step (s : State) : Label → Option State
  | .act a =>
      match s.stack with
      | .main :: _ => s.call a
      | .exec c :: rest => s.exec rest c a
      | _ => none
  | .polled res =>
      match s.stack with
      | .recWait h :: rest =>
          match s.coros h with
          | .polling => some ((s.below rest).recPolled h res)
          | _ => none
      | _ => none
  | .thread =>
      match s.stack with
      | .runOne e :: rest => some ((s.below rest).leaveRunOne e)
      | .push e :: rest =>
          some (match Fifo.push (s.capacity - 1) s.queue e with
            | some q => (s.below rest).setQueue q
            | none => s)
      | .awaitLoop c child :: rest => some ((s.below rest).awaitLoop c child)
      | .recWait h :: rest =>
          match s.coros h with
          | .pushing ptr => some ((s.below rest).recPush h ptr)
          | .polling => none
          | _ => some (s.halt .undefined)
      | .recReturn :: rest => some (s.below rest)
      | .asyncReturn c :: rest => some ((s.below rest).asyncReturn c)
      | _ => none

/-- The loop before anything has been pushed. -/
def init (capacity : ℕ) : State :=
  ⟨fun _ => .absent, 0, [], capacity, [.main], .running, [], []⟩

/-! ### What an await of `apush` has to do -/

/-- The push of `x` by the topmost frame is a step of the await of `c`. -/
def PushesFor (c : ℕ) (x : Entry) (rest : List Frame) : Prop :=
  x.handle = .recWait c ∨ rest.head? = some (.asyncReturn c)

/-- No push that is a step of an await of `apush` spins. -/
def NeverSpins (s : State) : Prop :=
  ∀ c x rest ptr, s.stack = .push x :: rest → PushesFor c x rest → s.coros c = .pushing ptr →
    s.queue.length < s.capacity - 1

/-- The awaits that have gone on have enqueued what they were made with
once, and in order. At most one has not gone on, and holds it. -/
def EnqueuesOnce (s : State) : Prop :=
  (s.apushed = s.enqueued ∧ ∀ c ptr, s.coros c ≠ .pushing ptr) ∨
    ∃ c e, s.coros c = .pushing (some e) ∧ (∀ d ptr, s.coros d = .pushing ptr → d = c) ∧
      s.apushed = s.enqueued ++ [e]

/-- The first `await_ready` enqueues the handle and the coroutine goes on,
or the `AsyncPush` keeps the handle with its flag. -/
def EnqueuesOrKeeps (s : State) : Label → State → Prop
  | .act (.apush _ h owning), t => ∀ c rest, s.stack = .exec c :: rest →
      (t.queue = s.queue ++ [⟨.task h, owning⟩] ∧
          t.enqueued = s.enqueued ++ [⟨.task h, owning⟩] ∧ t.stack = s.stack) ∨
        (t.queue = s.queue ∧ t.enqueued = s.enqueued ∧
          t.coros c = .pushing (some ⟨.task h, owning⟩))
  | _, _ => True

/-- The condition on a step: an await of `apush` finds room with its first
`try_push`. -/
def FindsRoom (s : State) : Label → State → Prop
  | .act (.apush _ _ _), _ => ∀ c rest, s.stack = .exec c :: rest →
      s.queue.length < s.capacity - 1
  | _, _ => True

/-! ### Steps that are no await of `apush` -/

/-- The step enqueues nothing for an `AsyncPush`, and no coroutine is
suspended in one that was not before. -/
structure Quiet (s t : State) : Prop where
  apushed : t.apushed = s.apushed
  enqueued : t.enqueued = s.enqueued
  coros : ∀ c ptr, t.coros c = .pushing ptr → s.coros c = .pushing ptr

namespace Quiet

variable {s t u : State}

theorem trans (h : Quiet s t) (h' : Quiet t u) : Quiet s u :=
  ⟨h'.apushed.trans h.apushed, h'.enqueued.trans h.enqueued,
    fun c ptr hc => h.coros c ptr (h'.coros c ptr hc)⟩

theorem enter (h : Quiet s t) (f : Frame) : Quiet s (t.enter f) := ⟨h.1, h.2, h.3⟩

theorem below (rest : List Frame) : Quiet s (s.below rest) := ⟨rfl, rfl, fun _ _ h => h⟩

theorem halt (o : Outcome) : Quiet s (s.halt o) := ⟨rfl, rfl, fun _ _ h => h⟩

theorem refl : Quiet s s := ⟨rfl, rfl, fun _ _ h => h⟩

theorem setQueue (q : List Entry) : Quiet s (s.setQueue q) := ⟨rfl, rfl, fun _ _ h => h⟩

theorem setCoro (c : ℕ) (x : Coro) (hx : ∀ ptr, x ≠ .pushing ptr) : Quiet s (s.setCoro c x) := by
  refine ⟨rfl, rfl, fun d ptr hd => ?_⟩
  simp only [State.setCoro] at hd
  rcases eq_or_ne d c with rfl | hne
  · rw [Function.update_self] at hd
    exact absurd hd (hx ptr)
  · rwa [Function.update_of_ne hne] at hd

theorem resume (h : Handle) : Quiet s (s.resume h) := by
  cases h with
  | recWait h => exact refl.enter _
  | task c =>
      rw [State.resume]
      split
      all_goals first
        | exact (setCoro c .running nofun).enter _
        | exact halt _

theorem runOne (h : s.runOne = some t) : Quiet s t := by
  rw [State.runOne] at h
  split at h
  · cases h
  · rw [← Option.some.inj h]
    exact ((setQueue _).enter _).trans (resume _)

theorem call {a : Act} (h : s.call a = some t) : Quiet s t := by
  cases a with
  | spawn =>
      rw [← Option.some.inj h]
      exact ⟨rfl, rfl, (setCoro (s := s) s.created .start nofun).coros⟩
  | push c owning =>
      rw [← Option.some.inj h]
      exact refl.enter _
  | runOne =>
      rw [← Option.some.inj h]
      cases hrun : s.runOne with
      | none => exact refl
      | some u => exact runOne hrun
  | apush | poll | await | coReturn => cases h

theorem poll (c : ℕ) (res : Polled) : Quiet s (s.poll c res) := by
  cases res with
  | ready | threw => exact refl.enter _
  | notReady => exact (setCoro c .polling nofun).enter _

theorem await (c child : ℕ) : Quiet s (s.await c child) := by
  rw [State.await]
  split
  · exact refl.enter _
  · exact (refl.enter _).enter _

theorem recPolled (h : ℕ) (res : Polled) : Quiet s (s.recPolled h res) := by
  cases res with
  | ready => exact ((setCoro h .running nofun).enter _).enter _
  | threw => exact refl.enter _
  | notReady => exact (refl.enter _).enter _

theorem leaveRunOne (e : Entry) : Quiet s (s.leaveRunOne e) := by
  rw [State.leaveRunOne]
  split
  · split_ifs
    · exact setCoro _ .destroyed nofun
    · exact refl
  · exact refl

theorem awaitLoop (c child : ℕ) : Quiet s (s.awaitLoop c child) := by
  rw [State.awaitLoop]
  split
  · exact refl.enter _
  · cases hrun : (s.enter (.awaitLoop c child)).runOne with
    | none => exact halt _
    | some u => exact (refl.enter _).trans (runOne hrun)

theorem asyncReturn {c : ℕ} (hc : ∀ ptr, s.coros c ≠ .pushing ptr) : Quiet s (s.asyncReturn c) := by
  rw [State.asyncReturn]
  split
  next e he => exact absurd he (hc _)
  next => exact halt _

theorem exec {rest : List Frame} {c : ℕ} {a : Act} (ha : ∀ own d owning, a ≠ .apush own d owning)
    (h : s.exec rest c a = some t) : Quiet s t := by
  cases a with
  | apush own d owning => exact absurd rfl (ha own d owning)
  | poll res =>
      rw [← Option.some.inj h]
      exact (below rest).trans (poll c res)
  | await child =>
      rw [← Option.some.inj h]
      exact (below rest).trans (await c child)
  | coReturn =>
      rw [← Option.some.inj h]
      exact (below rest).trans (setCoro c .finished nofun)
  | spawn => exact call (a := .spawn) h
  | push d owning => exact call (a := .push d owning) h
  | runOne => exact call (a := .runOne) h

end Quiet

/-- A coroutine makes the first `await_ready` of an await of `apush`. -/
def Apushes (s : State) (a : Label) : Prop :=
  ∃ c rest own d owning, a = .act (.apush own d owning) ∧ s.stack = .exec c :: rest

theorem step_quiet {s t : State} {a : Label} (ha : ¬Apushes s a)
    (hfree : ∀ c ptr, s.coros c ≠ .pushing ptr) (h : step s a = some t) : Quiet s t := by
  cases a with
  | act a =>
      simp only [step] at h
      split at h
      next => exact .call h
      next c rest hstack =>
        exact .exec (fun own d owning hd => ha ⟨c, rest, own, d, owning, congrArg _ hd, hstack⟩) h
      next => cases h
  | polled res =>
      simp only [step] at h
      split at h
      next d rest hstack =>
        split at h
        next =>
          rw [← Option.some.inj h]
          exact (Quiet.below rest).trans (.recPolled d res)
        next => cases h
      next => cases h
  | thread =>
      simp only [step] at h
      split at h
      next e rest hstack =>
        rw [← Option.some.inj h]
        exact (Quiet.below rest).trans (.leaveRunOne e)
      next e rest hstack =>
        rw [← Option.some.inj h]
        split
        · exact (Quiet.below rest).trans (.setQueue _)
        · exact .refl
      next c child rest hstack =>
        rw [← Option.some.inj h]
        exact (Quiet.below rest).trans (.awaitLoop c child)
      next d rest hstack =>
        split at h
        next ptr hd => exact absurd hd (hfree d ptr)
        next => cases h
        next =>
          rw [← Option.some.inj h]
          exact .halt _
      next rest hstack =>
        rw [← Option.some.inj h]
        exact .below rest
      next c rest hstack =>
        rw [← Option.some.inj h]
        exact (Quiet.below rest).trans (.asyncReturn (hfree c))
      next => cases h

/-! ### Awaits of `apush` -/

section

variable {s t : State}

/-- The two outcomes of the first `await_ready`. -/
theorem apush_cases (s : State) (c : ℕ) (own : Bool) (e : Entry) :
    (s.queue.length < s.capacity - 1 ∧ s.apush c own e =
        { s with
          apushed := s.apushed ++ [e]
          queue := s.queue ++ [e]
          enqueued := s.enqueued ++ [e]
          stack := .exec c :: s.stack }) ∨
      (s.capacity - 1 ≤ s.queue.length ∧ ∃ x rest, PushesFor c x rest ∧ s.apush c own e =
        { s with
          apushed := s.apushed ++ [e]
          coros := Function.update s.coros c (.pushing (some e))
          stack := .push x :: rest }) := by
  rcases Nat.lt_or_ge s.queue.length (s.capacity - 1) with hlt | hge
  · refine .inl ⟨hlt, ?_⟩
    simp only [State.apush, State.tryPush, Fifo.push_of_lt hlt, State.enter]
  · refine .inr ⟨hge, ?_⟩
    simp only [State.apush, State.tryPush, Fifo.push_of_ge hge]
    cases own with
    | true => exact ⟨e, .asyncReturn c :: s.stack, .inr rfl, rfl⟩
    | false => exact ⟨⟨.recWait c, true⟩, s.stack, .inl rfl, rfl⟩

/-- No coroutine is suspended in an `AsyncPush`. -/
def Free (s : State) : Prop := s.apushed = s.enqueued ∧ ∀ c ptr, s.coros c ≠ .pushing ptr

/-- The thread spins with a push of the only await that has not gone on,
the queue being full. -/
def Stuck (s : State) : Prop :=
  ∃ c e x rest, s.coros c = .pushing (some e) ∧ (∀ d ptr, s.coros d = .pushing ptr → d = c) ∧
    s.apushed = s.enqueued ++ [e] ∧ s.stack = .push x :: rest ∧ PushesFor c x rest ∧
    s.capacity - 1 ≤ s.queue.length

theorem Free.quiet (h : Free s) (hq : Quiet s t) : Free t :=
  ⟨by rw [hq.apushed, hq.enqueued, h.1], fun c ptr hc => h.2 c ptr (hq.coros c ptr hc)⟩

theorem Free.neverSpins (h : Free s) : NeverSpins s :=
  fun c _ _ ptr _ _ hc => absurd hc (h.2 c ptr)

theorem Stuck.not_neverSpins (h : Stuck s) : ¬NeverSpins s := by
  obtain ⟨c, e, x, rest, hc, -, -, hstack, hfor, hfull⟩ := h
  exact fun hs => absurd (hs c x rest _ hstack hfor hc) (Nat.not_lt.2 hfull)

/-- A stuck thread stays where it is. -/
theorem Stuck.step (h : Stuck s) {a : Label} (hs : step s a = some t) : t = s := by
  obtain ⟨c, e, x, rest, -, -, -, hstack, -, hfull⟩ := h
  cases a with
  | act | polled => simp [AsyncPush.step, hstack] at hs
  | thread =>
      simp only [AsyncPush.step, hstack, Fifo.push_of_ge hfull, Option.some.injEq] at hs
      exact hs.symm

theorem step_apush {c d : ℕ} {rest : List Frame} {own owning : Bool}
    (hstack : s.stack = .exec c :: rest) : step s (.act (.apush own d owning)) =
      some ((s.below rest).apush c own ⟨.task d, owning⟩) := by
  simp only [step, hstack, State.exec]

theorem findsRoom_apush {c d : ℕ} {rest : List Frame} {own owning : Bool}
    (hstack : s.stack = .exec c :: rest) :
    FindsRoom s (.act (.apush own d owning)) t ↔ s.queue.length < s.capacity - 1 :=
  ⟨fun h => h c rest hstack, fun h _ _ _ => h⟩

theorem findsRoom_of_not_apushes {a : Label} (h : ¬Apushes s a) : FindsRoom s a t := by
  cases a with
  | act a =>
      cases a with
      | apush own d owning =>
          exact fun c rest hstack => absurd ⟨c, rest, own, d, owning, rfl, hstack⟩ h
      | _ => trivial
  | _ => trivial

/-- Only an await of `apush` that finds the queue full makes the thread
stuck. -/
theorem Free.step (h : Free s) {a : Label} (hs : step s a = some t) :
    (Free t ∧ FindsRoom s a t) ∨ (Stuck t ∧ ¬FindsRoom s a t) := by
  by_cases ha : Apushes s a
  · obtain ⟨c, rest, own, d, owning, rfl, hstack⟩ := ha
    rw [step_apush hstack, Option.some.injEq] at hs
    rw [findsRoom_apush hstack]
    rcases apush_cases (s.below rest) c own ⟨.task d, owning⟩ with
      ⟨hlt, ht⟩ | ⟨hge, x, rest', hfor, ht⟩
    · rw [ht] at hs
      subst hs
      exact .inl ⟨⟨congrArg (· ++ _) h.1, h.2⟩, hlt⟩
    · rw [ht] at hs
      subst hs
      refine .inr ⟨⟨c, ⟨.task d, owning⟩, x, rest', Function.update_self .., fun e ptr he => ?_,
        congrArg (· ++ _) h.1, rfl, hfor, hge⟩, Nat.not_lt.2 hge⟩
      by_contra hne
      exact h.2 e ptr ((Function.update_of_ne hne ..).symm.trans he)
  · exact .inl ⟨h.quiet (step_quiet ha h.2 hs), findsRoom_of_not_apushes ha⟩

theorem enqueuesOrKeeps_step {a : Label} (hs : step s a = some t) : EnqueuesOrKeeps s a t := by
  cases a with
  | act a =>
      cases a with
      | apush own d owning =>
          intro c rest hstack
          rw [step_apush hstack, Option.some.injEq] at hs
          rcases apush_cases (s.below rest) c own ⟨.task d, owning⟩ with
            ⟨-, ht⟩ | ⟨-, x, rest', -, ht⟩
          · rw [ht] at hs
            subst hs
            exact .inl ⟨rfl, rfl, hstack.symm⟩
          · rw [ht] at hs
            subst hs
            exact .inr ⟨rfl, rfl, Function.update_self ..⟩
      | _ => trivial
  | _ => trivial

theorem enqueuesOnce_of (h : Free s ∨ Stuck s) : EnqueuesOnce s := by
  rcases h with h | ⟨c, e, x, rest, hc, hone, hentries, -⟩
  · exact .inl h
  · exact .inr ⟨c, e, hc, hone, hentries⟩

theorem free_or_stuck_step (s : State) (a : Label) (t : State) (h : Free s ∨ Stuck s)
    (hs : AsyncPush.step s a = some t) : Free t ∨ Stuck t := by
  rcases h with h | h
  · exact (h.step hs).imp And.left And.left
  · exact .inr (h.step hs ▸ h)

end

theorem free_init (capacity : ℕ) : Free (init capacity) := ⟨rfl, nofun⟩

/-- In every run an await of `apush` enqueues its handle at once or leaves
it to the `AsyncPush`, and enqueues it once. No step of an await spins on
the full queue if and only if every await finds room with its first
`try_push`. -/
theorem apush_neverSpins_iff (capacity : ℕ) (as : List Label) :
    (Visits step NeverSpins (init capacity) as ↔ Along step FindsRoom (init capacity) as) ∧
      Visits step EnqueuesOnce (init capacity) as ∧
      Along step EnqueuesOrKeeps (init capacity) as := by
  have hfree := free_init capacity
  refine ⟨⟨fun h => ?_, fun h => ?_⟩, ?_, ?_⟩
  · have hroom : ∀ s a t, Free s → step s a = some t → NeverSpins t → Free t ∧ FindsRoom s a t :=
      fun s a t hs ht hn => (hs.step ht).resolve_right fun hstuck => hstuck.1.not_neverSpins hn
    exact along_of_along (fun s a t hs ht hn => (hroom s a t hs ht hn).1)
      (fun s a t hs ht hn => (hroom s a t hs ht hn).2) (visits_iff_along.1 h).2 hfree
  · exact visits_of_along (I := Free) (fun s a t hs ht hroom =>
      ((hs.step ht).resolve_right fun hstuck => hstuck.2 hroom).1) (fun s hs => hs.neverSpins)
      h hfree
  · exact visits_of_invariant free_or_stuck_step (fun s => enqueuesOnce_of) (.inl hfree) as
  · exact along_of_invariant (I := fun _ => True) (P := EnqueuesOrKeeps) (fun _ _ _ _ _ => trivial)
      (fun s a t _ ht => enqueuesOrKeeps_step ht) trivial as

/-- A loop of capacity two, whose only entry has been taken: the coroutine
enqueues one handle, and the thread spins with the second one. -/
theorem apush_spins :
    (∃ s rest, run step (init 2) [.act .spawn, .act .spawn, .act .spawn, .act (.push 0 true),
        .thread, .act .runOne, .act (.apush false 1 true),
        .act (.apush false 2 true)] = some s ∧
        s.queue = [⟨.task 1, true⟩] ∧ s.stack = .push ⟨.recWait 0, true⟩ :: rest ∧
        s.coros 0 = .pushing (some ⟨.task 2, true⟩) ∧ step s .thread = some s) ∧
      ¬∀ as, Visits step NeverSpins (init 2) as := by
  have hrun : ∃ s rest, run step (init 2) [.act .spawn, .act .spawn, .act .spawn,
      .act (.push 0 true), .thread, .act .runOne, .act (.apush false 1 true),
      .act (.apush false 2 true)] = some s ∧
      s.queue = [⟨.task 1, true⟩] ∧ s.stack = .push ⟨.recWait 0, true⟩ :: rest ∧
      s.coros 0 = .pushing (some ⟨.task 2, true⟩) ∧ step s .thread = some s :=
    ⟨_, _, rfl, rfl, rfl, rfl, rfl⟩
  refine ⟨hrun, fun h => ?_⟩
  obtain ⟨s, rest, hs, hqueue, hstack, hcoro, hspin⟩ := hrun
  have hroom := (h _).last hs 0 _ rest _ hstack (.inl rfl) hcoro
  -- with room the push would leave its frame
  simp only [step, hstack, Fifo.push_of_lt hroom, Option.some.injEq] at hspin
  have hframe : rest = s.stack := congrArg State.stack hspin
  simp [hstack] at hframe

end JowiAsio.EventLoop.AsyncPush

import Mathlib.Data.List.Induction
import JowiAsio.EventLoop.Polling
import JowiAsio.Workers.Reclamation

/-!
One worker, and the thread that is in `run_forever`.

The machine for one thread takes the end of a coroutine in one step, and
the test of the flag of a child together with what follows it. The workers
take them apart, for the others to come in between. Where there is one
worker nobody does: every run of `parallel_expected` on one thread is a
run of a worker, whose loop is that of `run_forever`, and no loop of a
`TaskAwaitable` ends there while the worker has the child in hand. So what
is known of the workers holds of the thread.
-/

namespace JowiAsio.Workers

open Lib
open EventLoop (Body Cont Entry Poll parallelExpected)

variable {π V ε σ : Type}

/-! ### The states of the thread and those of the worker -/

/-- The coroutine as the thread has it, which keeps a coroutine as it was
when a poll throws inside `__rec_wait`. -/
inductive Coro.Shows : Coro π V ε σ → EventLoop.Coro π V ε σ → Prop
  | absent : Shows .absent .absent
  | start (b : Body π V ε σ) : Shows (.start b) (.start b)
  | running : Shows .running .running
  | waiting (p : π) (next : Cont π V ε σ) : Shows (.waiting p next) (.waiting p next)
  | lost (p : π) (next : Cont π V ε σ) : Shows .lost (.waiting p next)
  | finished (r : Except ε V) : Shows (.finished r) (.finished r)
  | recWait (h : ℕ) : Shows (.recWait h) (.recWait h)
  | recRunning : Shows .recRunning .recRunning
  | recFinished : Shows .recFinished .recFinished
  | destroyed : Shows .destroyed .destroyed

/-- The call stacks, of which that of the thread ends in `run_forever`. -/
inductive Stacked : EventLoop.Stack π V ε σ → Stack π V ε σ → Prop
  | runForever : Stacked [.runForever] []
  | runOne (e : Entry) {l : EventLoop.Stack π V ε σ} {st : Stack π V ε σ} (h : Stacked l st) :
      Stacked (.runOne e :: l) (.runOne e :: st)
  | push (e : Entry) {l : EventLoop.Stack π V ε σ} {st : Stack π V ε σ} (h : Stacked l st) :
      Stacked (.push e :: l) (.push e :: st)
  | exec (c : ℕ) (b : Body π V ε σ) {l : EventLoop.Stack π V ε σ} {st : Stack π V ε σ}
      (h : Stacked l st) : Stacked (.exec c b :: l) (.exec c b :: st)
  | awaitLoop (c child : ℕ) (next : Cont π V ε σ) {l : EventLoop.Stack π V ε σ}
      {st : Stack π V ε σ} (h : Stacked l st) :
      Stacked (.awaitLoop c child next :: l) (.test c child next :: st)
  | recWait (r y : ℕ) {l : EventLoop.Stack π V ε σ} {st : Stack π V ε σ} (h : Stacked l st) :
      Stacked (.recWait r y :: l) (.recWait r y :: st)
  | recReturn (r : ℕ) {l : EventLoop.Stack π V ε σ} {st : Stack π V ε σ} (h : Stacked l st) :
      Stacked (.recReturn r :: l) (.recReturn r :: st)

structure Agrees (s : EventLoop.State π V ε σ) (t : Shared π V ε σ) : Prop where
  coros : ∀ c, (t.coros c).Shows (s.coros c)
  created : t.created = s.created
  queue : t.queue = s.queue
  capacity : t.capacity = s.capacity
  world : t.world = s.world

/-- One worker with the stack `st`. -/
def single (s : Shared π V ε σ) (st : Stack π V ε σ) : State π V ε σ := ⟨s, [st], .running⟩

/-- The worker has come as far as the thread. When `run_forever` has
returned, the worker finds the queue empty. -/
inductive Represents (s : EventLoop.State π V ε σ) : State π V ε σ → Prop
  | running {t : Shared π V ε σ} {st : Stack π V ε σ} (hstack : Stacked s.stack st)
      (h : Agrees s t) (hout : s.outcome = .running) : Represents s (single t st)
  | returned {t : Shared π V ε σ} (hstack : s.stack = []) (h : Agrees s t) (hq : t.queue = [])
      (hout : s.outcome = .returned) : Represents s (single t [])
  | terminated {t : State π V ε σ} (hstack : s.stack = []) (h : Agrees s t.shared)
      (hout : s.outcome = .terminated) (ht : t.outcome = .terminated) : Represents s t
  | undefined {t : State π V ε σ} (hstack : s.stack = []) (hout : s.outcome = .undefined)
      (ht : t.outcome = .undefined) : Represents s t

/-! ### What both change -/

section

variable {s : EventLoop.State π V ε σ} {t : Shared π V ε σ} {c : ℕ}
  {x : EventLoop.Coro π V ε σ} {x' : Coro π V ε σ}

theorem Coro.Shows.update {coros : ℕ → EventLoop.Coro π V ε σ} {coros' : ℕ → Coro π V ε σ}
    (h : ∀ d, (coros' d).Shows (coros d)) (hx : x'.Shows x) (d : ℕ) :
    (Function.update coros' c x' d).Shows (Function.update coros c x d) := by
  by_cases hd : d = c
  · subst hd
    simpa using hx
  · simpa [Function.update_of_ne hd] using h d

theorem Agrees.enter (h : Agrees s t) (f : EventLoop.Frame π V ε σ) : Agrees (s.enter f) t :=
  ⟨h.coros, h.created, h.queue, h.capacity, h.world⟩

theorem Agrees.below (h : Agrees s t) (l : EventLoop.Stack π V ε σ) : Agrees (s.below l) t :=
  ⟨h.coros, h.created, h.queue, h.capacity, h.world⟩

theorem Agrees.halt (h : Agrees s t) (o : EventLoop.Outcome) : Agrees (s.halt o) t :=
  ⟨h.coros, h.created, h.queue, h.capacity, h.world⟩

theorem Agrees.setCoro (h : Agrees s t) (hx : x'.Shows x) :
    Agrees (s.setCoro c x) (t.setCoro c x') :=
  { h with coros := Coro.Shows.update h.coros hx }

theorem Agrees.setQueue (h : Agrees s t) (q : List Entry) :
    Agrees (s.setQueue q) (t.setQueue q) := { h with queue := rfl }

theorem Agrees.setWorld (h : Agrees s t) (w : σ) : Agrees (s.setWorld w) (t.setWorld w) :=
  { h with world := rfl }

theorem Agrees.create (h : Agrees s t) (hx : x'.Shows x) (owning : Bool) :
    Agrees (s.pushNew x owning) (t.create x') where
  coros d := by
    show (Function.update t.coros t.created x' d).Shows (Function.update s.coros s.created x d)
    rw [h.created]
    exact Coro.Shows.update h.coros hx d
  created := congrArg (· + 1) h.created
  queue := h.queue
  capacity := h.capacity
  world := h.world

theorem Coro.Shows.start_iff (h : x'.Shows x) {b : Body π V ε σ} :
    x' = .start b ↔ x = .start b := by
  cases h <;> simp

theorem Coro.Shows.recWait_iff (h : x'.Shows x) {y : ℕ} : x' = .recWait y ↔ x = .recWait y := by
  cases h <;> simp

theorem Coro.Shows.finished_iff (h : x'.Shows x) {r : Except ε V} :
    x' = .finished r ↔ x = .finished r := by
  cases h <;> simp

theorem Coro.Shows.of_waiting (h : x'.Shows x) {p : π} {next : Cont π V ε σ}
    (hx : x' = .waiting p next) : x = .waiting p next := by
  subst hx
  cases h
  rfl

theorem Coro.Shows.isComplete (h : x'.Shows x) (hx : ¬ x.Complete) : x'.isComplete = false := by
  cases h with
  | finished r => exact absurd ⟨r, rfl⟩ hx
  | _ => rfl

end

/-! ### One step of the thread -/

section

variable {poll : π → σ → Poll π V ε × σ} {s s' : EventLoop.State π V ε σ} {t t' : Shared π V ε σ}
  {st st' : Stack π V ε σ} {l : EventLoop.Stack π V ε σ} {u v : State π V ε σ}

/-- The worker catches up with the thread. Whenever it ends a loop the
child is at its final suspend point, unless the thread has run into
undefined behaviour. -/
def Matched (poll : π → σ → Poll π V ε × σ) (s : EventLoop.State π V ε σ) (u : State π V ε σ) :
    Prop :=
  ∃ n v, run (step poll) u (List.replicate n (.worker 0)) = some v ∧ Represents s v ∧
    (s.outcome ≠ .undefined →
      Along (step poll) (fun _ _ v => Sound v) u (List.replicate n (.worker 0)))

theorem Represents.matched (h : Represents s u) : Matched poll s u :=
  ⟨0, u, rfl, h, fun _ => trivial⟩

theorem Matched.cons (hs : step poll u (.worker 0) = some v)
    (hsound : s.outcome ≠ .undefined → Sound v) (h : Matched poll s v) : Matched poll s u := by
  obtain ⟨n, x, hrun, hrep, halong⟩ := h
  refine ⟨n + 1, x, ?_, hrep, fun hout => ?_⟩
  · rw [List.replicate_succ, run_cons, hs]
    exact hrun
  · exact (along_cons hs).2 ⟨hsound hout, halong hout⟩

theorem Matched.goOn (hs : workerStep poll t st = .ok (t', st'))
    (hsound : s.outcome ≠ .undefined → Sound (single t' st'))
    (h : Matched poll s (single t' st')) : Matched poll s (single t st) :=
  h.cons (by simp [step, single, hs]) hsound

theorem Matched.halt {o : Outcome} (hs : workerStep poll t st = .error o)
    (hsound : s.outcome ≠ .undefined → Sound ⟨t, [st], o⟩)
    (h : Represents s ⟨t, [st], o⟩) : Matched poll s (single t st) :=
  h.matched.cons (by simp [step, single, hs]) hsound

theorem Stacked.sound (h : Stacked l st) : Sound (single t st) := by
  intro stack hmem c child next below hst
  obtain rfl := List.mem_singleton.1 hmem
  subst hst
  cases h

theorem sound_resume {o : Outcome} {c child : ℕ} {next : Cont π V ε σ} {r : Except ε V}
    (hchild : t.coros child = .finished r) : Sound ⟨t, [.resume c child next :: st], o⟩ := by
  intro stack hmem d child' next' below hst
  obtain rfl := List.mem_singleton.1 hmem
  cases hst
  exact ⟨r, hchild⟩

/-- The worker comes to a stack of the thread again in one step. -/
theorem Matched.one (hs : workerStep poll t st = .ok (t', st')) (hstack : Stacked s.stack st')
    (h : Agrees s t') (hout : s.outcome = .running) : Matched poll s (single t st) :=
  .goOn hs (fun _ => hstack.sound) (Represents.running hstack h hout).matched

/-- Nothing is left to run, and the child is not complete. -/
theorem Agrees.awaitEmpty_matched (h : Agrees s t) {c child : ℕ} {next : Cont π V ε σ}
    (hc : ¬ (s.coros child).Complete) (hq : s.queue = []) :
    Matched poll (s.halt .undefined) (single t (.test c child next :: st)) := by
  have hincomplete := (h.coros child).isComplete hc
  have hnone : awaitResumeStep t c child next st = .error .undefined := by
    unfold awaitResumeStep
    split
    case h_1 v hv => exact absurd ⟨_, (h.coros child).finished_iff.1 hv⟩ hc
    case h_2 e he => exact absurd ⟨_, (h.coros child).finished_iff.1 he⟩ hc
    case h_3 => rfl
  have htest : workerStep poll t (.test c child next :: st) =
      .ok (t, .take c child next :: st) := by
    simp [workerStep, hincomplete]
  have htake : workerStep poll t (.take c child next :: st) =
      .ok (t, .resume c child next :: st) := by
    simp [workerStep, h.queue, hq]
  refine .goOn htest (by simp) (.goOn htake (by simp) ?_)
  exact .halt hnone (by simp) (.undefined rfl rfl rfl)

/-- The child is complete: the worker sees its flag, and then resumes the
parent. -/
theorem Agrees.complete_matched (h : Agrees s t) {c child : ℕ} {next : Cont π V ε σ}
    {r : Except ε V} (hc : s.coros child = .finished r)
    (hmatched : Matched poll s' (single t (.resume c child next :: st))) :
    Matched poll s' (single t (.test c child next :: st)) := by
  have hchild : t.coros child = .finished r := (h.coros child).finished_iff.2 hc
  have htest : workerStep poll t (.test c child next :: st) =
      .ok (t, .resume c child next :: st) := by
    simp [workerStep, hchild, Coro.isComplete, Coro.promiseState]
  exact .goOn htest (fun _ => sound_resume hchild) hmatched

/-- `run_one`, when the worker comes to it. -/
theorem Agrees.runOne_matched (h : Agrees s t) (hstack : Stacked s.stack st)
    (hout : s.outcome = .running) {e : Entry} {q : List Entry} {st₁ : Stack π V ε σ}
    (hrun : workerStep poll t st₁ = t.runOne e q st) :
    Matched poll (((s.setQueue q).enter (.runOne e)).resume e.coro) (single t st₁) := by
  unfold EventLoop.State.resume
  rw [Shared.runOne, Shared.resume, Shared.setQueue_coros] at hrun
  split
  case h_1 b hb =>
    refine .one ?_ (.exec e.coro b (.runOne e hstack))
      ((((h.setQueue q).enter _).setCoro .running).enter _) hout
    rw [hrun, (h.coros _).start_iff.2 hb]
  case h_2 y hy =>
    refine .one ?_ (.recWait e.coro y (.runOne e hstack))
      ((((h.setQueue q).enter _).setCoro .recRunning).enter _) hout
    rw [hrun, (h.coros _).recWait_iff.2 hy]
  case h_3 hstart hrec =>
    refine .halt (o := .undefined) ?_ (by simp) (.undefined rfl rfl rfl)
    rw [hrun]
    split
    case h_1 b hb => exact absurd ((h.coros _).start_iff.1 hb) (hstart b)
    case h_2 y hy => exact absurd ((h.coros _).recWait_iff.1 hy) (hrec y)
    case h_3 => rfl

/-- The loop of `TaskAwaitable::await_suspend`. -/
theorem Agrees.awaitLoop_matched (h : Agrees s t) (hstack : Stacked l st)
    (hout : s.outcome = .running) (c child : ℕ) (next : Cont π V ε σ) :
    Matched poll (EventLoop.awaitLoopStep (s.below l) c child next)
      (single t (.test c child next :: st)) := by
  unfold EventLoop.awaitLoopStep
  split
  case h_1 v hv =>
    refine h.complete_matched hv (.one ?_ (.exec c (next (.ok v)) hstack)
      (((h.below _).setCoro .destroyed).enter _) hout)
    rw [workerStep, awaitResumeStep, (h.coros _).finished_iff.2 hv]
  case h_2 e he =>
    have hchild : t.coros child = .finished (.error e) := (h.coros _).finished_iff.2 he
    refine h.complete_matched he (.halt (o := .terminated) ?_ (fun _ => sound_resume hchild)
      (.terminated rfl (h.halt _) rfl rfl))
    rw [workerStep, awaitResumeStep, hchild]
  case h_3 hok herror =>
    have hc : ¬ (s.coros child).Complete := by
      rintro ⟨r, hr⟩
      cases r with
      | ok v => exact hok v hr
      | error e => exact herror e hr
    cases hq : s.queue with
    | nil =>
        have hnone : ((s.below l).enter (.awaitLoop c child next)).runOne = none :=
          EventLoop.runOne_eq_none.2 hq
        rw [hnone]
        exact (h.below l).awaitEmpty_matched hc hq
    | cons e q =>
        have hsome : ((s.below l).enter (.awaitLoop c child next)).runOne =
            some (((((s.below l).enter (.awaitLoop c child next)).setQueue q).enter
              (.runOne e)).resume e.coro) := by
          simp [EventLoop.State.runOne, hq]
        have htest : workerStep poll t (.test c child next :: st) =
            .ok (t, .take c child next :: st) := by
          simp [workerStep, (h.coros child).isComplete hc]
        have htake : workerStep poll t (.take c child next :: st) =
            t.runOne e q (.test c child next :: st) := by
          simp [workerStep, h.queue, hq]
        rw [hsome]
        exact .goOn htest (by simp [Sound, single])
          (((h.below l).enter _).runOne_matched (.awaitLoop c child next hstack) hout htake)

/-- What a coroutine does next. -/
theorem Agrees.exec_matched (h : Agrees s t) (hstack : Stacked l st) (hout : s.outcome = .running)
    (c : ℕ) (b : Body π V ε σ) :
    Matched poll (EventLoop.execStep poll (s.below l) c b) (single t (.exec c b :: st)) := by
  have hended : ∀ r, workerStep poll t (.exec c b :: st) =
      .ok (t.setCoro c (.completing r), .finish c r :: st) →
        Matched poll ((s.below l).setCoro c (.finished r)) (single t (.exec c b :: st)) := by
    intro r hstep
    refine .goOn hstep (by simp [Sound, single]) (.one rfl hstack ?_ hout)
    rw [Shared.setCoro, Shared.setCoro, Function.update_idem]
    exact (h.below l).setCoro (.finished r)
  cases b with
  | coReturn v => exact hended _ rfl
  | throw e => exact hended _ rfl
  | act f next =>
      refine .one ?_ (.exec c next hstack) (((h.below l).setWorld (f s.world)).enter _) hout
      simp [workerStep, execStep, h.world]
  | await child next =>
      refine .one ?_ (.push ⟨s.created, false⟩ (.awaitLoop c s.created next hstack))
        (((h.below l).enter _).create (.start child) false) hout
      simp [workerStep, execStep, h.created]
  | poll p next =>
      have hworld : t.world = (s.below l).world := h.world
      unfold EventLoop.execStep
      simp only
      split
      case h_1 v w hp =>
        refine .one ?_ (.exec c (next (.ok v)) hstack) (((h.below l).setWorld w).enter _) hout
        rw [workerStep, execStep, hworld, hp]
      case h_2 e w hp =>
        refine .one ?_ (.exec c (next (.error e)) hstack) (((h.below l).setWorld w).enter _) hout
        rw [workerStep, execStep, hworld, hp]
      case h_3 p' w hp =>
        have hshared := ((h.below l).setWorld w).setCoro (c := c) (.waiting p' next)
        refine .one ?_ (.push ⟨s.created, true⟩ hstack) (hshared.create (.recWait c) true) hout
        rw [workerStep, execStep, hworld, hp, ← h.created]
        rfl

/-- `__rec_wait(loop, y)` polls. -/
theorem Agrees.recWait_matched (h : Agrees s t) (hstack : Stacked l st)
    (hout : s.outcome = .running) {r y : ℕ} (hlives : (single t (.recWait r y :: st)).Lives) :
    Matched poll (EventLoop.recWaitStep poll (s.below l) r y)
      (single t (.recWait r y :: st)) := by
  obtain ⟨p, next, hw⟩ : ∃ p next, t.coros y = .waiting p next :=
    hlives.owns.waiting hlives.kept (.inr ⟨r, by simp [single]⟩)
  have hy : s.coros y = .waiting p next := (h.coros y).of_waiting hw
  have hworld : t.world = (s.below l).world := h.world
  unfold EventLoop.recWaitStep
  rw [EventLoop.State.below_coros, hy]
  simp only
  split
  case h_1 v w hp =>
    refine .one ?_ (.exec y (next (.ok v)) (.recReturn r hstack))
      (((((h.below l).setWorld w).setCoro .running).enter _).enter _) hout
    simp [workerStep, recWaitStep, hw, hworld, hp]
  case h_2 e w hp =>
    -- the thread keeps the coroutine as it was
    have hsame : s.setCoro y (.waiting p next) = s := by
      rw [EventLoop.State.setCoro, ← hy, Function.update_eq_self]
    have hlost : Agrees s (t.setCoro y .lost) := hsame ▸ h.setCoro (.lost p next)
    refine .one ?_ (.recReturn r hstack) (((hlost.below l).setWorld w).enter _) hout
    simp [workerStep, recWaitStep, hw, hworld, hp, Shared.setCoro, Shared.setWorld]
  case h_3 p' w hp =>
    have hshared := (((h.below l).setWorld w).setCoro (c := y) (.waiting p' next)).enter
      (.recReturn r)
    refine .one ?_ (.push ⟨s.created, true⟩ (.recReturn r hstack))
      (hshared.create (.recWait y) true) hout
    simp [workerStep, recWaitStep, Shared.recWait, hw, hworld, hp, h.created]

/-- Every step of the thread. -/
theorem Represents.step {a : Unit} (h : Represents s u) (hlives : u.Lives)
    (hs : EventLoop.step poll s a = some s') : Matched poll s' u := by
  cases h with
  | returned hstack | terminated hstack | undefined hstack => simp [EventLoop.step, hstack] at hs
  | @running t st hstack h hout =>
      generalize hl : s.stack = l at hstack
      simp only [EventLoop.step, hl] at hs
      cases hstack with
      | runForever =>
          simp only [EventLoop.enter_below hl, Option.some.injEq] at hs
          subst hs
          cases hq : s.queue with
          | nil =>
              rw [EventLoop.runOne_eq_none.2 hq]
              exact (Represents.returned rfl (h.halt _) (h.queue.trans hq) rfl).matched
          | cons e q =>
              have hsome : s.runOne = some (((s.setQueue q).enter (.runOne e)).resume e.coro) := by
                simp [EventLoop.State.runOne, hq]
              have hrun : workerStep poll t [] = t.runOne e q [] := by
                simp [workerStep, h.queue, hq]
              rw [hsome]
              exact h.runOne_matched (hl ▸ .runForever) hout hrun
      | @runOne e rest below hrest =>
          obtain ⟨c, owning⟩ := e
          cases owning with
          | false =>
              obtain rfl : s.below rest = s' := by simpa using hs
              exact .one rfl hrest (h.below _) hout
          | true =>
              obtain rfl : (s.below rest).setCoro c .destroyed = s' := by simpa using hs
              have hreturns := hlives.returns _ List.mem_cons_self
              have hc : t.coros c = .recFinished := (hreturns.1 c rfl).resolve_left (by simp)
              refine .one ?_ hrest ((h.below _).setCoro .destroyed) hout
              simp [workerStep, Shared.destroyOwned, hc]
      | @push e rest below hrest =>
          simp only [Option.some.injEq] at hs
          by_cases hroom : s.queue.length < s.capacity - 1
          · have hpush : Fifo.push ((s.below rest).capacity - 1) (s.below rest).queue e =
                some (s.queue ++ [e]) := Fifo.push_of_lt hroom e
            rw [hpush] at hs
            subst hs
            refine .one ?_ hrest ((h.below _).setQueue _) hout
            rw [workerStep, h.capacity, h.queue, Fifo.push_of_lt hroom]
          · have hfull := Nat.le_of_not_lt hroom
            have hpush : Fifo.push ((s.below rest).capacity - 1) (s.below rest).queue e = none :=
              Fifo.push_of_ge hfull e
            rw [hpush] at hs
            simp only [EventLoop.enter_below hl] at hs
            subst hs
            have hstack : Stacked s.stack (.push e :: below) := hl ▸ .push e hrest
            refine .one ?_ hstack h hout
            rw [workerStep, h.capacity, h.queue, Fifo.push_of_ge hfull]
      | @exec c b rest below hrest =>
          rw [Option.some.injEq] at hs
          exact hs ▸ h.exec_matched hrest hout c b
      | @awaitLoop c child next rest below hrest =>
          rw [Option.some.injEq] at hs
          exact hs ▸ h.awaitLoop_matched hrest hout c child next
      | @recWait r y rest below hrest =>
          rw [Option.some.injEq] at hs
          exact hs ▸ h.recWait_matched hrest hout hlives
      | @recReturn r rest below hrest =>
          rw [Option.some.injEq] at hs
          exact hs ▸ .one rfl hrest ((h.below _).setCoro .recFinished) hout

end

/-! ### Whole runs -/

section

variable {poll : π → σ → Poll π V ε × σ} {capacity : ℕ} {w : σ} {ts : List (Body π V ε σ)}

/-- The loop with one worker, when the tasks `ts` have been pushed to it. -/
def started (capacity : ℕ) (w : σ) (ts : List (Body π V ε σ)) : State π V ε σ :=
  single
    { coros := fun c => (ts[c]?.map Coro.start).getD .absent
      created := ts.length
      queue := (List.range ts.length).map fun c => ⟨c, false⟩
      capacity := capacity
      world := w } []

theorem push_started (b : Body π V ε σ) (hroom : ts.length < capacity - 1) :
    step poll (started capacity w ts) (.push b false) = some (started capacity w (ts ++ [b])) := by
  have hcoros : Function.update (fun c => (ts[c]?.map Coro.start).getD .absent) ts.length
      (.start b) = fun c => (((ts ++ [b])[c]?).map Coro.start).getD .absent := by
    funext c
    rcases Nat.lt_trichotomy c ts.length with hlt | rfl | hgt
    · rw [Function.update_of_ne (Nat.ne_of_lt hlt), List.getElem?_append_left hlt]
    · simp
    · have hlen : (ts ++ [b]).length ≤ c := List.length_append.trans_le hgt
      rw [Function.update_of_ne (Nat.ne_of_gt hgt), List.getElem?_eq_none (Nat.le_of_lt hgt),
        List.getElem?_eq_none hlen]
  simp [step, started, single, Fifo.push_of_lt, hroom, Shared.create, Shared.setQueue, hcoros,
    List.range_succ]

/-- The tasks are pushed, and belong to whoever pushed them. -/
theorem started_leaves (poll : π → σ → Poll π V ε × σ) (hroom : ts.length ≤ capacity - 1) :
    run (step poll) (init capacity 1 w) (ts.map (.push · false)) = some (started capacity w ts) ∧
      Along (step poll) NotInHand (init capacity 1 w) (ts.map (.push · false)) ∧
      (started capacity w ts).Leaves (List.range ts.length) := by
  induction ts using List.reverseRecOn with
  | nil => exact ⟨rfl, trivial, State.leaves_init capacity 1 w⟩
  | append_singleton ts b ih =>
      have hlt : ts.length < capacity - 1 := List.length_append.symm.trans_le hroom
      obtain ⟨hrun, halong, hleaves⟩ := ih (Nat.le_of_lt hlt)
      have hpush : step poll (started capacity w ts) (.push b false) = _ := push_started b hlt
      have hhand : NotInHand (started capacity w ts) (.push b false)
          (started capacity w (ts ++ [b])) := fun _ _ _ ha => by cases ha
      refine ⟨?_, ?_, ?_⟩
      · rw [List.map_append, run_append, hrun]
        simp [hpush]
      · rw [List.map_append]
        exact halong.append hrun ((along_cons hpush).2 ⟨hhand, trivial⟩)
      · rw [List.length_append, List.length_singleton, List.range_succ]
        exact hleaves.step hpush hhand rfl

theorem agrees_started {s₀ : EventLoop.State π V ε σ}
    (h : parallelExpected capacity w ts = some s₀) :
    ts.length ≤ capacity - 1 ∧ Represents s₀ (started capacity w ts) := by
  obtain ⟨q, hq, rfl⟩ := Option.map_eq_some_iff.1 h
  have hlength := Fifo.length_of_pushes hq (Nat.zero_le _)
  obtain rfl := EventLoop.foldlM_push hq
  refine ⟨by simpa using hlength, .running .runForever ⟨fun c => ?_, rfl, rfl, rfl, rfl⟩ rfl⟩
  cases hb : ts[c]? with
  | none => simpa [hb] using Coro.Shows.absent
  | some b => simpa [hb] using Coro.Shows.start b

/-- The steps of the worker by which it has come as far as the thread. -/
def Reached (poll : π → σ → Poll π V ε × σ) (capacity : ℕ) (w : σ) (ts : List (Body π V ε σ))
    (s : EventLoop.State π V ε σ) : Prop :=
  ∃ n u, run (step poll) (started capacity w ts) (List.replicate n (.worker 0)) = some u ∧
    Represents s u ∧ (s.outcome ≠ .undefined → u.Leaves (List.range ts.length) ∧
      Along (step poll) NotInHand (started capacity w ts) (List.replicate n (.worker 0)))

theorem Represents.running_of_step {s s' : EventLoop.State π V ε σ} {u : State π V ε σ}
    (h : Represents s u) {a : Unit} (hs : EventLoop.step poll s a = some s') :
    s.outcome = .running := by
  cases h with
  | running _ _ hout => exact hout
  | returned hstack | terminated hstack | undefined hstack => simp [EventLoop.step, hstack] at hs

theorem Reached.step {s s' : EventLoop.State π V ε σ} (h : Reached poll capacity w ts s) {a : Unit}
    (hs : EventLoop.step poll s a = some s') : Reached poll capacity w ts s' := by
  obtain ⟨n, u, hrun, hrep, hdefined⟩ := h
  obtain ⟨hleaves, halong⟩ := hdefined (by simp [hrep.running_of_step hs])
  obtain ⟨m, v, hrest, hrep', hsound⟩ := hrep.step hleaves.lives hs
  refine ⟨n + m, v, ?_, hrep', fun hout => ?_⟩
  · rw [List.replicate_add]
    exact run_trans hrun hrest
  have hhand := hleaves.lives.kept.notInHand_along (hsound hout)
  refine ⟨?_, ?_⟩
  · have hworker : ∀ a ∈ List.replicate m (Label.worker 0 : Label π V ε σ), a = .worker 0 :=
      fun a ha => List.eq_of_mem_replicate ha
    refine run_invariant_of_along (I := fun v => v.Leaves (List.range ts.length)) ?_
      (along_and.2 ⟨hhand, along_of_labels hworker u⟩) hleaves hrest
    rintro x _ y hx hy ⟨hc, rfl⟩
    simpa [pushed] using hx.step hy hc trivial
  · rw [List.replicate_add]
    exact halong.append hrun hhand

theorem reached {s₀ s : EventLoop.State π V ε σ} {as : List Unit}
    (h₀ : parallelExpected capacity w ts = some s₀)
    (hrun : run (EventLoop.step poll) s₀ as = some s) : Reached poll capacity w ts s := by
  obtain ⟨hroom, hrep⟩ := agrees_started h₀
  refine run_invariant (fun s a s' h hs => h.step hs) ⟨0, _, rfl, hrep, fun _ => ?_⟩ hrun
  exact ⟨(started_leaves poll hroom).2.2, trivial⟩

end

/-- Every run of `parallel_expected` on one thread is a run of the shared
loop with one worker: the worker comes to a state that represents that of
the thread, after its pushes and some of its own steps. Unless the thread
runs into undefined behaviour, the worker never ends the loop of a
`TaskAwaitable` while it has the child in hand. -/
theorem parallel_expected_is_one_worker (poll : π → σ → Poll π V ε × σ) {capacity : ℕ} {w : σ}
    {ts : List (Body π V ε σ)} {s₀ s : EventLoop.State π V ε σ} {as : List Unit}
    (h₀ : parallelExpected capacity w ts = some s₀)
    (hrun : run (EventLoop.step poll) s₀ as = some s) :
    ∃ n u, run (step poll) (init capacity 1 w)
        (ts.map (.push · false) ++ List.replicate n (.worker 0)) = some u ∧ Represents s u ∧
      (s.outcome ≠ .undefined → Along (step poll) NotInHand (init capacity 1 w)
        (ts.map (.push · false) ++ List.replicate n (.worker 0))) := by
  obtain ⟨hstart, hpushes, -⟩ := started_leaves poll (w := w) (agrees_started h₀).1
  obtain ⟨n, u, hworker, hrep, hdefined⟩ := reached h₀ hrun
  exact ⟨n, u, run_trans hstart hworker, hrep,
    fun hout => hpushes.append hstart (hdefined hout).2⟩

/-- A poll that fails once and then throws. -/
def throwsSecond (p : Bool) (w : Unit) : Poll Bool Unit Unit × Unit :=
  if p then (.threw (), w) else (.notReady true, w)

/-- A task that awaits another one, and one whose poll throws inside
`__rec_wait`. -/
def awaitAndLose : List (Body Bool Unit Unit Unit) :=
  [.await (.coReturn ()) fun _ => .coReturn (), .poll false fun _ => .coReturn ()]

theorem parallel_expected_is_one_worker_awaitAndLose :
    ∃ s₀ s : EventLoop.State Bool Unit Unit Unit, parallelExpected 4096 () awaitAndLose = some s₀ ∧
      run (EventLoop.step throwsSecond) s₀ (List.replicate 18 ()) = some s ∧
      s.outcome = .returned ∧ ∃ n u, run (step throwsSecond) (init 4096 1 ())
        (awaitAndLose.map (.push · false) ++ List.replicate n (.worker 0)) = some u ∧
        Represents s u := by
  obtain ⟨s₀, s, h₀, hrun, hout⟩ : ∃ s₀ s : EventLoop.State Bool Unit Unit Unit,
      parallelExpected 4096 () awaitAndLose = some s₀ ∧
        run (EventLoop.step throwsSecond) s₀ (List.replicate 18 ()) = some s ∧
        s.outcome = .returned := ⟨_, _, rfl, rfl, rfl⟩
  obtain ⟨n, u, hworker, hrep, -⟩ := parallel_expected_is_one_worker throwsSecond h₀ hrun
  exact ⟨s₀, s, h₀, hrun, hout, n, u, hworker, hrep⟩

end JowiAsio.Workers

import JowiAsio.EventLoop.Model

/-!
What one step of the thread can do.

`Trans` lists the outcomes of a step with the facts that select each of
them, and `step_trans` derives it from the executable `step`. The two
loops that call `run_one` share their transitions: `Loops` says which
frames do.
-/

namespace JowiAsio.EventLoop

open Lib

variable {π V ε σ : Type}

/-! ### Reading an updated state -/

namespace State

variable (s : State π V ε σ)

@[simp] theorem enter_coros (f : Frame π V ε σ) : (s.enter f).coros = s.coros := rfl

@[simp] theorem enter_created (f : Frame π V ε σ) : (s.enter f).created = s.created := rfl

@[simp] theorem enter_queue (f : Frame π V ε σ) : (s.enter f).queue = s.queue := rfl

@[simp] theorem enter_stack (f : Frame π V ε σ) : (s.enter f).stack = f :: s.stack := rfl

@[simp] theorem enter_world (f : Frame π V ε σ) : (s.enter f).world = s.world := rfl

@[simp] theorem enter_outcome (f : Frame π V ε σ) : (s.enter f).outcome = s.outcome := rfl

@[simp] theorem below_coros (rest : Stack π V ε σ) :
    (s.below rest).coros = s.coros := rfl

@[simp] theorem below_created (rest : Stack π V ε σ) :
    (s.below rest).created = s.created := rfl

@[simp] theorem below_queue (rest : Stack π V ε σ) :
    (s.below rest).queue = s.queue := rfl

@[simp] theorem below_stack (rest : Stack π V ε σ) : (s.below rest).stack = rest := rfl

@[simp] theorem below_outcome (rest : Stack π V ε σ) :
    (s.below rest).outcome = s.outcome := rfl

@[simp] theorem setQueue_coros (q : List Entry) : (s.setQueue q).coros = s.coros := rfl

@[simp] theorem setQueue_created (q : List Entry) : (s.setQueue q).created = s.created := rfl

@[simp] theorem setQueue_queue (q : List Entry) : (s.setQueue q).queue = q := rfl

@[simp] theorem setQueue_stack (q : List Entry) : (s.setQueue q).stack = s.stack := rfl

@[simp] theorem setQueue_outcome (q : List Entry) : (s.setQueue q).outcome = s.outcome := rfl

@[simp] theorem setCoro_coros (c : ℕ) (x : Coro π V ε σ) :
    (s.setCoro c x).coros = Function.update s.coros c x := rfl

@[simp] theorem setCoro_created (c : ℕ) (x : Coro π V ε σ) :
    (s.setCoro c x).created = s.created := rfl

@[simp] theorem setCoro_queue (c : ℕ) (x : Coro π V ε σ) : (s.setCoro c x).queue = s.queue := rfl

@[simp] theorem setCoro_stack (c : ℕ) (x : Coro π V ε σ) : (s.setCoro c x).stack = s.stack := rfl

@[simp] theorem setCoro_world (c : ℕ) (x : Coro π V ε σ) : (s.setCoro c x).world = s.world := rfl

@[simp] theorem setCoro_outcome (c : ℕ) (x : Coro π V ε σ) :
    (s.setCoro c x).outcome = s.outcome := rfl

@[simp] theorem setWorld_coros (w : σ) : (s.setWorld w).coros = s.coros := rfl

@[simp] theorem setWorld_created (w : σ) : (s.setWorld w).created = s.created := rfl

@[simp] theorem setWorld_queue (w : σ) : (s.setWorld w).queue = s.queue := rfl

@[simp] theorem setWorld_stack (w : σ) : (s.setWorld w).stack = s.stack := rfl

@[simp] theorem setWorld_outcome (w : σ) : (s.setWorld w).outcome = s.outcome := rfl

@[simp] theorem pushNew_coros (x : Coro π V ε σ) (o : Bool) :
    (s.pushNew x o).coros = Function.update s.coros s.created x := rfl

@[simp] theorem pushNew_created (x : Coro π V ε σ) (o : Bool) :
    (s.pushNew x o).created = s.created + 1 := rfl

@[simp] theorem pushNew_queue (x : Coro π V ε σ) (o : Bool) :
    (s.pushNew x o).queue = s.queue := rfl

@[simp] theorem pushNew_stack (x : Coro π V ε σ) (o : Bool) :
    (s.pushNew x o).stack = .push ⟨s.created, o⟩ :: s.stack := rfl

@[simp] theorem pushNew_outcome (x : Coro π V ε σ) (o : Bool) :
    (s.pushNew x o).outcome = s.outcome := rfl

@[simp] theorem halt_stack (o : Outcome) : (s.halt o).stack = [] := rfl

@[simp] theorem halt_coros (o : Outcome) : (s.halt o).coros = s.coros := rfl

@[simp] theorem halt_outcome (o : Outcome) : (s.halt o).outcome = o := rfl

end State

/-! ### The outcomes of a step -/

/-- What a task ends with, if it is about to end. -/
def Body.result : Body π V ε σ → Option (Except ε V)
  | .coReturn v => some (.ok v)
  | .throw e => some (.error e)
  | _ => none

/-- The task is complete: `is_complete()` of its promise. -/
def Coro.Complete (x : Coro π V ε σ) : Prop := ∃ r, x = .finished r

/-- The frames that call `run_one` next, if there is an entry to run. -/
def Loops (coros : ℕ → Coro π V ε σ) : Frame π V ε σ → Prop
  | .runForever => True
  | .awaitLoop _ child _ => ¬ (coros child).Complete
  | _ => False

inductive Trans (poll : π → σ → Poll π V ε × σ) (s : State π V ε σ) : State π V ε σ → Prop
  | enqueue {rest : Stack π V ε σ} {e : Entry} (ht : s.stack = .push e :: rest)
      (hroom : s.queue.length < s.capacity - 1) :
      Trans poll s ((s.below rest).setQueue (s.queue ++ [e]))
  | spin {rest : Stack π V ε σ} {e : Entry} (ht : s.stack = .push e :: rest)
      (hfull : s.capacity - 1 ≤ s.queue.length) : Trans poll s s
  | runTask {f : Frame π V ε σ} {rest : Stack π V ε σ} {e : Entry} {q : List Entry}
      {b : Body π V ε σ} (ht : s.stack = f :: rest) (hf : Loops s.coros f)
      (hq : s.queue = e :: q) (hc : s.coros e.coro = .start b) :
      Trans poll s ((((s.setQueue q).enter (.runOne e)).setCoro e.coro .running).enter
        (.exec e.coro b))
  | runRec {f : Frame π V ε σ} {rest : Stack π V ε σ} {e : Entry} {q : List Entry} {h : ℕ}
      (ht : s.stack = f :: rest) (hf : Loops s.coros f)
      (hq : s.queue = e :: q) (hc : s.coros e.coro = .recWait h) :
      Trans poll s ((((s.setQueue q).enter (.runOne e)).setCoro e.coro .recRunning).enter
        (.recWait e.coro h))
  | runBad {f : Frame π V ε σ} {rest : Stack π V ε σ} {e : Entry} {q : List Entry}
      (ht : s.stack = f :: rest) (hf : Loops s.coros f) (hq : s.queue = e :: q)
      (hstart : ∀ b, s.coros e.coro ≠ .start b) (hrec : ∀ h, s.coros e.coro ≠ .recWait h) :
      Trans poll s (((s.setQueue q).enter (.runOne e)).halt .undefined)
  | returned {rest : Stack π V ε σ} (ht : s.stack = .runForever :: rest) (hq : s.queue = []) :
      Trans poll s (s.halt .returned)
  | awaitEmpty {rest : Stack π V ε σ} {c child : ℕ} {next : Cont π V ε σ}
      (ht : s.stack = .awaitLoop c child next :: rest) (hc : ¬ (s.coros child).Complete)
      (hq : s.queue = []) : Trans poll s (s.halt .undefined)
  | resumed {rest : Stack π V ε σ} {c child : ℕ} {next : Cont π V ε σ} {v : V}
      (ht : s.stack = .awaitLoop c child next :: rest)
      (hc : s.coros child = .finished (.ok v)) :
      Trans poll s (((s.below rest).setCoro child .destroyed).enter (.exec c (next (.ok v))))
  | terminated {rest : Stack π V ε σ} {c child : ℕ} {next : Cont π V ε σ} {e : ε}
      (ht : s.stack = .awaitLoop c child next :: rest)
      (hc : s.coros child = .finished (.error e)) : Trans poll s (s.halt .terminated)
  | leaveOwned {rest : Stack π V ε σ} {c : ℕ} (ht : s.stack = .runOne ⟨c, true⟩ :: rest) :
      Trans poll s ((s.below rest).setCoro c .destroyed)
  | leave {rest : Stack π V ε σ} {c : ℕ} (ht : s.stack = .runOne ⟨c, false⟩ :: rest) :
      Trans poll s (s.below rest)
  | finish {rest : Stack π V ε σ} {c : ℕ} {b : Body π V ε σ} {r : Except ε V}
      (ht : s.stack = .exec c b :: rest) (hb : b.result = some r) :
      Trans poll s ((s.below rest).setCoro c (.finished r))
  | act {rest : Stack π V ε σ} {c : ℕ} {f : σ → σ} {next : Body π V ε σ}
      (ht : s.stack = .exec c (.act f next) :: rest) :
      Trans poll s (((s.below rest).setWorld (f s.world)).enter (.exec c next))
  | pollReady {rest : Stack π V ε σ} {c : ℕ} {p : π} {next : Cont π V ε σ} {v : V} {w : σ}
      (ht : s.stack = .exec c (.poll p next) :: rest) (hp : poll p s.world = (.ready v, w)) :
      Trans poll s (((s.below rest).setWorld w).enter (.exec c (next (.ok v))))
  | pollThrew {rest : Stack π V ε σ} {c : ℕ} {p : π} {next : Cont π V ε σ} {e : ε} {w : σ}
      (ht : s.stack = .exec c (.poll p next) :: rest) (hp : poll p s.world = (.threw e, w)) :
      Trans poll s (((s.below rest).setWorld w).enter (.exec c (next (.error e))))
  | pollLater {rest : Stack π V ε σ} {c : ℕ} {p p' : π} {next : Cont π V ε σ} {w : σ}
      (ht : s.stack = .exec c (.poll p next) :: rest) (hp : poll p s.world = (.notReady p', w)) :
      Trans poll s ((((s.below rest).setWorld w).setCoro c (.waiting p' next)).recWait c)
  | await {rest : Stack π V ε σ} {c : ℕ} {child : Body π V ε σ} {next : Cont π V ε σ}
      (ht : s.stack = .exec c (.await child next) :: rest) :
      Trans poll s (((s.below rest).enter (.awaitLoop c s.created next)).pushNew
        (.start child) false)
  | recReady {rest : Stack π V ε σ} {r h : ℕ} {p : π} {next : Cont π V ε σ} {v : V} {w : σ}
      (ht : s.stack = .recWait r h :: rest) (hc : s.coros h = .waiting p next)
      (hp : poll p s.world = (.ready v, w)) :
      Trans poll s (((((s.below rest).setWorld w).setCoro h .running).enter
        (.recReturn r)).enter (.exec h (next (.ok v))))
  | recThrew {rest : Stack π V ε σ} {r h : ℕ} {p : π} {next : Cont π V ε σ} {e : ε} {w : σ}
      (ht : s.stack = .recWait r h :: rest) (hc : s.coros h = .waiting p next)
      (hp : poll p s.world = (.threw e, w)) :
      Trans poll s (((s.below rest).setWorld w).enter (.recReturn r))
  | recLater {rest : Stack π V ε σ} {r h : ℕ} {p p' : π} {next : Cont π V ε σ} {w : σ}
      (ht : s.stack = .recWait r h :: rest) (hc : s.coros h = .waiting p next)
      (hp : poll p s.world = (.notReady p', w)) :
      Trans poll s (((((s.below rest).setWorld w).setCoro h (.waiting p' next)).enter
        (.recReturn r)).recWait h)
  | recBad {rest : Stack π V ε σ} {r h : ℕ} (ht : s.stack = .recWait r h :: rest)
      (hc : ∀ p next, s.coros h ≠ .waiting p next) : Trans poll s (s.halt .undefined)
  | recReturn {rest : Stack π V ε σ} {r : ℕ} (ht : s.stack = .recReturn r :: rest) :
      Trans poll s ((s.below rest).setCoro r .recFinished)

variable {poll : π → σ → Poll π V ε × σ}

theorem Loops.runOne {s s' : State π V ε σ} {f : Frame π V ε σ} {rest : Stack π V ε σ}
    (ht : s.stack = f :: rest) (hf : Loops s.coros f) (hs : s.runOne = some s') :
    Trans poll s s' := by
  cases hq : s.queue with
  | nil => simp [State.runOne, hq] at hs
  | cons e q =>
      simp only [State.runOne, hq, Option.some.injEq] at hs
      subst hs
      cases hc : s.coros e.coro with
      | start b => simpa [State.resume, hc] using (Trans.runTask ht hf hq hc : Trans poll s _)
      | recWait h => simpa [State.resume, hc] using (Trans.runRec ht hf hq hc : Trans poll s _)
      | _ =>
          simpa [State.resume, hc] using
            (Trans.runBad ht hf hq (by simp [hc]) (by simp [hc]) : Trans poll s _)

theorem runOne_eq_none {s : State π V ε σ} : s.runOne = none ↔ s.queue = [] := by
  cases hq : s.queue <;> simp [State.runOne, hq]

/-- Putting the topmost frame back. -/
theorem enter_below {s : State π V ε σ} {f : Frame π V ε σ} {rest : Stack π V ε σ}
    (ht : s.stack = f :: rest) : (s.below rest).enter f = s := by
  cases s
  simp only at ht
  subst ht
  rfl

theorem step_trans {s s' : State π V ε σ} {a : Unit} (hs : step poll s a = some s') :
    Trans poll s s' := by
  cases ht : s.stack with
  | nil => simp [step, ht] at hs
  | cons f rest =>
      simp only [step, ht] at hs
      cases f with
      | runForever =>
          rw [enter_below ht, Option.some.injEq] at hs
          cases hrun : s.runOne with
          | none =>
              rw [hrun, Option.getD_none] at hs
              exact hs ▸ .returned ht (runOne_eq_none.1 hrun)
          | some u =>
              rw [hrun, Option.getD_some] at hs
              exact hs ▸ Loops.runOne ht trivial hrun
      | runOne e =>
          obtain ⟨c, o⟩ := e
          cases o with
          | true =>
              simp only [if_true, Option.some.injEq] at hs
              exact hs ▸ .leaveOwned ht
          | false =>
              simp only [Bool.false_eq_true, if_false, Option.some.injEq] at hs
              exact hs ▸ .leave ht
      | push e =>
          simp only [State.below_queue, Option.some.injEq] at hs
          by_cases hroom : s.queue.length < s.capacity - 1
          · have hpush : Fifo.push ((s.below rest).capacity - 1) s.queue e =
                some (s.queue ++ [e]) := Fifo.push_of_lt hroom e
            rw [hpush] at hs
            exact hs ▸ .enqueue ht hroom
          · have hpush : Fifo.push ((s.below rest).capacity - 1) s.queue e = none :=
              Fifo.push_of_ge (Nat.le_of_not_lt hroom) e
            rw [hpush] at hs
            simp only [enter_below ht] at hs
            exact hs ▸ .spin ht (Nat.le_of_not_lt hroom)
      | exec c b =>
          simp only [Option.some.injEq] at hs
          subst hs
          cases b with
          | coReturn v => exact .finish ht rfl
          | throw e => exact .finish ht rfl
          | act f next => exact .act ht
          | poll p next =>
              simp only [execStep]
              cases hp : poll p s.world with
              | mk r w =>
                  have hp' : poll p (s.below rest).world = (r, w) := hp
                  simp only [hp']
                  cases r with
                  | ready v => exact .pollReady ht hp
                  | threw e => exact .pollThrew ht hp
                  | notReady p' => exact .pollLater ht hp
          | await child next => exact .await ht
      | awaitLoop c child next =>
          simp only [Option.some.injEq] at hs
          subst hs
          by_cases hcomplete : (s.coros child).Complete
          · obtain ⟨r, hr⟩ := hcomplete
            simp only [awaitLoopStep, State.below_coros, hr]
            cases r with
            | ok v => exact .resumed ht hr
            | error e => exact .terminated ht hr
          · have hloop : awaitLoopStep (s.below rest) c child next =
                s.runOne.getD (s.halt .undefined) := by
              simp only [awaitLoopStep, State.below_coros]
              cases hc : s.coros child with
              | finished r => exact absurd ⟨r, hc⟩ hcomplete
              | _ => simp only [enter_below ht]; rfl
            rw [hloop]
            cases hrun : s.runOne with
            | none => exact .awaitEmpty ht hcomplete (runOne_eq_none.1 hrun)
            | some u => exact Loops.runOne ht hcomplete hrun
      | recWait r h =>
          simp only [Option.some.injEq] at hs
          subst hs
          simp only [recWaitStep, State.below_coros]
          cases hc : s.coros h with
          | waiting p next =>
              cases hp : poll p s.world with
              | mk res w =>
                  have hp' : poll p (s.below rest).world = (res, w) := hp
                  simp only [hp']
                  cases res with
                  | ready v => exact .recReady ht hc hp
                  | threw e => exact .recThrew ht hc hp
                  | notReady p' => exact .recLater ht hc hp
          | _ => exact .recBad ht (by simp [hc])
      | recReturn r =>
          simp only [Option.some.injEq] at hs
          exact hs ▸ .recReturn ht

end JowiAsio.EventLoop

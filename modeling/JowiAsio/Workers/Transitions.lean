import JowiAsio.Workers.Model

/-!
What one step of a worker can do.

`Trans` lists the outcomes of a step that goes on, with the facts that
select each of them, and `workerStep_trans` derives it from the executable
`workerStep`. The two callers of `run_one` share what it does (`Runs`).
-/

namespace JowiAsio.Workers

open Lib
open EventLoop (Body Cont Entry Poll)

variable {π V ε σ : Type}

namespace Shared

variable (s : Shared π V ε σ)

@[simp] theorem setCoro_coros (c : ℕ) (x : Coro π V ε σ) :
    (s.setCoro c x).coros = Function.update s.coros c x := rfl

@[simp] theorem setCoro_created (c : ℕ) (x : Coro π V ε σ) :
    (s.setCoro c x).created = s.created := rfl

@[simp] theorem setCoro_queue (c : ℕ) (x : Coro π V ε σ) : (s.setCoro c x).queue = s.queue := rfl

@[simp] theorem setQueue_coros (q : List Entry) : (s.setQueue q).coros = s.coros := rfl

@[simp] theorem setQueue_created (q : List Entry) : (s.setQueue q).created = s.created := rfl

@[simp] theorem setQueue_queue (q : List Entry) : (s.setQueue q).queue = q := rfl

@[simp] theorem setWorld_coros (w : σ) : (s.setWorld w).coros = s.coros := rfl

@[simp] theorem setWorld_created (w : σ) : (s.setWorld w).created = s.created := rfl

@[simp] theorem setWorld_queue (w : σ) : (s.setWorld w).queue = s.queue := rfl

@[simp] theorem create_coros (x : Coro π V ε σ) :
    (s.create x).coros = Function.update s.coros s.created x := rfl

@[simp] theorem create_created (x : Coro π V ε σ) : (s.create x).created = s.created + 1 := rfl

@[simp] theorem create_queue (x : Coro π V ε σ) : (s.create x).queue = s.queue := rfl

end Shared

/-- `run_one` pops an entry and resumes its coroutine, above the frames
`below`. -/
inductive Runs (s : Shared π V ε σ) (below : Stack π V ε σ) :
    Shared π V ε σ → Stack π V ε σ → Prop
  | start {e : Entry} {q : List Entry} {b : Body π V ε σ} (hq : s.queue = e :: q)
      (hc : s.coros e.coro = .start b) :
      Runs s below ((s.setQueue q).setCoro e.coro .running)
        (.exec e.coro b :: .runOne e :: below)
  | recWait {e : Entry} {q : List Entry} {h : ℕ} (hq : s.queue = e :: q)
      (hc : s.coros e.coro = .recWait h) :
      Runs s below ((s.setQueue q).setCoro e.coro .recRunning)
        (.recWait e.coro h :: .runOne e :: below)

/-- The coroutine is suspended. -/
def Coro.Suspended : Coro π V ε σ → Prop
  | .start _ | .waiting _ _ | .lost | .finished _ | .recWait _ | .recFinished => True
  | _ => False

inductive Trans (poll : π → σ → Poll π V ε × σ) (s : Shared π V ε σ) :
    Stack π V ε σ → Shared π V ε σ → Stack π V ε σ → Prop
  | idle (hq : s.queue = []) : Trans poll s [] s []
  | run {s' : Shared π V ε σ} {st' : Stack π V ε σ} (h : Runs s [] s' st') : Trans poll s [] s' st'
  | leave {e : Entry} {below : Stack π V ε σ} (ho : e.owning = false) :
      Trans poll s (.runOne e :: below) s below
  | leaveOwned {e : Entry} {below : Stack π V ε σ} (ho : e.owning = true)
      (hc : (s.coros e.coro).Suspended) :
      Trans poll s (.runOne e :: below) (s.setCoro e.coro .destroyed) below
  | push {e : Entry} {below : Stack π V ε σ} (hroom : s.queue.length < s.capacity - 1) :
      Trans poll s (.push e :: below) (s.setQueue (s.queue ++ [e])) below
  | pushFull {e : Entry} {below : Stack π V ε σ} (hfull : s.capacity - 1 ≤ s.queue.length) :
      Trans poll s (.push e :: below) s (.push e :: below)
  | coReturn {c : ℕ} {v : V} {below : Stack π V ε σ} :
      Trans poll s (.exec c (.coReturn v) :: below) (s.setCoro c (.completing (.ok v)))
        (.finish c (.ok v) :: below)
  | throw {c : ℕ} {e : ε} {below : Stack π V ε σ} :
      Trans poll s (.exec c (.throw e) :: below) (s.setCoro c (.completing (.error e)))
        (.finish c (.error e) :: below)
  | act {c : ℕ} {f : σ → σ} {b : Body π V ε σ} {below : Stack π V ε σ} :
      Trans poll s (.exec c (.act f b) :: below) (s.setWorld (f s.world)) (.exec c b :: below)
  | pollReady {c : ℕ} {p : π} {next : Cont π V ε σ} {v : V} {w : σ} {below : Stack π V ε σ}
      (hp : poll p s.world = (.ready v, w)) :
      Trans poll s (.exec c (.poll p next) :: below) (s.setWorld w)
        (.exec c (next (.ok v)) :: below)
  | pollThrew {c : ℕ} {p : π} {next : Cont π V ε σ} {e : ε} {w : σ} {below : Stack π V ε σ}
      (hp : poll p s.world = (.threw e, w)) :
      Trans poll s (.exec c (.poll p next) :: below) (s.setWorld w)
        (.exec c (next (.error e)) :: below)
  | pollWaits {c : ℕ} {p p' : π} {next : Cont π V ε σ} {w : σ} {below : Stack π V ε σ}
      (hp : poll p s.world = (.notReady p', w)) :
      Trans poll s (.exec c (.poll p next) :: below)
        (((s.setWorld w).setCoro c (.waiting p' next)).create (.recWait c))
        (.push ⟨s.created, true⟩ :: below)
  | await {c : ℕ} {b : Body π V ε σ} {next : Cont π V ε σ} {below : Stack π V ε σ} :
      Trans poll s (.exec c (.await b next) :: below) (s.create (.start b))
        (.push ⟨s.created, false⟩ :: .test c s.created next :: below)
  | finish {c : ℕ} {r : Except ε V} {below : Stack π V ε σ} :
      Trans poll s (.finish c r :: below) (s.setCoro c (.finished r)) below
  | complete {c child : ℕ} {next : Cont π V ε σ} {below : Stack π V ε σ}
      (hc : (s.coros child).isComplete = true) :
      Trans poll s (.test c child next :: below) s (.resume c child next :: below)
  | incomplete {c child : ℕ} {next : Cont π V ε σ} {below : Stack π V ε σ}
      (hc : (s.coros child).isComplete = false) :
      Trans poll s (.test c child next :: below) s (.take c child next :: below)
  | exhausted {c child : ℕ} {next : Cont π V ε σ} {below : Stack π V ε σ} (hq : s.queue = []) :
      Trans poll s (.take c child next :: below) s (.resume c child next :: below)
  | take {c child : ℕ} {next : Cont π V ε σ} {below : Stack π V ε σ} {s' : Shared π V ε σ}
      {st' : Stack π V ε σ} (h : Runs s (.test c child next :: below) s' st') :
      Trans poll s (.take c child next :: below) s' st'
  | awaitResume {c child : ℕ} {next : Cont π V ε σ} {v : V} {below : Stack π V ε σ}
      (hc : s.coros child = .finished (.ok v)) :
      Trans poll s (.resume c child next :: below) (s.setCoro child .destroyed)
        (.exec c (next (.ok v)) :: below)
  | recReady {r h : ℕ} {p : π} {next : Cont π V ε σ} {v : V} {w : σ} {below : Stack π V ε σ}
      (hc : s.coros h = .waiting p next) (hp : poll p s.world = (.ready v, w)) :
      Trans poll s (.recWait r h :: below) ((s.setWorld w).setCoro h .running)
        (.exec h (next (.ok v)) :: .recReturn r :: below)
  | recThrew {r h : ℕ} {p : π} {next : Cont π V ε σ} {e : ε} {w : σ} {below : Stack π V ε σ}
      (hc : s.coros h = .waiting p next) (hp : poll p s.world = (.threw e, w)) :
      Trans poll s (.recWait r h :: below) ((s.setWorld w).setCoro h .lost)
        (.recReturn r :: below)
  | recAgain {r h : ℕ} {p p' : π} {next : Cont π V ε σ} {w : σ} {below : Stack π V ε σ}
      (hc : s.coros h = .waiting p next) (hp : poll p s.world = (.notReady p', w)) :
      Trans poll s (.recWait r h :: below)
        (((s.setWorld w).setCoro h (.waiting p' next)).create (.recWait h))
        (.push ⟨s.created, true⟩ :: .recReturn r :: below)
  | recReturn {r : ℕ} {below : Stack π V ε σ} :
      Trans poll s (.recReturn r :: below) (s.setCoro r .recFinished) below

/-- The next step of a worker with the stack `st` ends the loop of a
`TaskAwaitable`: the flag is set, or there is nothing to run. -/
def EndsLoop (s : Shared π V ε σ) (st : Stack π V ε σ) (child : ℕ) : Prop :=
  (∃ c next below, st = .test c child next :: below ∧ (s.coros child).isComplete = true) ∨
    ∃ c next below, st = .take c child next :: below ∧ s.queue = []

variable {poll : π → σ → Poll π V ε × σ} {s s' : Shared π V ε σ} {st st' : Stack π V ε σ}

theorem Shared.runOne_runs {e : Entry} {q : List Entry} (hq : s.queue = e :: q)
    (h : s.runOne e q st = .ok (s', st')) : Runs s st s' st' := by
  unfold Shared.runOne Shared.resume at h
  split at h
  case h_1 b hc =>
    cases h
    exact .start hq hc
  case h_2 y hc =>
    cases h
    exact .recWait hq hc
  case h_3 => cases h

theorem Shared.destroyOwned_eq {c : ℕ} (h : s.destroyOwned c st = .ok (s', st')) :
    (s.coros c).Suspended ∧ s' = s.setCoro c .destroyed ∧ st' = st := by
  unfold Shared.destroyOwned at h
  cases hc : s.coros c <;> simp only [hc] at h <;> cases h <;>
    exact ⟨trivial, rfl, rfl⟩

theorem execStep_trans (c : ℕ) (below : Stack π V ε σ) (b : Body π V ε σ) :
    Trans poll s (.exec c b :: below) (execStep poll s c below b).1
      (execStep poll s c below b).2 := by
  cases b with
  | coReturn v => exact .coReturn
  | throw e => exact .throw
  | act f next => exact .act
  | await child next => exact .await
  | poll p next =>
      simp only [execStep]
      split
      case h_1 v w hp => exact .pollReady hp
      case h_2 e w hp => exact .pollThrew hp
      case h_3 p' w hp => exact .pollWaits hp

theorem recWaitStep_trans {r y : ℕ} {below : Stack π V ε σ}
    (h : recWaitStep poll s r y below = .ok (s', st')) :
    Trans poll s (.recWait r y :: below) s' st' := by
  unfold recWaitStep at h
  split at h
  case h_1 p next hc =>
    split at h
    case h_1 v w hp =>
      cases h
      exact .recReady hc hp
    case h_2 e w hp =>
      cases h
      exact .recThrew hc hp
    case h_3 p' w hp =>
      cases h
      exact .recAgain hc hp
  case h_2 => cases h

theorem awaitResumeStep_trans {c child : ℕ} {next : Cont π V ε σ} {below : Stack π V ε σ}
    (h : awaitResumeStep s c child next below = .ok (s', st')) :
    Trans poll s (.resume c child next :: below) s' st' := by
  unfold awaitResumeStep at h
  split at h
  case h_1 v hc =>
    cases h
    exact .awaitResume hc
  case h_2 => cases h
  case h_3 => cases h

theorem workerStep_trans (h : workerStep poll s st = .ok (s', st')) :
    Trans poll s st s' st' := by
  cases st with
  | nil =>
      simp only [workerStep] at h
      split at h
      case h_1 hq =>
        cases h
        exact .idle hq
      case h_2 e q hq => exact .run (Shared.runOne_runs hq h)
  | cons f below =>
      cases f with
      | runOne e =>
          simp only [workerStep] at h
          split at h
          case isTrue ho =>
            obtain ⟨hc, rfl, rfl⟩ := Shared.destroyOwned_eq h
            exact .leaveOwned ho hc
          case isFalse ho =>
            cases h
            exact .leave (Bool.eq_false_iff.2 ho)
      | push e =>
          simp only [workerStep] at h
          by_cases hroom : s.queue.length < s.capacity - 1
          · rw [Fifo.push_of_lt hroom] at h
            cases h
            exact .push hroom
          · rw [Fifo.push_of_ge (Nat.le_of_not_lt hroom)] at h
            cases h
            exact .pushFull (Nat.le_of_not_lt hroom)
      | exec c b =>
          have htrans : Trans poll s (.exec c b :: below) (execStep poll s c below b).1
              (execStep poll s c below b).2 := execStep_trans c below b
          simp only [workerStep, Except.ok.injEq] at h
          rwa [h] at htrans
      | finish c r =>
          cases h
          exact .finish
      | test c child next =>
          simp only [workerStep] at h
          split at h
          case isTrue hc =>
            cases h
            exact .complete hc
          case isFalse hc =>
            cases h
            exact .incomplete (Bool.eq_false_iff.2 hc)
      | take c child next =>
          simp only [workerStep] at h
          split at h
          case h_1 hq =>
            cases h
            exact .exhausted hq
          case h_2 e q hq => exact .take (Shared.runOne_runs hq h)
      | resume c child next => exact awaitResumeStep_trans h
      | recWait r y => exact recWaitStep_trans h
      | recReturn r =>
          cases h
          exact .recReturn

/-- A step of the program: a task is pushed, or a worker goes on, or it
ends the program. -/
inductive StepTrans (poll : π → σ → Poll π V ε × σ) (s : State π V ε σ) :
    Label π V ε σ → State π V ε σ → Prop
  | push {b : Body π V ε σ} {owning : Bool}
      (hroom : s.shared.queue.length < s.shared.capacity - 1) :
      StepTrans poll s (.push b owning)
        ⟨(s.shared.create (.start b)).setQueue (s.shared.queue ++ [⟨s.shared.created, owning⟩]),
          s.workers, s.outcome⟩
  | goOn {w : ℕ} {st st' : Stack π V ε σ} {s' : Shared π V ε σ} (hw : s.workers[w]? = some st)
      (h : Trans poll s.shared st s' st') :
      StepTrans poll s (.worker w) ⟨s', s.workers.set w st', s.outcome⟩
  | halt {w : ℕ} {st : Stack π V ε σ} {o : Outcome} (hw : s.workers[w]? = some st)
      (h : workerStep poll s.shared st = .error o) :
      StepTrans poll s (.worker w) ⟨s.shared, s.workers, o⟩

theorem step_trans {s t : State π V ε σ} {a : Label π V ε σ} (h : step poll s a = some t) :
    StepTrans poll s a t := by
  cases a with
  | push b owning =>
      simp only [step] at h
      split at h
      case isTrue =>
        obtain ⟨q, hq, rfl⟩ := Option.map_eq_some_iff.1 h
        obtain rfl := Fifo.push_eq hq
        refine .push (Nat.lt_of_not_le fun hfull => ?_)
        rw [Fifo.push_of_ge hfull] at hq
        cases hq
      case isFalse => cases h
  | worker w =>
      simp only [step] at h
      split at h
      case isTrue =>
        obtain ⟨st, hw, rfl⟩ := Option.map_eq_some_iff.1 h
        split
        case h_1 s' st' hs => exact .goOn hw (workerStep_trans hs)
        case h_2 o hs => exact .halt hw hs
      case isFalse => cases h

end JowiAsio.Workers

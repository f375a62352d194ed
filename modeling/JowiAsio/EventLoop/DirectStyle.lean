import JowiAsio.EventLoop.JobSteps

/-!
Direct-style evaluation, and that the event loop agrees with it.

`Body.eval` runs a task as if `co_await` were a call: a poll awaitable
gives the result it has in the end, and a child is run to its result on
the spot. `Tracks` relates a state of the thread to that evaluation. Each
task has a goal, the result that direct style gives for it, and whatever
its job still has to do evaluates to the goal. A step that changes a job
keeps this, for the same reason for every kind of step: the work that is
left is the evaluation of the rest of the body.

The relation also measures how much is left to do (`State.potential`),
so a thread whose loop never fills up comes to an end.
-/

namespace JowiAsio.EventLoop

open Lib

variable {π V ε σ : Type}

/-! ### Direct style -/

/-- What is known about the answers of the poll awaitables: one with the
state `p` has the result `value p` when it is ready. The polls decide, on
whatever else is in the world, when that is, if it is ever. Only the first
poll, which the awaiting coroutine makes itself, may throw. -/
structure Answers (poll : π → σ → Poll π V ε × σ) (value : π → Except ε V) : Prop where
  ready : ∀ {p w v w'}, poll p w = (.ready v, w') → value p = .ok v
  threw : ∀ {p w e w'}, poll p w = (.threw e, w') → value p = .error e
  notReady : ∀ {p w p' w'}, poll p w = (.notReady p', w') →
    value p' = value p ∧ ∃ v, value p = .ok v

/-- An awaitable with the state `p` is not ready at most `failures p` times
more. -/
def FailuresDrop (poll : π → σ → Poll π V ε × σ) (failures : π → ℕ) : Prop :=
  ∀ p w p' w', poll p w = (.notReady p', w') → failures p' < failures p

/-- The polls settle: each awaitable is ready in the end. -/
structure Settles (poll : π → σ → Poll π V ε × σ) (value : π → Except ε V)
    (failures : π → ℕ) : Prop extends Answers poll value where
  drop : FailuresDrop poll failures

section

variable (value : π → Except ε V) (failures : π → ℕ)

/-- The result of a task in direct style. -/
def Body.eval : Body π V ε σ → Except ε V
  | .coReturn v => .ok v
  | .throw e => .error e
  | .act _ next => next.eval
  | .poll p next => (next (value p)).eval
  | .await child next => (next child.eval).eval

/-- Every child that direct-style evaluation awaits, at any depth, returns
a value. -/
def Body.ChildrenReturn : Body π V ε σ → Prop
  | .coReturn _ | .throw _ => True
  | .act _ next => next.ChildrenReturn
  | .poll p next => (next (value p)).ChildrenReturn
  | .await child next =>
      child.ChildrenReturn ∧ (∃ v, child.eval value = .ok v) ∧
        (next (child.eval value)).ChildrenReturn

/-- A bound on the work that direct-style evaluation does. -/
def Body.cost : Body π V ε σ → ℕ
  | .coReturn _ | .throw _ => 1
  | .act _ next => next.cost + 1
  | .poll p next => (next (value p)).cost + 5 * failures p + 2
  | .await child next => child.cost + (next (child.eval value)).cost + 7

/-- What is left of a task, when `goal` is the result of each child. -/
def Work.rest (goal : ℕ → Except ε V) : Work π V ε σ → Body π V ε σ
  | .run b => b
  | .poll p next => next (value p)
  | .join child next => next (goal child)

def Work.ChildrenReturn (goal : ℕ → Except ε V) (w : Work π V ε σ) : Prop :=
  (w.rest value goal).ChildrenReturn value ∧ ∀ child next, w = .join child next →
    ∃ v, goal child = .ok v

def Work.cost (goal : ℕ → Except ε V) : Work π V ε σ → ℕ
  | .run b => b.cost value failures
  | .poll p next => (next (value p)).cost value failures + 5 * failures p + 1
  | .join child next => (next (goal child)).cost value failures + 1

/-- What all jobs cost, and the overhead. -/
def State.potential (goal : ℕ → Except ε V) (s : State π V ε σ) : ℕ :=
  s.overhead + (s.jobs.map fun j => j.work.cost value failures goal).sum

/-- The state `s` of a run of the tasks `ts`, when `goal` is the
direct-style result of each task. -/
structure Tracks (ts : List (Body π V ε σ)) (goal : ℕ → Except ε V) (s : State π V ε σ) :
    Prop where
  placed : Placed s
  jobs : ∀ j ∈ s.jobs, (j.work.rest value goal).eval value = goal j.task
  finished : ∀ {c r}, s.coros c = .finished r → r = goal c
  waiting : ∀ {c p next}, s.coros c = .waiting p next → ∃ v, value p = .ok v
  goals : ∀ i (hi : i < ts.length), goal i = ts[i].eval value
  created : ts.length ≤ s.created
  roots : ∀ i < ts.length, (s.coros i).IsTask
  children : ∀ j ∈ s.jobs, ∀ child next, j.work = .join child next → ts.length ≤ child

end

/-! ### What a step on a job preserves -/

section

variable {poll : π → σ → Poll π V ε × σ} {value : π → Except ε V} {failures : π → ℕ}
  {s s' : State π V ε σ} {ts : List (Body π V ε σ)} {goal goal' : ℕ → Except ε V}

theorem Works.preserves (hpoll : Answers poll value) (goal : ℕ → Except ε V)
    {w w' : Work π V ε σ} {k : ℕ} (h : Works poll w w' k) :
    (w'.rest value goal).eval value = (w.rest value goal).eval value ∧
      (w'.ChildrenReturn value goal ↔ w.ChildrenReturn value goal) ∧
      ∀ child next, w' ≠ .join child next := by
  cases h with
  | act f next =>
      exact ⟨rfl, by simp [Work.ChildrenReturn, Work.rest, Body.ChildrenReturn], by simp⟩
  | ready next hp =>
      have hv := hpoll.ready hp
      refine ⟨by simp [Work.rest, Body.eval, hv], ?_, by simp⟩
      simp [Work.ChildrenReturn, Work.rest, Body.ChildrenReturn, hv]
  | threw next hp =>
      have hv := hpoll.threw hp
      refine ⟨by simp [Work.rest, Body.eval, hv], ?_, by simp⟩
      simp [Work.ChildrenReturn, Work.rest, Body.ChildrenReturn, hv]
  | later next hp =>
      obtain ⟨hv, -⟩ := hpoll.notReady hp
      refine ⟨by simp [Work.rest, Body.eval, hv], ?_, by simp⟩
      simp [Work.ChildrenReturn, Work.rest, Body.ChildrenReturn, hv]
  | recReady next hp =>
      have hv := hpoll.ready hp
      exact ⟨by simp [Work.rest, hv], by simp [Work.ChildrenReturn, Work.rest, hv], by simp⟩
  | recLater next hp =>
      obtain ⟨hv, -⟩ := hpoll.notReady hp
      exact ⟨by simp [Work.rest, hv], by simp [Work.ChildrenReturn, Work.rest, hv], by simp⟩

theorem Works.cost_lt (hpoll : Settles poll value failures) (goal : ℕ → Except ε V)
    {w w' : Work π V ε σ} {k : ℕ} (h : Works poll w w' k) :
    w'.cost value failures goal + k < w.cost value failures goal := by
  cases h with
  | act f next => simp [Work.cost, Body.cost]
  | ready next hp =>
      simp only [Work.cost, Body.cost, hpoll.ready hp]
      omega
  | threw next hp =>
      simp only [Work.cost, Body.cost, hpoll.threw hp]
      omega
  | recReady next hp =>
      simp only [Work.cost, hpoll.ready hp]
      omega
  | later next hp | recLater next hp =>
      obtain ⟨hv, -⟩ := hpoll.notReady hp
      have hless := hpoll.drop _ _ _ _ hp
      simp only [Work.cost, Body.cost, hv]
      omega

theorem Body.of_result (value : π → Except ε V) {b : Body π V ε σ} {r : Except ε V}
    (h : b.result = some r) : b.eval value = r ∧ b.ChildrenReturn value := by
  cases b <;> simp only [Body.result, reduceCtorEq, Option.some.injEq] at h <;> subst h <;>
    simp [Body.eval, Body.ChildrenReturn]

theorem Body.cost_of_result (value : π → Except ε V) (failures : π → ℕ) {b : Body π V ε σ}
    {r : Except ε V} (h : b.result = some r) : b.cost value failures = 1 := by
  cases b <;> first | rfl | cases h

/-- Only the results of the children that are waited for matter. -/
theorem Work.congr (value : π → Except ε V) {w : Work π V ε σ}
    (h : ∀ child next, w = .join child next → goal' child = goal child) :
    w.rest value goal' = w.rest value goal ∧
      (w.ChildrenReturn value goal' ↔ w.ChildrenReturn value goal) ∧
      ∀ failures, w.cost value failures goal' = w.cost value failures goal := by
  cases w with
  | join child next =>
      have hc := h child next rfl
      simp [Work.rest, Work.ChildrenReturn, Work.cost, hc]
  | _ => simp [Work.rest, Work.ChildrenReturn, Work.cost]

theorem forall_perm_cons {α : Type} {l l' : List α} {a : α} (h : l.Perm (a :: l'))
    {P : α → Prop} : (∀ x ∈ l, P x) ↔ P a ∧ ∀ x ∈ l', P x := by
  rw [← List.forall_mem_cons]
  exact forall_congr' fun x => imp_congr_left h.mem_iff

theorem sum_perm_cons {α : Type} {l l' : List α} {a : α} (h : l.Perm (a :: l')) (f : α → ℕ) :
    (l.map f).sum = f a + (l'.map f).sum :=
  (h.map f).sum_nat

/-- The task of a job, and the child it waits for, exist. -/
theorem Placed.job_lt_created (h : Placed s) {j : Job π V ε σ} (hj : j ∈ s.jobs) :
    j.task < s.created ∧ ∀ child next, j.work = .join child next → child < s.created := by
  obtain ⟨f, hf, hfj⟩ := List.mem_filterMap.1 hj
  have hok := h.ok f hf
  constructor
  · refine h.lt_created fun he => ?_
    have hbusy := hok.unfinished hfj
    simp [he, Coro.Unfinished] at hbusy
  · intro child next hjoin
    have hnot : ∀ {x}, pollJob s.coros x ≠ some j := by
      intro x hx
      cases hc : s.coros x <;> simp only [pollJob, hc, reduceCtorEq, Option.some.injEq] at hx
      subst hx
      cases hjoin
    cases f with
    | awaitLoop c child' next' =>
        simp only [Frame.job, Option.some.injEq] at hfj
        subst hfj
        cases hjoin
        refine h.lt_created fun he => ?_
        have htask := hok.2.1
        simp [he, Coro.IsTask] at htask
    | exec c b =>
        simp only [Frame.job, Option.some.injEq] at hfj
        subst hfj
        cases hjoin
    | push e =>
        simp only [Frame.job] at hfj
        cases hc : s.coros e.coro <;> simp only [hc, reduceCtorEq, Option.some.injEq] at hfj
        · subst hfj
          cases hjoin
        · exact absurd hfj hnot
    | recWait r x => exact absurd hfj hnot
    | _ => exact absurd hfj (by simp [Frame.job])

theorem JobStep.preserves (hpoll : Answers poll value) (h : Tracks value ts goal s)
    (hs : JobStep poll s s') : ∃ goal', (∀ c < s.created, goal' c = goal c) ∧
      (∀ j ∈ s'.jobs, (j.work.rest value goal').eval value = goal' j.task) ∧
      (∀ j ∈ s'.jobs, ∀ child next, j.work = .join child next → ts.length ≤ child) ∧
      ((∀ j ∈ s'.jobs, j.work.ChildrenReturn value goal') ↔
        ∀ j ∈ s.jobs, j.work.ChildrenReturn value goal) ∧
      ∀ failures, FailuresDrop poll failures →
        s'.potential value failures goal' < s.potential value failures goal := by
  have hjobs₀ := h.jobs
  have hchildren₀ := h.children
  cases hs with
  | move hjobs hover =>
      refine ⟨goal, fun _ _ => rfl, fun j hj => hjobs₀ j (hjobs.mem_iff.1 hj),
        fun j hj => hchildren₀ j (hjobs.mem_iff.1 hj),
        forall_congr' fun j => imp_congr_left hjobs.mem_iff, fun failures _ => ?_⟩
      rw [State.potential, State.potential, (hjobs.map _).sum_nat]
      omega
  | work hw hjobs hjobs' hover =>
      obtain ⟨heval, hreturn, hjoin⟩ := hw.preserves hpoll goal
      rw [forall_perm_cons hjobs] at hjobs₀ hchildren₀
      refine ⟨goal, fun _ _ => rfl, (forall_perm_cons hjobs').2 ⟨heval.trans hjobs₀.1, hjobs₀.2⟩,
        (forall_perm_cons hjobs').2 ⟨fun child next he => absurd he (hjoin child next),
          hchildren₀.2⟩, ?_, fun failures hdrop => ?_⟩
      · rw [forall_perm_cons hjobs, forall_perm_cons hjobs']
        exact and_congr_left' hreturn
      · have hcost := hw.cost_lt ⟨hpoll, hdrop⟩ goal
        rw [State.potential, State.potential, sum_perm_cons hjobs, sum_perm_cons hjobs']
        dsimp only
        omega
  | finish hb hjobs hjobs' hover =>
      have hreturn := Body.of_result value hb
      rw [forall_perm_cons hjobs] at hjobs₀ hchildren₀
      refine ⟨goal, fun _ _ => rfl, fun j hj => hjobs₀.2 j (hjobs'.mem_iff.1 hj),
        fun j hj => hchildren₀.2 j (hjobs'.mem_iff.1 hj), ?_, fun failures _ => ?_⟩
      · rw [forall_perm_cons hjobs, and_iff_right ⟨hreturn.2, by simp⟩]
        exact forall_congr' fun j => imp_congr_left hjobs'.mem_iff
      · rw [State.potential, State.potential, sum_perm_cons hjobs, (hjobs'.map _).sum_nat]
        simp only [Work.cost, Body.cost_of_result value failures hb]
        omega
  | join hchild hjobs hjobs' hover =>
      have hgoal := h.finished hchild
      rw [forall_perm_cons hjobs] at hjobs₀ hchildren₀
      refine ⟨goal, fun _ _ => rfl, (forall_perm_cons hjobs').2 ⟨?_, hjobs₀.2⟩,
        (forall_perm_cons hjobs').2 ⟨by simp, hchildren₀.2⟩, ?_, fun failures _ => ?_⟩
      · simpa [Work.rest, ← hgoal] using hjobs₀.1
      · rw [forall_perm_cons hjobs, forall_perm_cons hjobs']
        refine and_congr_left' ?_
        simp [Work.ChildrenReturn, Work.rest, ← hgoal]
      · rw [State.potential, State.potential, sum_perm_cons hjobs, sum_perm_cons hjobs']
        simp only [Work.cost, ← hgoal]
        omega
  | @spawn c child next js hjobs hjobs' hover =>
      -- the goal of the child is what direct style gives, and no other job asks for it
      have hold : ∀ d < s.created, Function.update goal s.created (child.eval value) d = goal d :=
        fun d hd => Function.update_of_ne (Nat.ne_of_lt hd) _ _
      have hlt : ∀ j ∈ s.jobs, j.task < s.created ∧ _ := fun j hj => h.placed.job_lt_created hj
      rw [forall_perm_cons hjobs] at hjobs₀ hchildren₀ hlt
      have hcongr : ∀ j ∈ js, _ := fun j hj => Work.congr value (w := j.work)
        fun child' next' he => hold child' ((hlt.2 j hj).2 child' next' he)
      refine ⟨_, hold, ?_, ?_, ?_, fun failures _ => ?_⟩
      · refine (forall_perm_cons hjobs').2 ⟨?_, List.forall_mem_cons.2 ⟨?_, fun j hj => ?_⟩⟩
        · simp [Work.rest]
        · rw [hold c hlt.1.1]
          simpa [Work.rest, Body.eval] using hjobs₀.1
        · rw [(hcongr j hj).1, hold _ (hlt.2 j hj).1]
          exact hjobs₀.2 j hj
      · refine (forall_perm_cons hjobs').2 ⟨by simp, List.forall_mem_cons.2 ⟨?_, hchildren₀.2⟩⟩
        rintro _ _ ⟨⟩
        exact h.created
      · rw [forall_perm_cons hjobs', forall_perm_cons hjobs, List.forall_mem_cons, ← and_assoc]
        refine and_congr ?_ (forall_congr' fun j => imp_congr_right fun hj => (hcongr j hj).2.1)
        simp [Work.ChildrenReturn, Work.rest, Body.ChildrenReturn, and_comm]
      · have hsum : (js.map fun j => j.work.cost value failures
            (Function.update goal s.created (child.eval value))).sum =
              (js.map fun j => j.work.cost value failures goal).sum :=
          congrArg List.sum (List.map_congr_left fun j hj => (hcongr j hj).2.2 failures)
        rw [State.potential, State.potential, sum_perm_cons hjobs, sum_perm_cons hjobs',
          List.map_cons, List.sum_cons, hsum]
        simp only [Work.cost, Body.cost, Function.update_self]
        omega

/-! ### What a step preserves -/

theorem job_top {f : Frame π V ε σ} {rest : Stack π V ε σ} {j : Job π V ε σ}
    (ht : s.stack = f :: rest) (hf : f.job s.coros = some j) : j ∈ s.jobs :=
  List.mem_filterMap.2 ⟨f, (holders_top ht).mem_iff.2 List.mem_cons_self, hf⟩

/-- A task is suspended for an awaitable that has just been polled. -/
theorem waiting_step (hs : Trans poll s s') {c : ℕ} {p : π} {next : Cont π V ε σ}
    (hc : s'.coros c = .waiting p next) :
    s.coros c = .waiting p next ∨ ∃ p₀ w w', poll p₀ w = (.notReady p, w') := by
  have hother : ∀ {coros : ℕ → Coro π V ε σ} {d x}, (∀ p next, x ≠ .waiting p next) →
      Function.update coros d x c = .waiting p next → coros c = .waiting p next := by
    intro coros d x hx h
    rcases eq_or_ne c d with rfl | hne
    · rw [Function.update_self] at h
      exact absurd h (hx p next)
    · rwa [Function.update_of_ne hne] at h
  have hpolled : ∀ {d p' next' w w' p₀}, poll p₀ w = (.notReady p', w') →
      Function.update s.coros d (.waiting p' next') c = .waiting p next →
        s.coros c = .waiting p next ∨ ∃ p₀ w w', poll p₀ w = (.notReady p, w') := by
    intro d p' next' w w' p₀ hp h
    rcases eq_or_ne c d with rfl | hne
    · rw [Function.update_self, Coro.waiting.injEq] at h
      exact .inr ⟨p₀, w, w', h.1 ▸ hp⟩
    · rw [Function.update_of_ne hne] at h
      exact .inl h
  cases hs with
  | enqueue | spin | leave | act | pollReady | pollThrew | recThrew | runBad | returned
  | awaitEmpty | terminated | recBad => exact .inl hc
  | runTask | runRec | leaveOwned | recReturn | resumed | recReady | await | finish =>
      exact .inl (hother (by simp) hc)
  | pollLater ht hp => exact hpolled hp (hother (by simp) hc)
  | recLater ht _ hp => exact hpolled hp (hother (by simp) hc)

/-- A task stays one until its parent destroys it. -/
theorem task_step (h : Placed s) (hs : Trans poll s s') {c : ℕ} (hc : (s.coros c).IsTask) :
    (s'.coros c).IsTask ∨ ∃ d next rest, s.stack = .awaitLoop d c next :: rest := by
  have hupdate : ∀ {coros : ℕ → Coro π V ε σ} {d x}, (coros c).IsTask →
      (c = d → x.IsTask) → (Function.update coros d x c).IsTask := by
    intro coros d x hcoros hx
    rcases eq_or_ne c d with rfl | hne
    · rw [Function.update_self]
      exact hx rfl
    · rwa [Function.update_of_ne hne]
  have hrec : ∀ {d}, (s.coros d).IsRec → c ≠ d := by
    rintro d hd rfl
    cases hx : s.coros c <;> simp_all [Coro.IsRec, Coro.IsTask]
  have hnew : c ≠ s.created := by
    rintro rfl
    simp [h.fresh _ (Nat.le_refl _), Coro.IsTask] at hc
  cases hs with
  | enqueue | spin | leave | act | pollReady | pollThrew | recThrew | runBad | returned
  | awaitEmpty | terminated | recBad => exact .inl hc
  | runTask | recReady | finish => exact .inl (hupdate hc fun _ => trivial)
  | runRec _ _ _ hr =>
      refine .inl (hupdate hc ?_)
      rintro rfl
      simp [hr, Coro.IsTask] at hc
  | leaveOwned ht => exact .inl (hupdate hc fun he => absurd he (hrec (h.ok_top ht rfl)))
  | recReturn ht => exact .inl (hupdate hc fun he => absurd he (hrec (h.ok_top ht)))
  | await => exact .inl (hupdate hc fun _ => trivial)
  | pollLater | recLater =>
      exact .inl (hupdate (hupdate hc fun _ => trivial) fun he => absurd he hnew)
  | @resumed rest d child next v ht _ =>
      rcases eq_or_ne c child with rfl | hne
      · exact .inr ⟨d, next, rest, ht⟩
      · exact .inl (hupdate hc fun he => absurd he hne)

/-- A task that finishes has the result of direct style. -/
theorem Tracks.finished_step (h : Tracks value ts goal s) (hs : Trans poll s s') {c : ℕ}
    {r : Except ε V} (hc : s'.coros c = .finished r) : c < s.created ∧ r = goal c := by
  rcases finish_or_not hs with ⟨c', b, r', rest, ht, hb, rfl⟩ | hnot
  · rcases eq_or_ne c c' with rfl | hne
    · have hrunning : s.coros c = .running := h.placed.ok_top ht
      have heval := h.jobs ⟨c, .run b⟩ (job_top ht rfl)
      simp only [State.setCoro_coros, Function.update_self, Coro.finished.injEq] at hc
      subst hc
      refine ⟨h.placed.lt_created (by simp [hrunning]), ?_⟩
      exact (Body.of_result value hb).1.symm.trans heval
    · have hold : s.coros c = .finished r := by
        simpa [Function.update_of_ne hne] using hc
      exact ⟨h.placed.lt_created (by simp [hold]), h.finished hold⟩
  · have hold := EventLoop.finished_step hs hnot hc
    exact ⟨h.placed.lt_created (by simp [hold]), h.finished hold⟩

theorem created_step (hs : Trans poll s s') : s.created ≤ s'.created := by
  cases hs <;> first | exact Nat.le_refl _ | exact Nat.le_succ _

theorem Tracks.goes (hpoll : Answers poll value) (h : Tracks value ts goal s)
    (hs : Trans poll s s') (hplaced : Placed s') (hstep : JobStep poll s s') :
    ∃ goal', Tracks value ts goal' s' ∧
      ((∀ j ∈ s'.jobs, j.work.ChildrenReturn value goal') ↔
        ∀ j ∈ s.jobs, j.work.ChildrenReturn value goal) ∧
      ∀ failures, FailuresDrop poll failures →
        s'.potential value failures goal' < s.potential value failures goal := by
  obtain ⟨goal', hold, hjobs, hchildren, hreturn, hpotential⟩ := hstep.preserves hpoll h
  refine ⟨goal', ⟨hplaced, hjobs, fun hc => ?_, fun hc => ?_, fun i hi => ?_,
    Nat.le_trans h.created (created_step hs), fun i hi => ?_, hchildren⟩, hreturn, hpotential⟩
  · obtain ⟨hlt, hr⟩ := h.finished_step hs hc
    rw [hr, hold _ hlt]
  · rcases waiting_step hs hc with hc | ⟨p₀, w, w', hp⟩
    · exact h.waiting hc
    · obtain ⟨hv, hok⟩ := hpoll.notReady hp
      rwa [hv]
  · rw [hold i (Nat.lt_of_lt_of_le hi h.created)]
    exact h.goals i hi
  · rcases task_step h.placed hs (h.roots i hi) with htask | ⟨d, next, rest, ht⟩
    · exact htask
    · -- a child that is waited for is no root
      have hle := h.children _ (job_top ht rfl) i next rfl
      omega

end

end JowiAsio.EventLoop

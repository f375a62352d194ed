import JowiAsio.EventLoop.DirectStyle

/-!
What `parallel_expected` returns.

When it returns, the results are those of direct style, and it returns if
and only if no awaited child ends with an exception: `await_resume` is
`noexcept`, so the exception of a child, which `value()` throws again
there, ends the process (`Sound`). A run whose loop has room for its
pushes comes to one of the two ends.
-/

namespace JowiAsio.EventLoop

open Lib

variable {π V ε σ : Type}

/-- A push that waits for room in the queue of its own thread. -/
def Spins (s : State π V ε σ) : Prop :=
  ∃ e rest, s.stack = .push e :: rest ∧ s.capacity - 1 ≤ s.queue.length

section

variable (value : π → Except ε V) (ts : List (Body π V ε σ))

/-- The results of the tasks are those of direct style. -/
def ResultsAgree (s : State π V ε σ) : Prop :=
  ∀ i (hi : i < ts.length), s.expectedValue i = some (ts[i].eval value)

/-- A state of a run of the tasks `ts`. Without tasks there are no results
either, so that case is apart. -/
inductive Sound (s : State π V ε σ) : Prop
  | noTasks (hts : ts = []) (hstack : s.stack = [.runForever]) (hq : s.queue = [])
      (hout : s.outcome = .running)
  | running {goal : ℕ → Except ε V} (htracks : Tracks value ts goal s)
      (hreturn : (∀ j ∈ s.jobs, j.work.ChildrenReturn value goal) ↔
        ∀ t ∈ ts, t.ChildrenReturn value)
      (hbottom : .runForever ∈ s.stack) (hout : s.outcome = .running)
  | returned (hstack : s.stack = []) (hout : s.outcome = .returned)
      (hresults : ResultsAgree value ts s) (hreturn : ∀ t ∈ ts, t.ChildrenReturn value)
  | terminated (hstack : s.stack = []) (hout : s.outcome = .terminated)
      (hreturn : ¬ ∀ t ∈ ts, t.ChildrenReturn value)

end

section

variable {poll : π → σ → Poll π V ε × σ} {value : π → Except ε V} {failures : π → ℕ}
  {s s' s₀ : State π V ε σ} {ts : List (Body π V ε σ)} {goal : ℕ → Except ε V}

/-! ### The first state -/

theorem foldlM_push {bound : ℕ} {l : List ℕ} {q q' : List Entry}
    (h : l.foldlM (fun q c => Fifo.push bound q ⟨c, false⟩) q = some q') :
    q' = q ++ l.map fun c => ⟨c, false⟩ := by
  induction l generalizing q with
  | nil => simpa using h.symm
  | cons c l ih =>
      rw [List.foldlM_cons, Option.bind_eq_bind, Option.bind_eq_some_iff] at h
      obtain ⟨q₁, hq₁, hrest⟩ := h
      by_cases hroom : q.length < bound
      · rw [Fifo.push_of_lt hroom, Option.some.injEq] at hq₁
        subst hq₁
        simpa using ih hrest
      · rw [Fifo.push_of_ge (Nat.le_of_not_lt hroom)] at hq₁
        cases hq₁

/-- At first each task is in the queue, and its job is to run. -/
theorem jobs_parallelExpected {capacity : ℕ} {w : σ}
    (h : parallelExpected capacity w ts = some s₀) :
    s₀.holders = (List.range ts.length).map (fun i => .push ⟨i, false⟩) ++ [.runForever] ∧
      s₀.jobs.map Job.task = List.range ts.length ∧
      ∀ j, j ∈ s₀.jobs ↔ ∃ i, ∃ hi : i < ts.length, j = ⟨i, .run ts[i]⟩ := by
  obtain ⟨q, hq, rfl⟩ := Option.map_eq_some_iff.1 h
  obtain rfl := foldlM_push hq
  have hjob : ∀ i, (Frame.push ⟨i, false⟩).job
      (fun c => (ts[c]?.map Coro.start).getD .absent) = ts[i]?.map fun b => ⟨i, .run b⟩ := by
    intro i
    cases hi : ts[i]? <;> simp [Frame.job, hi]
  have hjobs : ∀ {w : σ}, State.jobs ⟨fun c => (ts[c]?.map Coro.start).getD .absent, ts.length,
      [] ++ (List.range ts.length).map fun c => ⟨c, false⟩, capacity, [.runForever], w,
      .running⟩ = (List.range ts.length).filterMap fun i => ts[i]?.map fun b => ⟨i, .run b⟩ := by
    intro w
    simp only [State.jobs, State.holders, List.nil_append, List.map_map, List.filterMap_append,
      List.filterMap_map, Function.comp_def, hjob]
    exact List.append_nil _
  refine ⟨by simp [State.holders], ?_, fun j => ?_⟩
  · rw [hjobs, List.map_filterMap]
    have hsome : ∀ i ∈ List.range ts.length,
        (ts[i]?.map fun b => (⟨i, .run b⟩ : Job π V ε σ)).map Job.task = some i := by
      intro i hi
      simp [List.getElem?_eq_getElem (List.mem_range.1 hi)]
    rw [List.filterMap_congr hsome, List.filterMap_some]
  · rw [hjobs, List.mem_filterMap]
    constructor
    · rintro ⟨i, hi, hj⟩
      rw [List.mem_range] at hi
      rw [List.getElem?_eq_getElem hi, Option.map_some, Option.some.injEq] at hj
      exact ⟨i, hi, hj.symm⟩
    · rintro ⟨i, hi, rfl⟩
      exact ⟨i, List.mem_range.2 hi, by simp [List.getElem?_eq_getElem hi]⟩

theorem placed_parallelExpected {capacity : ℕ} {w : σ}
    (h : parallelExpected capacity w ts = some s₀) : Placed s₀ := by
  obtain ⟨hholders, htasks, -⟩ := jobs_parallelExpected h
  obtain ⟨q, -, rfl⟩ := Option.map_eq_some_iff.1 h
  refine ⟨fun f hf => ?_, htasks ▸ List.nodup_range, fun c hc => ?_, fun c hc => ?_,
    List.pairwise_singleton _ _, List.pairwise_singleton _ _⟩
  · rw [hholders] at hf
    rcases List.mem_append.1 hf with hf | hf
    · obtain ⟨i, hi, rfl⟩ := List.mem_map.1 hf
      rw [List.mem_range] at hi
      exact .inl ⟨rfl, ts[i], by simp [List.getElem?_eq_getElem hi]⟩
    · rw [List.mem_singleton.1 hf]
      trivial
  · rw [htasks, List.mem_range]
    by_contra hge
    simp [List.getElem?_eq_none (Nat.le_of_not_lt hge), Coro.Unfinished] at hc
  · simp [List.getElem?_eq_none hc]

theorem tracks_parallelExpected [Nonempty (Except ε V)] (value : π → Except ε V) {capacity : ℕ}
    {w : σ} (h : parallelExpected capacity w ts = some s₀) : ∃ goal, Tracks value ts goal s₀ := by
  obtain ⟨-, -, hjobs⟩ := jobs_parallelExpected h
  have hplaced := placed_parallelExpected h
  obtain ⟨q, -, rfl⟩ := Option.map_eq_some_iff.1 h
  obtain ⟨x⟩ : Nonempty (Except ε V) := inferInstance
  have hcoro : ∀ c : ℕ, (ts[c]?.map Coro.start).getD .absent = .absent ∨
      ∃ b, (ts[c]?.map Coro.start).getD .absent = .start b := by
    intro c
    cases ts[c]? <;> simp
  refine ⟨fun i => (ts[i]?.map (Body.eval value)).getD x, hplaced, fun j hj => ?_,
    fun {c r} hc => ?_, fun {c p next} hc => ?_, fun i hi => ?_, Nat.le_refl _,
    fun i hi => ?_, fun j hj => ?_⟩
  · obtain ⟨i, hi, rfl⟩ := (hjobs j).1 hj
    simp [Work.rest, List.getElem?_eq_getElem hi]
  · rcases hcoro c with hc' | ⟨b, hc'⟩ <;> simp [hc'] at hc
  · rcases hcoro c with hc' | ⟨b, hc'⟩ <;> simp [hc'] at hc
  · simp [List.getElem?_eq_getElem hi]
  · simp [List.getElem?_eq_getElem hi, Coro.IsTask]
  · obtain ⟨i, hi, rfl⟩ := (hjobs j).1 hj
    simp

theorem sound_parallelExpected {capacity : ℕ} {w : σ}
    (h : parallelExpected capacity w ts = some s₀) : Sound value ts s₀ := by
  have hstart : s₀.stack = [.runForever] ∧ s₀.outcome = .running ∧
      s₀.queue = (List.range ts.length).map fun i => ⟨i, false⟩ := by
    obtain ⟨q, hq, rfl⟩ := Option.map_eq_some_iff.1 h
    exact ⟨rfl, rfl, foldlM_push hq⟩
  obtain ⟨hstack, hout, hqueue⟩ := hstart
  cases hts : ts with
  | nil => exact .noTasks rfl hstack (by simp [hqueue, hts]) hout
  | cons t ts' =>
      rw [← hts]
      have : Nonempty (Except ε V) := ⟨t.eval value⟩
      obtain ⟨goal, htracks⟩ := tracks_parallelExpected value h
      obtain ⟨-, -, hjobs⟩ := jobs_parallelExpected h
      refine .running htracks ⟨fun hreturn t ht => ?_, fun hreturn j hj => ?_⟩
        (by simp [hstack]) hout
      · obtain ⟨i, hi, rfl⟩ := List.getElem_of_mem ht
        exact (hreturn _ ((hjobs _).2 ⟨i, hi, rfl⟩)).1
      · obtain ⟨i, hi, rfl⟩ := (hjobs j).1 hj
        exact ⟨hreturn _ (List.getElem_mem hi), by simp⟩

/-! ### One step -/

/-- `run_forever` is on the stack until the run ends. -/
theorem runForever_step (hs : Trans poll s s') (h : .runForever ∈ s.stack)
    (hout : s'.outcome = .running) : .runForever ∈ s'.stack := by
  cases hs with
  | enqueue ht | leaveOwned ht | leave ht | finish ht | recReturn ht =>
      simpa [ht] using h
  | spin => exact h
  | runTask | runRec => simpa using h
  | runBad | returned | awaitEmpty | terminated | recBad => cases hout
  | resumed ht | act ht | pollReady ht | pollThrew ht | pollLater ht | await ht | recReady ht
  | recThrew ht | recLater ht => simpa [ht, State.recWait] using h

theorem Tracks.fate (hpoll : Answers poll value) (h : Tracks value ts goal s)
    (hs : Trans poll s s') : Fate poll s s' := by
  refine h.placed.fate (fun r c rest p next e w ht hc hp => ?_) hs
  obtain ⟨v, hv⟩ := h.waiting hc
  rw [hpoll.threw hp] at hv
  cases hv

/-- When nothing is left to do, every task has finished. -/
theorem Tracks.results (h : Tracks value ts goal s) (hjobs : s.jobs = []) :
    ResultsAgree value ts s := by
  intro i hi
  have htask := h.roots i hi
  cases hc : s.coros i with
  | finished r => simp [State.expectedValue, hc, h.finished hc, h.goals i hi]
  | start | running | waiting =>
      have hmem := h.placed.all i (by simp [hc, Coro.Unfinished])
      simp [hjobs] at hmem
  | _ => simp [hc, Coro.IsTask] at htask

theorem Sound.step (hpoll : Answers poll value) (h : Sound value ts s) {a : Unit}
    (hstep : step poll s a = some s') : Sound value ts s' := by
  have hs := step_trans hstep
  have hended : s.stack = [] → False := by
    intro hnil
    simp [EventLoop.step, hnil] at hstep
  cases h with
  | noTasks hts hstack hq hout =>
      have hs' : s' = s.halt .returned := by
        simpa [EventLoop.step, hstack, State.enter, State.below, State.runOne, hq, State.halt]
          using hstep.symm
      subst hs' hts
      exact .returned rfl rfl (fun i hi => absurd hi (Nat.not_lt_zero i)) (by simp)
  | running htracks hreturn hbottom hout =>
      cases htracks.fate hpoll hs with
      | spins => exact .running htracks hreturn hbottom hout
      | returns ht hq =>
          have hjobs : s.jobs = [] := by simp [State.jobs, State.holders, ht, hq, Frame.job]
          refine .returned rfl rfl (fun i hi => htracks.results hjobs i hi) (hreturn.1 ?_)
          simp [hjobs]
      | terminates ht hchild =>
          refine .terminated rfl rfl fun hall => ?_
          obtain ⟨v, hv⟩ := (hreturn.2 hall _ (job_top ht rfl)).2 _ _ rfl
          rw [← htracks.finished hchild] at hv
          cases hv
      | goes hplaced hjob hout' =>
          obtain ⟨goal', htracks', hreturn', -⟩ := htracks.goes hpoll hs hplaced hjob
          have hrunning := hout'.trans hout
          exact .running htracks' (hreturn'.trans hreturn) (runForever_step hs hbottom hrunning)
            hrunning
  | returned hstack | terminated hstack => exact (hended hstack).elim

theorem Sound.run (hpoll : Answers poll value) (h : Sound value ts s) {as : List Unit}
    (hrun : run (EventLoop.step poll) s as = some s') : Sound value ts s' :=
  run_invariant (fun _ _ _ hs hstep => hs.step hpoll hstep) h hrun

/-! ### The results -/

/-- The loop of a `TaskAwaitable` that ends has a child that is complete.
When no awaited child ends with an exception, the value is there. -/
theorem Sound.child_complete (h : Sound value ts s) {c child : ℕ} {next : Cont π V ε σ}
    {rest : Stack π V ε σ} (ht : s.stack = .awaitLoop c child next :: rest)
    (hends : s.queue = [] ∨ (s.coros child).Complete) :
    (s.coros child).Complete ∧ ((∀ t ∈ ts, t.ChildrenReturn value) →
      ∃ v, s.coros child = .finished (.ok v)) := by
  cases h with
  | running htracks hreturn =>
      have hcomplete : (s.coros child).Complete := by
        rcases hends with hq | hcomplete
        · by_contra hnot
          exact htracks.placed.queue_ne_nil ht hnot hq
        · exact hcomplete
      refine ⟨hcomplete, fun hall => ?_⟩
      obtain ⟨r, hr⟩ := hcomplete
      obtain ⟨v, hv⟩ := (hreturn.2 hall _ (job_top ht rfl)).2 _ _ rfl
      exact ⟨v, by rw [hr, htracks.finished hr, hv]⟩
  | noTasks hts hstack => simp [hstack] at ht
  | returned hstack | terminated hstack => simp [hstack] at ht

/-! ### The end of a run -/

theorem step_ne_none (poll : π → σ → Poll π V ε × σ) (h : s.stack ≠ []) :
    ∃ s', EventLoop.step poll s () = some s' := by
  cases ht : s.stack with
  | nil => exact absurd ht h
  | cons f rest => cases f <;> exact ⟨_, by simp only [EventLoop.step, ht]; rfl⟩

/-- Each step leaves less to do, so a run whose pushes find room ends. -/
theorem Tracks.ends (hpoll : Settles poll value failures) {n : ℕ}
    (h : Tracks value ts goal s) (hbottom : .runForever ∈ s.stack) (hout : s.outcome = .running)
    (hn : s.potential value failures goal < n)
    (hroom : ∀ as, Visits (EventLoop.step poll) (fun s => ¬ Spins s) s as) :
    ∃ as s', Lib.run (EventLoop.step poll) s as = some s' ∧ s'.outcome ≠ .running := by
  induction n generalizing s goal with
  | zero => exact absurd hn (Nat.not_lt_zero _)
  | succ n ih =>
      obtain ⟨s', hstep⟩ := step_ne_none poll (List.ne_nil_of_mem hbottom)
      have hs := step_trans hstep
      have hrun : Lib.run (EventLoop.step poll) s [()] = some s' := by simp [hstep]
      cases h.fate hpoll.toAnswers hs with
      | spins ht hfull => exact absurd ⟨_, _, ht, hfull⟩ (hroom []).head
      | returns => exact ⟨[()], _, hrun, by simp⟩
      | terminates => exact ⟨[()], _, hrun, by simp⟩
      | goes hplaced hjob hout' =>
          obtain ⟨goal', h', -, hpotential⟩ := h.goes hpoll.toAnswers hs hplaced hjob
          have hless := hpotential failures hpoll.drop
          have hrunning := hout'.trans hout
          obtain ⟨as, t, hrest, hend⟩ := ih h' (runForever_step hs hbottom hrunning) hrunning
            (by omega) fun as => (hroom (() :: as)).2 s' hstep
          exact ⟨() :: as, t, by simp [hstep, hrest], hend⟩

theorem Sound.ends (hpoll : Settles poll value failures) (h : Sound value ts s)
    (hroom : ∀ as, Visits (EventLoop.step poll) (fun s => ¬ Spins s) s as) :
    ∃ as s', Lib.run (EventLoop.step poll) s as = some s' ∧ s'.outcome ≠ .running := by
  cases h with
  | noTasks hts hstack hq hout =>
      refine ⟨[()], s.halt .returned, ?_, by simp⟩
      simp [EventLoop.step, hstack, State.enter, State.below, State.runOne, hq, State.halt]
  | running htracks hreturn hbottom hout =>
      exact htracks.ends hpoll hbottom hout (Nat.lt_succ_self _) hroom
  | returned hstack hout | terminated hstack hout => exact ⟨[], s, rfl, by simp [hout]⟩

end

/-! ### Polls that settle, and polls that need not -/

/-- `countdown` is not ready as often as the first component says. -/
def countdown (V ε : Type) (p : ℕ × V) (w : Unit) : Poll (ℕ × V) V ε × Unit :=
  match p with
  | (0, v) => (.ready v, w)
  | (n + 1, v) => (.notReady (n, v), w)

theorem countdown_settles : Settles (countdown V ε) (fun p => .ok p.2) Prod.fst := by
  refine ⟨⟨fun {p w v w'} h => ?_, fun {p w e w'} h => ?_, fun {p w p' w'} h => ?_⟩,
    fun p w p' w' h => ?_⟩ <;>
    rcases p with ⟨_ | n, v⟩ <;> simp only [countdown, Prod.mk.injEq, reduceCtorEq, false_and,
      Poll.ready.injEq, Poll.notReady.injEq] at h
  · rw [h.1]
  · obtain ⟨rfl, -⟩ := h
    exact ⟨rfl, v, rfl⟩
  · obtain ⟨rfl, -⟩ := h
    exact Nat.lt_succ_self n

/-- Whether a semaphore has a permit again is up to the other tasks. -/
theorem semaAcquire_answers [Inhabited V] :
    Answers (semaAcquire V ε) (fun _ => .ok default) := by
  refine ⟨fun {i w v w'} h => ?_, fun {i w e w'} h => ?_, fun {i w i' w'} _ =>
    ⟨rfl, default, rfl⟩⟩ <;>
    cases hi : w i <;> simp only [semaAcquire, hi, Prod.mk.injEq, reduceCtorEq, false_and,
      Poll.ready.injEq] at h
  rw [h.1]

/-- `SleepPoller`, whose poll reads the clock. The world has the readings
that are to come. -/
def sleepPoll (V ε : Type) [Inhabited V] (endTp : ℕ) (now : ℕ → ℕ) : Poll ℕ V ε × (ℕ → ℕ) :=
  (if endTp ≤ now 0 then .ready default else .notReady endTp, fun i => now (i + 1))

theorem sleepPoll_answers [Inhabited V] : Answers (sleepPoll V ε) (fun _ => .ok default) := by
  refine ⟨fun {p w v w'} h => ?_, fun {p w e w'} h => ?_, fun {p w p' w'} _ =>
    ⟨rfl, default, rfl⟩⟩ <;>
    by_cases hp : p ≤ w 0 <;> simp only [sleepPoll, hp, if_true, if_false, Prod.mk.injEq,
      reduceCtorEq, false_and, Poll.ready.injEq] at h
  rw [h.1]

/-- `parallel_expected` on one thread. When the children that are awaited
return values, every `await_resume` of a `TaskAwaitable` finds its child
complete with a value, and what `parallel_expected` returns are the
results of direct style, however often the polls fail. -/
theorem results_of_direct_style {poll : π → σ → Poll π V ε × σ} {value : π → Except ε V}
    (hpoll : Answers poll value) {capacity : ℕ} {w : σ} {ts : List (Body π V ε σ)}
    {s₀ : State π V ε σ} (h₀ : parallelExpected capacity w ts = some s₀)
    (hreturn : ∀ t ∈ ts, t.ChildrenReturn value)
    {as : List Unit} {s : State π V ε σ} (hrun : run (step poll) s₀ as = some s) :
    (∀ c child next rest, s.stack = .awaitLoop c child next :: rest →
        s.queue = [] ∨ (s.coros child).Complete → ∃ v, s.coros child = .finished (.ok v)) ∧
      s.outcome ≠ .undefined ∧
      (s.outcome = .returned →
        ∀ i (hi : i < ts.length), s.expectedValue i = some (ts[i].eval value)) := by
  have hsound : Sound value ts s := (sound_parallelExpected h₀).run hpoll hrun
  refine ⟨fun c child next rest ht hends => (hsound.child_complete ht hends).2 hreturn, ?_, ?_⟩
  · cases hsound with
    | noTasks _ _ _ hout | running _ _ _ hout | returned _ hout | terminated _ hout => simp [hout]
  · intro hreturned
    cases hsound with
    | returned _ _ hresults => exact hresults
    | noTasks _ _ _ hout | running _ _ _ hout | terminated _ hout => simp [hout] at hreturned

/-- A task that polls twice in vain and one that awaits such a task. -/
def pollTwice : List (Body (ℕ × ℕ) ℕ String Unit) :=
  [.poll (2, 5) fun r => match r with | .ok v => .coReturn v | .error e => .throw e,
    .await (.poll (1, 6) fun r => match r with | .ok v => .coReturn v | .error e => .throw e)
      fun r => match r with | .ok v => .coReturn (v + 1) | .error e => .throw e]

/-- Two runs: with polls that settle, and with a semaphore that has no
permit until another task releases it. -/
theorem results_of_direct_style_pollTwice :
    (∃ s₀ s : State (ℕ × ℕ) ℕ String Unit, parallelExpected 8 () pollTwice = some s₀ ∧
      run (step (countdown ℕ String)) s₀ (List.replicate 30 ()) = some s ∧
      s.outcome = .returned ∧ ∀ i (hi : i < pollTwice.length),
        s.expectedValue i = some (pollTwice[i].eval fun p => .ok p.2)) ∧
    ∃ s₀ s : State ℕ Unit Unit (ℕ → ℕ),
      parallelExpected 8 (fun _ => 0) releaseAfterAwait.reverse = some s₀ ∧
      run (step (semaAcquire Unit Unit)) s₀ (List.replicate 26 ()) = some s ∧
      s.outcome = .returned ∧ ∀ i (hi : i < releaseAfterAwait.reverse.length),
        s.expectedValue i = some (releaseAfterAwait.reverse[i].eval fun _ => .ok ()) := by
  constructor
  · obtain ⟨s₀, s, h₀, hrun, hout⟩ : ∃ s₀ s : State (ℕ × ℕ) ℕ String Unit,
        parallelExpected 8 () pollTwice = some s₀ ∧
          run (step (countdown ℕ String)) s₀ (List.replicate 30 ()) = some s ∧
          s.outcome = .returned := ⟨_, _, rfl, rfl, rfl⟩
    obtain ⟨-, -, hresults⟩ := results_of_direct_style countdown_settles.toAnswers h₀
      (by simp [pollTwice, Body.ChildrenReturn, Body.eval]) hrun
    exact ⟨s₀, s, h₀, hrun, hout, hresults hout⟩
  · obtain ⟨s₀, s, h₀, hrun, hout⟩ : ∃ s₀ s : State ℕ Unit Unit (ℕ → ℕ),
        parallelExpected 8 (fun _ => 0) releaseAfterAwait.reverse = some s₀ ∧
          run (step (semaAcquire Unit Unit)) s₀ (List.replicate 26 ()) = some s ∧
          s.outcome = .returned := ⟨_, _, rfl, rfl, rfl⟩
    obtain ⟨-, -, hresults⟩ := results_of_direct_style semaAcquire_answers h₀
      (by simp [releaseAfterAwait, Body.ChildrenReturn, Body.eval]) hrun
    exact ⟨s₀, s, h₀, hrun, hout, hresults hout⟩

end JowiAsio.EventLoop

import JowiAsio.EventLoop.Results

/-!
Polls that throw.

The first poll of an await is made by the awaiting coroutine itself, so an
exception of it is raised there. The later ones are made by coroutines of
`__rec_wait`, whose promises capture the exception: nothing resumes the
awaiting coroutine after that, and no one polls for it any more. When the
later polls do not throw, every task that `parallel_expected` runs is
complete when it returns, with the exception of its poll if it does not
catch it.
-/

namespace JowiAsio.EventLoop

open Lib

variable {π V ε σ : Type}

/-! ### The property and its condition -/

/-- The poll that is made next is one for the coroutine `c`, which will
continue with `next`, and throws `e`. -/
def Throws (poll : π → σ → Poll π V ε × σ) (s : State π V ε σ) (c : ℕ) (next : Cont π V ε σ)
    (e : ε) : Prop :=
  (∃ p rest w, s.stack = .exec c (.poll p next) :: rest ∧ poll p s.world = (.threw e, w)) ∨
    ∃ r p rest w, s.stack = .recWait r c :: rest ∧ s.coros c = .waiting p next ∧
      poll p s.world = (.threw e, w)

/-- An exception of a poll is raised in the coroutine that awaits it. -/
def RaisesAtAwait (poll : π → σ → Poll π V ε × σ) (s : State π V ε σ) (_ : Unit)
    (s' : State π V ε σ) : Prop :=
  ∀ c next e, Throws poll s c next e → ∃ rest, s'.stack = .exec c (next (.error e)) :: rest

/-- The run raises every exception of a poll at its await. If it returns,
no coroutine is left suspended and each task is complete, with the
exception of its poll if it has not caught it. -/
def PollErrorsReported (poll : π → σ → Poll π V ε × σ) (n : ℕ) (s₀ : State π V ε σ)
    (as : List Unit) : Prop :=
  Along (step poll) (RaisesAtAwait poll) s₀ as ∧
    ∀ s, run (step poll) s₀ as = some s → s.outcome = .returned →
      (∀ c p next, s.coros c ≠ .waiting p next) ∧ (∀ i < n, ∃ r, s.expectedValue i = some r) ∧
        ∀ bs a cs t i next e, as = bs ++ a :: cs → run (step poll) s₀ bs = some t → i < n →
          Throws poll t i next e → next (.error e) = .throw e →
            s.expectedValue i = some (.error e)

section

variable {poll : π → σ → Poll π V ε × σ} {s s' : State π V ε σ} {n : ℕ}

/-! ### One step -/

/-- A step raises the exception of its poll unless a coroutine of
`__rec_wait` makes the poll. -/
theorem raisesAtAwait_iff {a : Unit} (hs : step poll s a = some s') :
    RaisesAtAwait poll s a s' ↔ ThrowsOnlyFirst poll s a s' := by
  constructor
  · intro h r c rest p next e w ht hc hp
    obtain ⟨rest', hstack⟩ := h c next e (.inr ⟨r, p, rest, w, ht, hc, hp⟩)
    have hp' : poll p (s.below rest).world = (.threw e, w) := hp
    simp only [step, ht, recWaitStep, State.below_coros, hc, hp', Option.some.injEq] at hs
    subst hs
    cases hstack
  · rintro h c next e (⟨p, rest, w, ht, hp⟩ | ⟨r, p, rest, w, ht, hc, hp⟩)
    · have hp' : poll p (s.below rest).world = (.threw e, w) := hp
      simp only [step, ht, execStep, hp', Option.some.injEq] at hs
      subst hs
      exact ⟨rest, rfl⟩
    · exact absurd hp (h r c rest p next e w ht hc)

/-- A task stays complete until its parent destroys it. -/
theorem finished_keeps (h : Placed s) (hs : Trans poll s s') {c : ℕ} {r : Except ε V}
    (hc : s.coros c = .finished r) :
    s'.coros c = .finished r ∨ ∃ d next rest, s.stack = .awaitLoop d c next :: rest := by
  have hupdate : ∀ {coros : ℕ → Coro π V ε σ} {d x}, coros c = .finished r → c ≠ d →
      Function.update coros d x c = .finished r := by
    intro coros d x hcoros hne
    rw [Function.update_of_ne hne, hcoros]
  have hother : ∀ {d} {x : Coro π V ε σ}, s.coros d = x → (∀ r, x ≠ .finished r) → c ≠ d := by
    rintro d x hd hx rfl
    exact hx r (hd ▸ hc)
  have hnew : c ≠ s.created := hother (h.fresh _ (Nat.le_refl _)) (by simp)
  have hrec : ∀ {d}, (s.coros d).IsRec → c ≠ d := by
    rintro d hd rfl
    simp [hc, Coro.IsRec] at hd
  cases hs with
  | enqueue | spin | leave | act | pollReady | pollThrew | recThrew | runBad | returned
  | awaitEmpty | terminated | recBad => exact .inl hc
  | runTask _ _ _ hold | runRec _ _ _ hold | recReady _ hold =>
      exact .inl (hupdate hc (hother hold (by simp)))
  | finish ht => exact .inl (hupdate hc (hother (h.ok_top ht) (by simp)))
  | leaveOwned ht => exact .inl (hupdate hc (hrec (h.ok_top ht rfl)))
  | recReturn ht => exact .inl (hupdate hc (hrec (h.ok_top ht)))
  | await => exact .inl (hupdate hc hnew)
  | pollLater ht =>
      exact .inl (hupdate (hupdate hc (hother (h.ok_top ht) (by simp))) hnew)
  | recLater _ hold => exact .inl (hupdate (hupdate hc (hother hold (by simp))) hnew)
  | @resumed rest d child next v ht _ =>
      rcases eq_or_ne c child with rfl | hne
      · exact .inr ⟨d, next, rest, ht⟩
      · exact .inl (hupdate hc hne)

/-- The loops of a step are old, or wait for a child that is created in it. -/
theorem awaitLoop_step (hs : Trans poll s s') {c child : ℕ} {next : Cont π V ε σ}
    (h : .awaitLoop c child next ∈ s'.stack) :
    .awaitLoop c child next ∈ s.stack ∨ s.created ≤ child := by
  cases hs with
  | runBad | returned | awaitEmpty | terminated | recBad => simp at h
  | spin => exact .inl h
  | enqueue ht | leave ht | leaveOwned ht | finish ht | recReturn ht =>
      exact .inl (ht ▸ List.mem_cons_of_mem _ h)
  | runTask | runRec => exact .inl (by simpa using h)
  | act ht | pollReady ht | pollThrew ht | pollLater ht | recThrew ht | recReady ht | recLater ht
  | resumed ht => exact .inl (by simp_all [State.recWait])
  | await ht =>
      simp only [State.pushNew_stack, State.enter_stack, State.below_stack, List.mem_cons,
        reduceCtorEq, false_or, Frame.awaitLoop.injEq] at h
      rcases h with ⟨-, rfl, -⟩ | h
      · exact .inr (Nat.le_refl _)
      · exact .inl (ht ▸ List.mem_cons_of_mem _ h)

/-! ### Whole runs -/

/-- The first `n` coroutines are those of the tasks that
`parallel_expected` runs. No one awaits them, and when the run returns
nothing is left to do. -/
structure Rooted (n : ℕ) (s : State π V ε σ) : Prop where
  placed : s.outcome = .running → Placed s
  ended : s.outcome ≠ .running → s.stack = []
  created : n ≤ s.created
  roots : ∀ i < n, (s.coros i).IsTask
  children : ∀ c child next, .awaitLoop c child next ∈ s.stack → n ≤ child
  done : s.outcome = .returned → ∀ c, ¬ (s.coros c).Unfinished

theorem Rooted.step (h : Rooted n s) {a : Unit} (hs : step poll s a = some s')
    (hfirst : ThrowsOnlyFirst poll s a s') : Rooted n s' := by
  have hrun : s.outcome = .running := by
    by_contra hnot
    simp [EventLoop.step, h.ended hnot] at hs
  have hplaced := h.placed hrun
  have htrans := step_trans hs
  have hroots : ∀ i < n, (s'.coros i).IsTask := by
    intro i hi
    rcases task_step hplaced htrans (h.roots i hi) with htask | ⟨d, next, rest, ht⟩
    · exact htask
    · have := h.children d i next (by simp [ht])
      omega
  have hchildren : ∀ c child next, .awaitLoop c child next ∈ s'.stack → n ≤ child := by
    intro c child next hmem
    rcases awaitLoop_step htrans hmem with hold | hnew
    · exact h.children c child next hold
    · exact Nat.le_trans h.created hnew
  have hcreated := Nat.le_trans h.created (created_step htrans)
  cases hplaced.fate hfirst htrans with
  | spins => exact h
  | returns ht hq =>
      refine ⟨by simp, fun _ => rfl, hcreated, hroots, hchildren, fun _ c hc => ?_⟩
      have hmem := hplaced.all c hc
      simp [State.jobs, State.holders, ht, hq, Frame.job] at hmem
  | terminates => exact ⟨by simp, fun _ => rfl, hcreated, hroots, hchildren, by simp⟩
  | goes hplaced' _ hout =>
      have hrun' := hout.trans hrun
      exact ⟨fun _ => hplaced', fun hnot => absurd hrun' hnot, hcreated, hroots, hchildren,
        by simp [hrun']⟩

theorem rooted_parallelExpected {capacity : ℕ} {w : σ} {ts : List (Body π V ε σ)}
    (h : parallelExpected capacity w ts = some s) : Rooted ts.length s := by
  have hplaced := placed_parallelExpected h
  obtain ⟨q, -, rfl⟩ := Option.map_eq_some_iff.1 h
  refine ⟨fun _ => hplaced, by simp, Nat.le_refl _, fun i hi => ?_, by simp, by simp⟩
  simp [List.getElem?_eq_getElem hi, Coro.IsTask]

/-- The task `i` throws `e`, or has ended with it. -/
def EndsWith (i : ℕ) (e : ε) (s : State π V ε σ) : Prop :=
  (∃ rest, s.stack = .exec i (.throw e) :: rest) ∨ s.coros i = .finished (.error e)

theorem Rooted.endsWith_step (h : Rooted n s) {a : Unit}
    (hs : EventLoop.step poll s a = some s') {i : ℕ} {e : ε} (hi : i < n)
    (hends : EndsWith i e s) : EndsWith i e s' := by
  refine .inr ?_
  rcases hends with ⟨rest, ht⟩ | hfinished
  · simp only [EventLoop.step, ht, execStep, Option.some.injEq] at hs
    subst hs
    simp
  · have hrun : s.outcome = .running := by
      by_contra hnot
      simp [EventLoop.step, h.ended hnot] at hs
    have hcases := finished_keeps (h.placed hrun) (step_trans hs) hfinished
    rcases hcases with hkeeps | ⟨d, next, rest, ht⟩
    · exact hkeeps
    · have := h.children d i next (by simp [ht])
      omega

/-- What has been thrown and not caught is what the task ends with. -/
theorem Rooted.reports {s₀ : State π V ε σ} (h : Rooted n s₀) {as : List Unit}
    (hfirst : Along (EventLoop.step poll) (ThrowsOnlyFirst poll) s₀ as)
    (hrun : run (EventLoop.step poll) s₀ as = some s) (hreturned : s.outcome = .returned)
    {bs cs : List Unit} {a : Unit} {t : State π V ε σ} {i : ℕ} {next : Cont π V ε σ} {e : ε}
    (has : as = bs ++ a :: cs) (ht : run (EventLoop.step poll) s₀ bs = some t) (hi : i < n)
    (hthrows : Throws poll t i next e) (hnext : next (.error e) = .throw e) :
    s.expectedValue i = some (.error e) := by
  subst has
  rw [run_append, ht, Option.bind_some, run_cons, Option.bind_eq_some_iff] at hrun
  obtain ⟨u, hu, hrest⟩ := hrun
  have hkeeps : ∀ s a t, Rooted n s → EventLoop.step poll s a = some t →
      ThrowsOnlyFirst poll s a t → Rooted n t := fun _ _ _ h => h.step
  have htail := hfirst.rest ht u hu
  have hrooted_t := run_invariant_of_along hkeeps hfirst.first h ht
  have hends : EndsWith i e u := by
    obtain ⟨rest, hstack⟩ := (raisesAtAwait_iff hu).2 htail.1 i next e hthrows
    exact .inl ⟨rest, by rw [hstack, hnext]⟩
  obtain ⟨hrooted, hlast⟩ := run_invariant_of_along (I := fun s => Rooted n s ∧ EndsWith i e s)
    (fun s a t hs hstep hc => ⟨hs.1.step hstep hc, hs.1.endsWith_step hstep hi hs.2⟩) htail.2
    ⟨hrooted_t.step hu htail.1, hends⟩ hrest
  rcases hlast with ⟨rest, hstack⟩ | hfinished
  · simp [hrooted.ended (by simp [hreturned])] at hstack
  · simp [State.expectedValue, hfinished]

theorem Rooted.done_of_run {s₀ : State π V ε σ} (h : Rooted n s₀) {as : List Unit}
    (hfirst : Along (EventLoop.step poll) (ThrowsOnlyFirst poll) s₀ as)
    (hrun : run (EventLoop.step poll) s₀ as = some s) (hreturned : s.outcome = .returned) :
    (∀ c p next, s.coros c ≠ .waiting p next) ∧ ∀ i < n, ∃ r, s.expectedValue i = some r := by
  have hrooted : Rooted n s := run_invariant_of_along (fun _ _ _ h => h.step) hfirst h hrun
  refine ⟨fun c p next hc => ?_, fun i hi => ?_⟩
  · exact hrooted.done hreturned c (by simp [hc, Coro.Unfinished])
  · have htask := hrooted.roots i hi
    have hdone := hrooted.done hreturned i
    cases hc : s.coros i with
    | finished r => exact ⟨r, by simp [State.expectedValue, hc]⟩
    | _ => simp [hc, Coro.IsTask, Coro.Unfinished] at htask hdone

end

/-- Every exception of a poll is raised in the coroutine that awaits the
awaitable, and reported by its task, if and only if none is thrown by a
later poll than the first one of the await. -/
theorem pollErrorsReported_iff {poll : π → σ → Poll π V ε × σ} {capacity : ℕ} {w : σ}
    {ts : List (Body π V ε σ)} {s₀ : State π V ε σ} (h₀ : parallelExpected capacity w ts = some s₀)
    (as : List Unit) :
    PollErrorsReported poll ts.length s₀ as ↔
      Along (step poll) (ThrowsOnlyFirst poll) s₀ as := by
  have hraises : Along (step poll) (RaisesAtAwait poll) s₀ as ↔
      Along (step poll) (ThrowsOnlyFirst poll) s₀ as := by
    refine along_congr (I := fun _ => True) (fun _ _ _ _ _ => trivial) ?_ trivial as
    exact fun s a t _ hs => raisesAtAwait_iff hs
  refine ⟨fun h => hraises.1 h.1, fun hfirst => ⟨hraises.2 hfirst, fun s hrun hreturned => ?_⟩⟩
  have hrooted := rooted_parallelExpected h₀
  obtain ⟨hwaits, hcomplete⟩ := hrooted.done_of_run hfirst hrun hreturned
  exact ⟨hwaits, hcomplete, fun bs a cs t i next e has ht hi hthrows hnext =>
    hrooted.reports hfirst hrun hreturned has ht hi hthrows hnext⟩

/-- `failing` is not ready as often as the awaitable says, and then it
throws. -/
def failing (n : ℕ) (w : Unit) : Poll ℕ ℕ String × Unit :=
  match n with
  | 0 => (.threw "lost", w)
  | n + 1 => (.notReady n, w)

/-- A task that awaits an awaitable and reports what its poll throws. -/
def awaitsPoll (n : ℕ) : Body ℕ ℕ String Unit :=
  .poll n fun r => match r with | .ok v => .coReturn v | .error e => .throw e

/-- The first poll throws, and the task reports it. -/
theorem pollErrorsReported_iff_awaitsPoll : ∃ s₀ s : State ℕ ℕ String Unit,
    parallelExpected 8 () [awaitsPoll 0] = some s₀ ∧
      run (step failing) s₀ (List.replicate 5 ()) = some s ∧ s.outcome = .returned ∧
      s.expectedValue 0 = some (.error "lost") ∧
      PollErrorsReported failing 1 s₀ (List.replicate 5 ()) := by
  obtain ⟨s₀, s, h₀, hrun, hout, herror⟩ : ∃ s₀ s : State ℕ ℕ String Unit,
      parallelExpected 8 () [awaitsPoll 0] = some s₀ ∧
        run (step failing) s₀ (List.replicate 5 ()) = some s ∧ s.outcome = .returned ∧
        s.expectedValue 0 = some (.error "lost") := ⟨_, _, rfl, rfl, rfl, rfl⟩
  refine ⟨s₀, s, h₀, hrun, hout, herror, (pollErrorsReported_iff h₀ _).2 ?_⟩
  obtain rfl := Option.some.inj h₀
  -- no coroutine of `__rec_wait` is created
  refine (along_cons rfl).2 ⟨fun _ _ _ _ _ _ _ ht => (by cases ht), ?_⟩
  refine (along_cons rfl).2 ⟨fun _ _ _ _ _ _ _ ht => (by cases ht), ?_⟩
  refine (along_cons rfl).2 ⟨fun _ _ _ _ _ _ _ ht => (by cases ht), ?_⟩
  refine (along_cons rfl).2 ⟨fun _ _ _ _ _ _ _ ht => (by cases ht), ?_⟩
  exact (along_cons rfl).2 ⟨fun _ _ _ _ _ _ _ ht => (by cases ht), trivial⟩

/-- The second poll throws, and the task is never complete. -/
theorem second_poll_error_lost : ∃ s₀ s : State ℕ ℕ String Unit,
    parallelExpected 8 () [awaitsPoll 1] = some s₀ ∧
      run (step failing) s₀ (List.replicate 9 ()) = some s ∧ s.outcome = .returned ∧
      s.expectedValue 0 = none ∧ ¬ PollErrorsReported failing 1 s₀ (List.replicate 9 ()) := by
  obtain ⟨s₀, s, h₀, hrun, hout, hnone⟩ : ∃ s₀ s : State ℕ ℕ String Unit,
      parallelExpected 8 () [awaitsPoll 1] = some s₀ ∧
        run (step failing) s₀ (List.replicate 9 ()) = some s ∧ s.outcome = .returned ∧
        s.expectedValue 0 = none := ⟨_, _, rfl, rfl, rfl, rfl⟩
  refine ⟨s₀, s, h₀, hrun, hout, hnone, fun h => ?_⟩
  obtain ⟨r, hr⟩ := (h.2 s hrun hout).2.1 0 Nat.one_pos
  rw [hnone] at hr
  cases hr

end JowiAsio.EventLoop

import JowiAsio.EventLoop.Results
import JowiAsio.Lib.Counting

/-!
Room for every push, and the end of `run_forever`.

A task that waits for its child has no entry in the queue: the child has,
or its child. So the queue and the frames that are about to push never
hold more than one entry for each task that `parallel_expected` was given
(`State.active` counts them, with the tasks that will take over from a
child that is done). If the loop has room for these tasks at the start, it
has room for every push of the run, whatever children the tasks await, and
if the polls settle the run comes to an end. It returns if and only if no
awaited child ends with an exception, so that is when exceptions propagate.
-/

namespace JowiAsio.EventLoop

open Lib

variable {π V ε σ : Type}

/-! ### Active jobs -/

/-- The child that a task waits for. -/
def Job.child (j : Job π V ε σ) : Option ℕ :=
  match j.work with
  | .join child _ => some child
  | .run _ | .poll _ _ => none

/-- A job that waits for none of the tasks `l`. -/
def Job.active (l : List ℕ) (j : Job π V ε σ) : Bool := j.child.all fun child => child ∉ l

/-- How many jobs do not wait for a task that still has a job of its own. -/
def active (js : List (Job π V ε σ)) : ℕ := js.countP (Job.active (js.map Job.task))

def State.active (s : State π V ε σ) : ℕ := EventLoop.active s.jobs

section

variable {js js' : List (Job π V ε σ)} {j : Job π V ε σ} {l l' : List ℕ}

theorem active_mono (h : ∀ c ∈ l, c ∈ l') (hj : j.active l' = true) : j.active l = true := by
  unfold Job.active at hj ⊢
  cases hc : j.child with
  | none => rfl
  | some child =>
      simp only [hc, Option.all_some, decide_eq_true_eq] at hj ⊢
      exact fun hmem => hj (h child hmem)

theorem active_perm (h : js.Perm js') : active js = active js' := by
  rw [active, h.countP_eq]
  refine List.countP_congr fun j _ => ?_
  have hmem := fun c => (h.map Job.task).mem_iff (a := c)
  exact ⟨active_mono fun c hc => (hmem c).2 hc, active_mono fun c hc => (hmem c).1 hc⟩

theorem active_cons (hj : j.child = none) :
    active (j :: js) = js.countP (Job.active (j.task :: js.map Job.task)) + 1 := by
  rw [active, List.map_cons, List.countP_cons_of_pos]
  simp [Job.active, hj]

/-- When a task finishes, at most one other takes over from it. -/
theorem countP_active_cons (c : ℕ) (hnodup : (js.filterMap Job.child).Nodup) :
    js.countP (Job.active l) ≤ js.countP (Job.active (c :: l)) + 1 := by
  have hparents : js.countP (fun j => j.child == some c) ≤ 1 := by
    rw [← List.count_filterMap]
    exact List.nodup_iff_count_le_one.1 hnodup c
  refine (countP_le_add js fun j hj => ?_).trans (Nat.add_le_add_left hparents _)
  unfold Job.active at hj ⊢
  cases hc : j.child with
  | none => exact .inl rfl
  | some child =>
      simp only [hc, Option.all_some, decide_eq_true_eq, List.mem_cons, beq_iff_eq,
        Option.some.injEq] at hj ⊢
      rcases eq_or_ne child c with rfl | hne
      · exact .inr rfl
      · exact .inl fun hmem => hmem.elim hne hj

end

/-! ### What the steps do to the active jobs -/

section

variable {poll : π → σ → Poll π V ε × σ} {s s' : State π V ε σ}

theorem job_child_eq_none {f : Frame π V ε σ} {j : Job π V ε σ} {coros : ℕ → Coro π V ε σ}
    (hf : ¬ f.IsAwaitLoop) (hj : f.job coros = some j) : j.child = none := by
  have hpoll : ∀ {x}, pollJob coros x = some j → j.child = none := by
    intro x hx
    cases hc : coros x <;> simp only [pollJob, hc, reduceCtorEq, Option.some.injEq] at hx
    subst hx
    rfl
  cases f with
  | push e =>
      simp only [Frame.job] at hj
      cases hc : coros e.coro <;> simp only [hc, reduceCtorEq, Option.some.injEq] at hj
      · subst hj
        rfl
      · exact hpoll hj
  | exec c b =>
      simp only [Frame.job, Option.some.injEq] at hj
      subst hj
      rfl
  | recWait r h => exact hpoll hj
  | awaitLoop => exact absurd trivial hf
  | _ => exact absurd hj (by simp [Frame.job])

/-- No two tasks wait for the same child. -/
theorem Placed.children_nodup (h : Placed s) : (s.jobs.filterMap Job.child).Nodup := by
  have hqueue : (s.queue.map Frame.push).filterMap
      (fun f => (f.job s.coros).bind Job.child) = [] := by
    rw [List.filterMap_eq_nil_iff]
    intro f hf
    obtain ⟨e, -, rfl⟩ := List.mem_map.1 hf
    cases hj : Frame.job s.coros (.push e) with
    | none => rfl
    | some j => exact job_child_eq_none id hj
  rw [State.jobs, List.filterMap_filterMap, State.holders, List.filterMap_append, hqueue,
    List.nil_append]
  refine List.Pairwise.filterMap _ (fun f g hfg => ?_) h.apart
  intro c hc d hd
  cases f with
  | awaitLoop x child next =>
      cases g with
      | awaitLoop y child' next' =>
          cases hc
          cases hd
          exact (hfg _ _ _ _ _ _ rfl rfl).2.symm
      | _ =>
          obtain ⟨j, hj, hd⟩ := Option.bind_eq_some_iff.1 hd
          rw [job_child_eq_none id hj] at hd
          cases hd
  | _ =>
      obtain ⟨j, hj, hc⟩ := Option.bind_eq_some_iff.1 hc
      rw [job_child_eq_none id hj] at hc
      cases hc

theorem JobStep.active_le (h : Placed s) (hs : JobStep poll s s') : s'.active ≤ s.active := by
  rw [State.active, State.active]
  cases hs with
  | move hjobs => exact (active_perm hjobs).le
  | @work c k w w' js hw hjobs hjobs' =>
      have hchild : ∀ {v : Work π V ε σ}, v = w ∨ v = w' → (Job.mk c v).child = none := by
        rintro v (rfl | rfl) <;> cases hw <;> rfl
      rw [active_perm hjobs, active_perm hjobs', active_cons (hchild (.inl rfl)),
        active_cons (hchild (.inr rfl))]
  | @spawn c child next js hjobs hjobs' =>
      rw [active_perm hjobs, active_perm hjobs', active_cons rfl, active_cons rfl,
        List.countP_cons_of_neg (by simp [Job.active, Job.child])]
      refine Nat.add_le_add_right (List.countP_mono_left fun j _ => active_mono fun d hd => ?_) 1
      simp only [List.map_cons, List.mem_cons] at hd ⊢
      exact hd.elim (.inr ∘ .inl) (.inr ∘ .inr)
  | @finish c b r js hb hjobs hjobs' =>
      have hnodup := (hjobs.filterMap Job.child).nodup_iff.1 h.children_nodup
      rw [active_perm hjobs, active_perm hjobs', active_cons rfl]
      exact countP_active_cons c hnodup
  | @join c child next v js hchild hjobs hjobs' =>
      -- the child is done, so it has no job
      have hdone : child ∉ (⟨c, .join child next⟩ :: js : List (Job π V ε σ)).map Job.task := by
        rw [← (hjobs.map Job.task).mem_iff]
        intro hmem
        obtain ⟨j, hj, rfl⟩ := List.mem_map.1 hmem
        obtain ⟨f, hf, hfj⟩ := List.mem_filterMap.1 hj
        have hbusy := (h.ok f hf).unfinished hfj
        simp [hchild, Coro.Unfinished] at hbusy
      rw [active_perm hjobs, active_perm hjobs', active_cons rfl, active,
        List.countP_cons_of_pos (by simpa [Job.active, Job.child] using hdone)]
      exact Nat.le_refl _

/-- Each entry of the queue, and each frame that is about to push one, has
an active job. -/
theorem Placed.queue_length_lt (h : Placed s) {e : Entry} {rest : Stack π V ε σ}
    (ht : s.stack = .push e :: rest) : s.queue.length < s.active := by
  have hjob : ∀ e, (Frame.push e).Ok s.coros → ∃ j, Frame.job s.coros (.push e) = some j ∧
      j.child = none := by
    rintro e (⟨-, b, hb⟩ | ⟨-, x, p, next, hx, hw⟩)
    · exact ⟨⟨e.coro, .run b⟩, by simp only [Frame.job, hb], rfl⟩
    · exact ⟨⟨x, .poll p next⟩, by simp only [Frame.job, hx, pollJob, hw], rfl⟩
  have hcount : ∀ (q : List Entry) (l : List ℕ), (∀ e ∈ q, (Frame.push e).Ok s.coros) →
      ((q.map .push).filterMap (Frame.job s.coros)).countP (Job.active l) = q.length := by
    intro q l hq
    induction q with
    | nil => rfl
    | cons e q ih =>
        obtain ⟨j, hj, hchild⟩ := hjob e (hq e List.mem_cons_self)
        rw [List.map_cons, List.filterMap_cons_some hj,
          List.countP_cons_of_pos (by simp [Job.active, hchild]),
          ih fun e he => hq e (List.mem_cons_of_mem _ he), List.length_cons]
  obtain ⟨j, hj, hchild⟩ := hjob e (h.ok_top ht)
  rw [State.active, active]
  generalize s.jobs.map Job.task = l
  rw [State.jobs, State.holders, ht, List.filterMap_append, List.countP_append,
    hcount s.queue l fun e he => h.ok _ (List.mem_append_left _ (List.mem_map_of_mem he)),
    List.filterMap_cons_some hj, List.countP_cons_of_pos (by simp [Job.active, hchild])]
  omega

end

/-! ### Whole runs -/

section

variable {poll : π → σ → Poll π V ε × σ} {value : π → Except ε V} {failures : π → ℕ}
  {s s' s₀ : State π V ε σ} {ts : List (Body π V ε σ)}

theorem capacity_step (hs : Trans poll s s') : s'.capacity = s.capacity := by
  cases hs <;> rfl

/-- A state of a run of the tasks `ts` on a loop with room for them. -/
structure HasRoom (value : π → Except ε V) (ts : List (Body π V ε σ)) (s : State π V ε σ) :
    Prop where
  sound : Sound value ts s
  active : s.outcome = .running → s.active ≤ ts.length
  room : ts.length ≤ s.capacity - 1

theorem HasRoom.not_spins (h : HasRoom value ts s) : ¬ Spins s := by
  rintro ⟨e, rest, ht, hfull⟩
  have hroom := h.room
  cases h.sound with
  | noTasks hts hstack => simp [hstack] at ht
  | running htracks _ _ hout =>
      have hlt := htracks.placed.queue_length_lt ht
      have hactive := h.active hout
      omega
  | returned hstack | terminated hstack => simp [hstack] at ht

theorem HasRoom.step (hpoll : Answers poll value) (h : HasRoom value ts s) {a : Unit}
    (hstep : step poll s a = some s') : HasRoom value ts s' := by
  have hs := step_trans hstep
  refine ⟨h.sound.step hpoll hstep, fun hout => ?_, capacity_step hs ▸ h.room⟩
  cases h.sound with
  | noTasks _ hstack hq =>
      have hs' : s' = s.halt .returned := by
        simpa [EventLoop.step, hstack, State.enter, State.below, State.runOne, hq, State.halt]
          using hstep.symm
      simp [hs'] at hout
  | running htracks _ _ hrunning =>
      cases htracks.fate hpoll hs with
      | spins => exact h.active hrunning
      | returns | terminates => simp at hout
      | goes _ hjob => exact (hjob.active_le htracks.placed).trans (h.active hrunning)
  | returned hstack | terminated hstack => simp [EventLoop.step, hstack] at hstep

theorem hasRoom_parallelExpected {capacity : ℕ} {w : σ}
    (h : parallelExpected capacity w ts = some s₀) : HasRoom value ts s₀ := by
  obtain ⟨-, htasks, hjobs⟩ := jobs_parallelExpected h
  refine ⟨sound_parallelExpected h, fun _ => ?_, ?_⟩
  · have hlength : s₀.jobs.length = ts.length := by
      rw [← List.length_map (f := Job.task), htasks, List.length_range]
    exact hlength ▸ List.countP_le_length
  · obtain ⟨q, hq, rfl⟩ := Option.map_eq_some_iff.1 h
    have hlength := Fifo.length_of_pushes hq (Nat.zero_le _)
    rw [foldlM_push hq] at hlength
    simpa using hlength

theorem HasRoom.never_spins (hpoll : Answers poll value) (h : HasRoom value ts s)
    (as : List Unit) : Visits (EventLoop.step poll) (fun s => ¬ Spins s) s as :=
  visits_of_invariant (fun _ _ _ h hs => h.step hpoll hs) (fun _ h => h.not_spins) h as

theorem HasRoom.stack_eq_nil (h : HasRoom value ts s) (hout : s.outcome ≠ .running) :
    s.stack = [] := by
  cases h.sound with
  | noTasks _ _ _ hrunning | running _ _ _ hrunning => exact absurd hrunning hout
  | returned hstack | terminated hstack => exact hstack

theorem HasRoom.ended (h : HasRoom value ts s) (hstack : s.stack = []) :
    s.outcome = .returned ∧ (∀ t ∈ ts, t.ChildrenReturn value) ∧ ResultsAgree value ts s ∨
      s.outcome = .terminated ∧ ¬ ∀ t ∈ ts, t.ChildrenReturn value := by
  cases h.sound with
  | noTasks _ hstack' => simp [hstack'] at hstack
  | running _ _ hbottom => simp [hstack] at hbottom
  | returned _ hout hresults hreturn => exact .inl ⟨hout, hreturn, hresults⟩
  | terminated _ hout hreturn => exact .inr ⟨hout, hreturn⟩

theorem HasRoom.ends (hpoll : Settles poll value failures) (h : HasRoom value ts s) :
    ∃ as s', run (EventLoop.step poll) s as = some s' ∧
      ((s'.outcome = .returned ∧ (∀ t ∈ ts, t.ChildrenReturn value) ∧ ResultsAgree value ts s') ∨
        (s'.outcome = .terminated ∧ ¬ ∀ t ∈ ts, t.ChildrenReturn value)) := by
  obtain ⟨as, s', hrun, hend⟩ := h.sound.ends hpoll (h.never_spins hpoll.toAnswers)
  have h' : HasRoom value ts s' :=
    run_invariant (fun _ _ _ h hs => h.step hpoll.toAnswers hs) h hrun
  exact ⟨as, s', hrun, h'.ended (h'.stack_eq_nil hend)⟩

/-- A loop that has room for the tasks it is given has room for every
push, and `run_forever` comes to an end: it returns with the results of
direct style if no awaited child ends with an exception, and otherwise the
process is terminated. -/
theorem parallel_expected_completes (hpoll : Settles poll value failures) {capacity : ℕ} {w : σ}
    (h₀ : parallelExpected capacity w ts = some s₀) :
    (∀ as, Visits (step poll) (fun s => ¬ Spins s) s₀ as) ∧
      ∃ as s, run (step poll) s₀ as = some s ∧
        ((s.outcome = .returned ∧ (∀ t ∈ ts, t.ChildrenReturn value) ∧
            ∀ i (hi : i < ts.length), s.expectedValue i = some (ts[i].eval value)) ∨
          (s.outcome = .terminated ∧ ¬ ∀ t ∈ ts, t.ChildrenReturn value)) :=
  have hroom : HasRoom value ts s₀ := hasRoom_parallelExpected h₀
  ⟨hroom.never_spins hpoll.toAnswers, hroom.ends hpoll⟩

end

theorem parallel_expected_completes_pollTwice : ∃ s₀ : State (ℕ × ℕ) ℕ String Unit,
    parallelExpected 3 () pollTwice = some s₀ ∧
      (∀ as, Visits (step (countdown ℕ String)) (fun s => ¬ Spins s) s₀ as) ∧
      ∃ as s, run (step (countdown ℕ String)) s₀ as = some s ∧ s.outcome = .returned := by
  obtain ⟨s₀, h₀⟩ : ∃ s₀ : State (ℕ × ℕ) ℕ String Unit,
      parallelExpected 3 () pollTwice = some s₀ := ⟨_, rfl⟩
  obtain ⟨hspins, as, s, hrun, hend⟩ := parallel_expected_completes countdown_settles h₀
  refine ⟨s₀, h₀, hspins, as, s, hrun, ?_⟩
  rcases hend with ⟨hout, -⟩ | ⟨-, hnot⟩
  · exact hout
  · exact absurd (by simp [pollTwice, Body.ChildrenReturn, Body.eval]) hnot

/-! ### Exceptions -/

/-- The exception of a child is raised in the coroutine that awaits it, the
process is not terminated, and what `parallel_expected` returns are the
results of direct style. -/
def PropagatesExceptions (poll : π → σ → Poll π V ε × σ) (value : π → Except ε V)
    (ts : List (Body π V ε σ)) (s₀ : State π V ε σ) : Prop :=
  ∀ as s, run (step poll) s₀ as = some s →
    (∀ c child next e rest, s.stack = .awaitLoop c child next :: rest →
      s.coros child = .finished (.error e) →
        ∃ s', step poll s () = some s' ∧ s'.stack = .exec c (next (.error e)) :: rest) ∧
    s.outcome ≠ .terminated ∧ (s.outcome = .returned → ResultsAgree value ts s)

theorem Sound.propagates {poll : π → σ → Poll π V ε × σ} {value : π → Except ε V}
    {ts : List (Body π V ε σ)} {s₀ : State π V ε σ} (hpoll : Answers poll value)
    (h : Sound value ts s₀) (hreturn : ∀ t ∈ ts, t.ChildrenReturn value) :
    PropagatesExceptions poll value ts s₀ := by
  intro as s hrun
  have hs := h.run hpoll hrun
  refine ⟨fun c child next e rest ht hchild => ?_, ?_, ?_⟩
  · obtain ⟨v, hv⟩ := (hs.child_complete ht (.inr ⟨_, hchild⟩)).2 hreturn
    rw [hchild] at hv
    cases hv
  · cases hs with
    | terminated _ _ hnot => exact absurd hreturn hnot
    | noTasks _ _ _ hout | running _ _ _ hout | returned _ hout => simp [hout]
  · intro hreturned
    cases hs with
    | returned _ _ hresults => exact hresults
    | noTasks _ _ _ hout | running _ _ _ hout | terminated _ hout => simp [hout] at hreturned

/-- Exceptions propagate if and only if no awaited child ends with one. -/
theorem propagatesExceptions_iff {poll : π → σ → Poll π V ε × σ} {value : π → Except ε V}
    {failures : π → ℕ} (hpoll : Settles poll value failures) {capacity : ℕ} {w : σ}
    {ts : List (Body π V ε σ)} {s₀ : State π V ε σ}
    (h₀ : parallelExpected capacity w ts = some s₀) :
    PropagatesExceptions poll value ts s₀ ↔ ∀ t ∈ ts, t.ChildrenReturn value := by
  have hroom : HasRoom value ts s₀ := hasRoom_parallelExpected h₀
  refine ⟨fun hprop => ?_, hroom.sound.propagates hpoll.toAnswers⟩
  obtain ⟨as, s, hrun, ⟨-, hreturn, -⟩ | ⟨hterminated, -⟩⟩ := hroom.ends hpoll
  · exact hreturn
  · exact absurd hterminated (hprop as s hrun).2.1

/-- A task that awaits a child which returns, and one that throws. -/
def throwBesideAwait : List (Body (ℕ × ℕ) ℕ String Unit) :=
  [.await (.poll (1, 6) fun r => match r with | .ok v => .coReturn v | .error e => .throw e)
      fun r => match r with | .ok v => .coReturn (v + 1) | .error e => .throw e,
    .throw "lost"]

/-- The exception of a root task is one of the results. -/
theorem propagatesExceptions_root : ∃ s₀ s : State (ℕ × ℕ) ℕ String Unit,
    parallelExpected 8 () throwBesideAwait = some s₀ ∧
      PropagatesExceptions (countdown ℕ String) (fun p => .ok p.2) throwBesideAwait s₀ ∧
      run (step (countdown ℕ String)) s₀ (List.replicate 19 ()) = some s ∧
      s.expectedValue 0 = some (.ok 7) ∧ s.expectedValue 1 = some (.error "lost") := by
  obtain ⟨s₀, s, h₀, hrun, hout⟩ : ∃ s₀ s : State (ℕ × ℕ) ℕ String Unit,
      parallelExpected 8 () throwBesideAwait = some s₀ ∧
        run (step (countdown ℕ String)) s₀ (List.replicate 19 ()) = some s ∧
        s.outcome = .returned := ⟨_, _, rfl, rfl, rfl⟩
  have hprop := (propagatesExceptions_iff countdown_settles h₀).2
    (by simp [throwBesideAwait, Body.ChildrenReturn, Body.eval])
  have hresults := (hprop _ _ hrun).2.2 hout
  exact ⟨s₀, s, h₀, hprop, hrun, hresults 0 (by decide), hresults 1 (by decide)⟩

/-- A parent that catches the exception of its child. -/
def catches : Body (ℕ × ℕ) ℕ String Unit :=
  .await (.throw "lost") fun r => match r with | .ok v => .coReturn v | .error _ => .coReturn 0

theorem caught_exception_terminates :
    ¬ ∀ (ts : List (Body (ℕ × ℕ) ℕ String Unit)) (s₀ : State (ℕ × ℕ) ℕ String Unit),
      parallelExpected 8 () ts = some s₀ →
        PropagatesExceptions (countdown ℕ String) (fun p => .ok p.2) ts s₀ := by
  intro h
  obtain ⟨s₀, s, h₀, hrun, hout⟩ : ∃ s₀ s : State (ℕ × ℕ) ℕ String Unit,
      parallelExpected 8 () [catches] = some s₀ ∧
        run (step (countdown ℕ String)) s₀ (List.replicate 7 ()) = some s ∧
        s.outcome = .terminated := ⟨_, _, rfl, rfl, rfl⟩
  exact (h _ _ h₀ _ _ hrun).2.1 hout


end JowiAsio.EventLoop

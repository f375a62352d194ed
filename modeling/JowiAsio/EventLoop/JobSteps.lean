import JowiAsio.EventLoop.Jobs

/-!
What one step of the thread does to the list of jobs.

`JobStep` names the changes: no job changes, one task goes on with its
work, a child is spawned, a task finishes, a parent joins its child. The
steps that change no job bring the thread nearer to one that does, which
`State.overhead` counts. From a placed state a step either makes such a
change and leads to a placed state, or it is one of three ends (`Fate`):
the loop is full, `run_forever` returns, or an exception meets the
`noexcept` of `await_resume`. This is so as long as no poll throws inside
`__rec_wait`, which would leave its task without a job.
-/

namespace JowiAsio.EventLoop

open Lib

variable {π V ε σ : Type}

/-! ### The changes -/

/-- What the thread has to do before it works on a job again: entries to
take from the queue, frames to return from. -/
def Frame.overhead : Frame π V ε σ → ℕ
  | .push _ => 5
  | .recWait _ _ => 2
  | .runOne _ | .recReturn _ => 1
  | _ => 0

def State.overhead (s : State π V ε σ) : ℕ :=
  4 * s.queue.length + (s.stack.map Frame.overhead).sum

/-- A task works: it computes, or it polls. A poll that fails adds
overhead. -/
inductive Works (poll : π → σ → Poll π V ε × σ) : Work π V ε σ → Work π V ε σ → ℕ → Prop
  | act (f : σ → σ) (next : Body π V ε σ) : Works poll (.run (.act f next)) (.run next) 0
  | ready {p : π} {w w' : σ} {v : V} (next : Cont π V ε σ) (hp : poll p w = (.ready v, w')) :
      Works poll (.run (.poll p next)) (.run (next (.ok v))) 0
  | threw {p : π} {w w' : σ} {e : ε} (next : Cont π V ε σ) (hp : poll p w = (.threw e, w')) :
      Works poll (.run (.poll p next)) (.run (next (.error e))) 0
  | later {p p' : π} {w w' : σ} (next : Cont π V ε σ) (hp : poll p w = (.notReady p', w')) :
      Works poll (.run (.poll p next)) (.poll p' next) 5
  | recReady {p : π} {w w' : σ} {v : V} (next : Cont π V ε σ)
      (hp : poll p w = (.ready v, w')) : Works poll (.poll p next) (.run (next (.ok v))) 0
  | recLater {p p' : π} {w w' : σ} (next : Cont π V ε σ)
      (hp : poll p w = (.notReady p', w')) : Works poll (.poll p next) (.poll p' next) 4

inductive JobStep (poll : π → σ → Poll π V ε × σ) (s s' : State π V ε σ) : Prop
  | move (hjobs : s'.jobs.Perm s.jobs) (hover : s'.overhead < s.overhead)
  | work {c k : ℕ} {w w' : Work π V ε σ} {js : List (Job π V ε σ)} (hw : Works poll w w' k)
      (hjobs : s.jobs.Perm (⟨c, w⟩ :: js)) (hjobs' : s'.jobs.Perm (⟨c, w'⟩ :: js))
      (hover : s'.overhead ≤ s.overhead + k)
  | spawn {c : ℕ} {child : Body π V ε σ} {next : Cont π V ε σ} {js : List (Job π V ε σ)}
      (hjobs : s.jobs.Perm (⟨c, .run (.await child next)⟩ :: js))
      (hjobs' : s'.jobs.Perm (⟨s.created, .run child⟩ :: ⟨c, .join s.created next⟩ :: js))
      (hover : s'.overhead ≤ s.overhead + 5)
  | finish {c : ℕ} {b : Body π V ε σ} {r : Except ε V} {js : List (Job π V ε σ)}
      (hb : b.result = some r) (hjobs : s.jobs.Perm (⟨c, .run b⟩ :: js)) (hjobs' : s'.jobs.Perm js)
      (hover : s'.overhead ≤ s.overhead)
  | join {c child : ℕ} {next : Cont π V ε σ} {v : V} {js : List (Job π V ε σ)}
      (hchild : s.coros child = .finished (.ok v))
      (hjobs : s.jobs.Perm (⟨c, .join child next⟩ :: js))
      (hjobs' : s'.jobs.Perm (⟨c, .run (next (.ok v))⟩ :: js)) (hover : s'.overhead ≤ s.overhead)

inductive Fate (poll : π → σ → Poll π V ε × σ) (s : State π V ε σ) : State π V ε σ → Prop
  | spins {e : Entry} {rest : Stack π V ε σ} (ht : s.stack = .push e :: rest)
      (hfull : s.capacity - 1 ≤ s.queue.length) : Fate poll s s
  | returns (ht : s.stack = [.runForever]) (hq : s.queue = []) : Fate poll s (s.halt .returned)
  | terminates {c child : ℕ} {next : Cont π V ε σ} {e : ε} {rest : Stack π V ε σ}
      (ht : s.stack = .awaitLoop c child next :: rest)
      (hchild : s.coros child = .finished (.error e)) : Fate poll s (s.halt .terminated)
  | goes {s' : State π V ε σ} (hplaced : Placed s') (hstep : JobStep poll s s')
      (hout : s'.outcome = s.outcome) : Fate poll s s'

/-- The condition on a step: a coroutine of `__rec_wait` makes no poll that
throws, so only the first poll of an await may throw. -/
def ThrowsOnlyFirst (poll : π → σ → Poll π V ε × σ) (s : State π V ε σ) (_ : Unit)
    (_ : State π V ε σ) : Prop :=
  ∀ r c rest p next e w, s.stack = .recWait r c :: rest → s.coros c = .waiting p next →
    poll p s.world ≠ (.threw e, w)

/-! ### What a step leaves as it is -/

section

variable {poll : π → σ → Poll π V ε × σ} {s s' : State π V ε σ} {f g : Frame π V ε σ}
  {rest N H : List (Frame π V ε σ)} {j : Job π V ε σ}

theorem Rewrites.top (ht : s.stack = f :: rest) (hq : s'.queue = s.queue)
    (ht' : s'.stack = N ++ rest)
    (hkeeps : ∀ g ∈ s.queue.map .push ++ rest, g.Ok s'.coros ∧ g.job s'.coros = g.job s.coros)
    (hok : ∀ g ∈ N, g.Ok s'.coros) : Rewrites s s' [f] N (s.queue.map .push ++ rest) := by
  refine ⟨holders_top ht, ?_, hkeeps, hok⟩
  rw [State.holders, hq, ht']
  exact List.perm_append_comm_assoc _ _ _

theorem Placed.ok_top (h : Placed s) (ht : s.stack = f :: rest) : f.Ok s.coros :=
  h.ok f ((holders_top ht).mem_iff.2 List.mem_cons_self)

theorem Placed.ok_rest (h : Placed s) (ht : s.stack = f :: rest)
    (hg : g ∈ s.queue.map .push ++ rest) : g.Ok s.coros :=
  h.ok g ((holders_top ht).mem_iff.2 (List.mem_cons_of_mem _ hg))

/-- The frames below `f`, and the entries of the queue, when the task that
`f` is about changes its state. -/
theorem Placed.keeps_task (h : Placed s) (hH : s.holders.Perm (f :: H))
    (hf : f.job s.coros = some j) {v : Coro π V ε σ} (hv : v.IsTask) (hg : g ∈ H) :
    g.Ok (Function.update s.coros j.task v) ∧
      g.job (Function.update s.coros j.task v) = g.job s.coros :=
  (h.ok_of_mem (O := [f]) hH hg).update_task (fun _ hj' => h.other_task hH hf hg hj')
    ((h.ok f (hH.mem_iff.2 List.mem_cons_self)).unfinished hf) hv

theorem Placed.lt_created (h : Placed s) {c : ℕ} (hc : s.coros c ≠ .absent) : c < s.created :=
  Nat.lt_of_not_le fun hle => hc (h.fresh c hle)

/-- A coroutine that is created is in no frame. -/
theorem Frame.Ok.update_absent {coros : ℕ → Coro π V ε σ} (h : f.Ok coros) {x : ℕ}
    {v : Coro π V ε σ} (hx : coros x = .absent) :
    f.Ok (Function.update coros x v) ∧ f.job (Function.update coros x v) = f.job coros := by
  refine h.update_idle (by simp [hx, Coro.Unfinished]) (by simp [hx]) ?_ (by simp [hx, Coro.IsRec])
  rintro c child next rfl rfl
  have htask := h.2.1
  simp [hx, Coro.IsTask] at htask

theorem unfinished_update {coros : ℕ → Coro π V ε σ} {x : ℕ} {v : Coro π V ε σ}
    (hv : v.Unfinished → (coros x).Unfinished) (c : ℕ)
    (h : (Function.update coros x v c).Unfinished) : (coros c).Unfinished := by
  rcases eq_or_ne c x with rfl | hne
  · rw [Function.update_self] at h
    exact hv h
  · rwa [Function.update_of_ne hne] at h

theorem absent_update {coros : ℕ → Coro π V ε σ} {n x : ℕ} {v : Coro π V ε σ} (hx : x < n)
    (h : ∀ c, n ≤ c → coros c = .absent) (c : ℕ) (hc : n ≤ c) :
    Function.update coros x v c = .absent := by
  rw [Function.update_of_ne (by omega)]
  exact h c hc

theorem Apart.drop (h : Placed s) (ht : s.stack = f :: rest) : rest.Pairwise Apart := by
  have hapart := h.apart
  rw [ht] at hapart
  exact hapart.of_cons

theorem Apart.enter_all (hN : ∀ g ∈ N, ¬ g.IsAwaitLoop) (h : rest.Pairwise Apart) :
    (N ++ rest).Pairwise Apart := by
  induction N with
  | nil => exact h
  | cons g N ih =>
      obtain ⟨hg, hN⟩ := List.forall_mem_cons.1 hN
      exact Apart.enter hg (ih hN)

/-! ### The steps that change no job -/

theorem Placed.enqueue (h : Placed s) {e : Entry} (ht : s.stack = .push e :: rest)
    (hs : Trans poll s ((s.below rest).setQueue (s.queue ++ [e]))) :
    Placed ((s.below rest).setQueue (s.queue ++ [e])) ∧
      JobStep poll s ((s.below rest).setQueue (s.queue ++ [e])) := by
  have hholders : ((s.below rest).setQueue (s.queue ++ [e])).holders = s.holders := by
    simp [State.holders, ht]
  have hjobs : ((s.below rest).setQueue (s.queue ++ [e])).jobs = s.jobs := by
    rw [State.jobs, hholders, State.jobs]
    rfl
  refine ⟨⟨?_, ?_, ?_, h.fresh, under_step h.under hs, Apart.drop h ht⟩, .move (by rw [hjobs]) ?_⟩
  · rw [hholders]
    exact h.ok
  · rw [hjobs]
    exact h.nodup
  · rw [hjobs]
    exact h.all
  · simp [State.overhead, ht, Frame.overhead]
    omega

/-- `run_one` resumes the coroutine at the head of the queue, which goes to
the state `x` and gets the frame `top`. -/
theorem Placed.runOne (h : Placed s) {e : Entry} {q : List Entry} {x : Coro π V ε σ}
    {top : Frame π V ε σ} (hq : s.queue = e :: q)
    (hs : Trans poll s ((((s.setQueue q).enter (.runOne e)).setCoro e.coro x).enter top))
    (hkeeps : ∀ g ∈ q.map .push ++ s.stack, g.Ok (Function.update s.coros e.coro x) ∧
      g.job (Function.update s.coros e.coro x) = g.job s.coros)
    (hjob : top.job (Function.update s.coros e.coro x) = (Frame.push e).job s.coros)
    (hok : top.Ok (Function.update s.coros e.coro x)) (howned : e.owning = true → x.IsRec)
    (htop : ¬ top.IsAwaitLoop) (hover : top.overhead ≤ 2)
    (hx : x.Unfinished → (s.coros e.coro).Unfinished) (hnew : s.coros e.coro ≠ .absent) :
    Placed ((((s.setQueue q).enter (.runOne e)).setCoro e.coro x).enter top) ∧
      JobStep poll s ((((s.setQueue q).enter (.runOne e)).setCoro e.coro x).enter top) := by
  have hr : Rewrites s ((((s.setQueue q).enter (.runOne e)).setCoro e.coro x).enter top)
      [.push e] [top, .runOne e] (q.map .push ++ s.stack) := by
    refine ⟨?_, ?_, hkeeps, ?_⟩
    · rw [State.holders, hq]
      rfl
    · exact List.perm_append_comm_assoc _ [top, .runOne e] _
    · refine List.forall_mem_cons.2 ⟨hok, List.forall_mem_singleton.2 fun ho => ?_⟩
      simpa using howned ho
  have hjobs : [top, Frame.runOne e].filterMap (Frame.job (Function.update s.coros e.coro x)) =
      [Frame.push e].filterMap (Frame.job s.coros) := by
    simp only [List.filterMap_cons, hjob, List.filterMap_nil]
    rfl
  refine ⟨h.rewrite hr ?_ (unfinished_update hx) (absent_update (h.lt_created hnew) h.fresh)
    (under_step h.under hs) (Apart.enter htop (Apart.enter id h.apart)), .move ?_ ?_⟩
  · exact congrArg (List.map Job.task) hjobs
  · obtain ⟨js, hjs, hjs'⟩ := hr.jobs
    refine hjs'.trans ?_
    simp only [State.enter_coros, State.setCoro_coros, State.setQueue_coros, hjobs]
    exact hjs.symm
  · have hone : (Frame.runOne e : Frame π V ε σ).overhead = 1 := rfl
    simp [State.overhead, hq, hone]
    omega

theorem Placed.runTask (h : Placed s) {e : Entry} {q : List Entry} {b : Body π V ε σ}
    (hq : s.queue = e :: q) (hc : s.coros e.coro = .start b)
    (hs : Trans poll s ((((s.setQueue q).enter (.runOne e)).setCoro e.coro .running).enter
      (.exec e.coro b))) :
    Placed ((((s.setQueue q).enter (.runOne e)).setCoro e.coro .running).enter (.exec e.coro b)) ∧
      JobStep poll s
        ((((s.setQueue q).enter (.runOne e)).setCoro e.coro .running).enter (.exec e.coro b)) := by
  have hH : s.holders.Perm (.push e :: (q.map .push ++ s.stack)) := by
    rw [State.holders, hq]
    rfl
  have hjob : (Frame.push e).job s.coros = some ⟨e.coro, .run b⟩ := by simp [Frame.job, hc]
  have howned : e.owning = true → False := by
    intro ho
    rcases h.ok _ (hH.mem_iff.2 List.mem_cons_self) with ⟨hno, -⟩ | ⟨-, x, p, next, hrec, -⟩
    · simp [ho] at hno
    · simp [hc] at hrec
  exact h.runOne hq hs (fun g hg => h.keeps_task hH hjob (v := .running) trivial hg) hjob.symm
    (by simp [Frame.Ok]) (fun ho => (howned ho).elim) id (by simp [Frame.overhead])
    (fun _ => by simp [hc, Coro.Unfinished]) (by simp [hc])

theorem Placed.runRec (h : Placed s) {e : Entry} {q : List Entry} {x : ℕ}
    (hq : s.queue = e :: q) (hc : s.coros e.coro = .recWait x)
    (hs : Trans poll s ((((s.setQueue q).enter (.runOne e)).setCoro e.coro .recRunning).enter
      (.recWait e.coro x))) :
    Placed ((((s.setQueue q).enter (.runOne e)).setCoro e.coro .recRunning).enter
        (.recWait e.coro x)) ∧
      JobStep poll s ((((s.setQueue q).enter (.runOne e)).setCoro e.coro .recRunning).enter
        (.recWait e.coro x)) := by
  have hH : s.holders.Perm (.push e :: (q.map .push ++ s.stack)) := by
    rw [State.holders, hq]
    rfl
  obtain ⟨p, next, hw⟩ : ∃ p next, s.coros x = .waiting p next := by
    rcases h.ok _ (hH.mem_iff.2 List.mem_cons_self) with ⟨-, b, hb⟩ | ⟨-, y, p, next, hy, hw⟩
    · simp [hc] at hb
    · rw [hc, Coro.recWait.injEq] at hy
      exact ⟨p, next, hy ▸ hw⟩
  have hne : x ≠ e.coro := by
    rintro rfl
    simp [hc] at hw
  have hjob : (Frame.push e).job s.coros = some ⟨x, .poll p next⟩ := by
    simp [Frame.job, pollJob, hc, hw]
  have hw' : Function.update s.coros e.coro .recRunning x = .waiting p next := by
    rw [Function.update_of_ne hne, hw]
  -- another entry of the same coroutine would be another job of `x`
  have hentry : ∀ g ∈ q.map .push ++ s.stack, ∀ e', g = .push e' → e'.coro ≠ e.coro := by
    rintro g hg e' rfl he
    exact h.other_task hH hjob hg (by simp [Frame.job, he, pollJob, hc, hw]) rfl
  refine h.runOne hq hs (fun g hg => (h.ok_of_mem (O := [.push e]) hH hg).update ?_
    (hentry g hg) ?_ fun hr => ?_) ?_ ⟨?_, p, next, hw'⟩ (fun _ => trivial) id
    (by simp [Frame.overhead]) (fun hr => hr.elim) (by simp [hc])
  · intro j hj he
    have hbusy := (h.ok_of_mem (O := [.push e]) hH hg).unfinished hj
    simp [he, hc, Coro.Unfinished] at hbusy
  · rintro c child next' rfl rfl
    have htask := (h.ok_of_mem (O := [.push e]) hH hg).2.1
    simp [hc, Coro.IsTask] at htask
  · simp [hc, Coro.IsRec] at hr
  · rw [hjob]
    simp [Frame.job, pollJob, hw']
  · simp [Coro.IsRec]

/-- A frame that has no job returns; its coroutine `c`, which is one of
`__rec_wait`, goes to the state `x`. -/
theorem Placed.leaveRec (h : Placed s) {c : ℕ} {x : Coro π V ε σ} (ht : s.stack = f :: rest)
    (hf : f.job s.coros = none) (hover : 0 < f.overhead) (hc : (s.coros c).IsRec) (hx : x.IsRec)
    (hs : Trans poll s ((s.below rest).setCoro c x)) :
    Placed ((s.below rest).setCoro c x) ∧ JobStep poll s ((s.below rest).setCoro c x) := by
  have hbusy : ¬ (s.coros c).Unfinished ∧ ¬ (s.coros c).IsTask ∧ s.coros c ≠ .absent ∧
      (∀ y, s.coros c ≠ .recWait y) ∧ ¬ x.Unfinished := by
    cases hc' : s.coros c <;> cases x <;>
      simp_all [Coro.IsRec, Coro.Unfinished, Coro.IsTask]
  obtain ⟨hidle, htask, hnew, hwait, hidle'⟩ := hbusy
  have hr : Rewrites s ((s.below rest).setCoro c x) [f] [] (s.queue.map .push ++ rest) := by
    refine Rewrites.top ht rfl rfl (fun g hg => ?_) (by simp)
    refine (h.ok_rest ht hg).update_idle hidle hwait ?_ fun _ => hx
    rintro d child next rfl rfl
    exact absurd (h.ok_rest ht hg).2.1 htask
  refine ⟨h.rewrite hr (by simp [hf]) (unfinished_update fun hx' => absurd hx' hidle')
    (absent_update (h.lt_created hnew) h.fresh) (under_step h.under hs) (Apart.drop h ht),
    .move ?_ ?_⟩
  · obtain ⟨js, hjs, hjs'⟩ := hr.jobs
    refine hjs'.trans (hjs.trans ?_).symm
    simp [hf]
  · simp [State.overhead, ht]
    omega

theorem Placed.leave (h : Placed s) (ht : s.stack = f :: rest) (hf : f.job s.coros = none)
    (hover : 0 < f.overhead) (hs : Trans poll s (s.below rest)) :
    Placed (s.below rest) ∧ JobStep poll s (s.below rest) := by
  have hr : Rewrites s (s.below rest) [f] [] (s.queue.map .push ++ rest) :=
    Rewrites.top ht rfl rfl (fun g hg => ⟨h.ok_rest ht hg, rfl⟩) (by simp)
  refine ⟨h.rewrite hr (by simp [hf]) (fun c hc => hc) h.fresh (under_step h.under hs)
    (Apart.drop h ht), .move ?_ ?_⟩
  · obtain ⟨js, hjs, hjs'⟩ := hr.jobs
    refine hjs'.trans (hjs.trans ?_).symm
    simp [hf]
  · simp [State.overhead, ht]
    omega

/-! ### The steps that change one job -/

theorem Rewrites.jobs_one {w x : Work π V ε σ} {c : ℕ} (hr : Rewrites s s' [f] N H)
    (hf : f.job s.coros = some ⟨c, w⟩) (hN : N.filterMap (Frame.job s'.coros) = [⟨c, x⟩]) :
    (∃ js, s.jobs.Perm (⟨c, w⟩ :: js) ∧ s'.jobs.Perm (⟨c, x⟩ :: js)) ∧
      (N.filterMap (Frame.job s'.coros)).map Job.task =
        ([f].filterMap (Frame.job s.coros)).map Job.task := by
  refine ⟨?_, by simp [hf, hN]⟩
  obtain ⟨js, hjs, hjs'⟩ := hr.jobs
  rw [hN] at hjs'
  exact ⟨js, by simpa [hf] using hjs, hjs'⟩

/-- The coroutine on top of the stack goes on, and no coroutine changes its
state. -/
theorem Placed.goOn (h : Placed s) {c : ℕ} {b b' : Body π V ε σ} {w : σ}
    (ht : s.stack = .exec c b :: rest) (hw : Works poll (.run b) (.run b') 0)
    (hs : Trans poll s (((s.below rest).setWorld w).enter (.exec c b'))) :
    Placed (((s.below rest).setWorld w).enter (.exec c b')) ∧
      JobStep poll s (((s.below rest).setWorld w).enter (.exec c b')) := by
  have hr : Rewrites s (((s.below rest).setWorld w).enter (.exec c b')) [.exec c b] [.exec c b']
      (s.queue.map .push ++ rest) :=
    Rewrites.top ht rfl rfl (fun g hg => ⟨h.ok_rest ht hg, rfl⟩)
      (List.forall_mem_singleton.2 (h.ok_top ht :))
  obtain ⟨⟨js, hjs, hjs'⟩, htasks⟩ := hr.jobs_one (w := .run b) (x := .run b') rfl rfl
  refine ⟨h.rewrite hr htasks (fun c hc => hc) h.fresh (under_step h.under hs)
    (Apart.enter id (Apart.drop h ht)), .work hw hjs hjs' ?_⟩
  simp [State.overhead, ht, Frame.overhead]

/-- A coroutine that polls for the task `c` is created and pushed. `N` is
the return of the coroutine that polled before, if there is one. -/
theorem Placed.pollAgain (h : Placed s) {c k : ℕ} {w : Work π V ε σ} {p : π}
    {next : Cont π V ε σ} (ht : s.stack = f :: rest) (hf : f.job s.coros = some ⟨c, w⟩)
    (hw : Works poll w (.poll p next) k) (hq : s'.queue = s.queue)
    (hcoros : s'.coros =
      Function.update (Function.update s.coros c (.waiting p next)) s.created (.recWait c))
    (hcreated : s'.created = s.created + 1)
    (hstack : s'.stack = .push ⟨s.created, true⟩ :: (N ++ rest))
    (hN : N.filterMap (Frame.job s'.coros) = []) (hok : ∀ g ∈ N, g.Ok s'.coros)
    (hloop : ∀ g ∈ N, ¬ g.IsAwaitLoop) (hover : s'.overhead ≤ s.overhead + k)
    (hs : Trans poll s s') : Placed s' ∧ JobStep poll s s' := by
  have hc : (s.coros c).Unfinished := (h.ok_top ht).unfinished hf
  have hold : c < s.created := by
    refine h.lt_created fun he => ?_
    simp [he, Coro.Unfinished] at hc
  have hnew : Function.update s.coros c (.waiting p next) s.created = .absent := by
    rw [Function.update_of_ne (by omega)]
    exact h.fresh _ (Nat.le_refl _)
  -- the other frames see two updates, neither of them about their own tasks
  have hkeeps : ∀ g ∈ s.queue.map .push ++ rest,
      g.Ok s'.coros ∧ g.job s'.coros = g.job s.coros := by
    intro g hg
    have htask := h.keeps_task (holders_top ht) hf (v := .waiting p next) trivial hg
    have hfresh := htask.1.update_absent (v := .recWait c) hnew
    rw [hcoros]
    exact ⟨hfresh.1, hfresh.2.trans htask.2⟩
  have hc' : s'.coros c = .waiting p next := by
    rw [hcoros, Function.update_of_ne (by omega), Function.update_self]
  have hr' : s'.coros s.created = .recWait c := by
    rw [hcoros, Function.update_self]
  have hr : Rewrites s s' [f] (.push ⟨s.created, true⟩ :: N) (s.queue.map .push ++ rest) :=
    Rewrites.top ht hq hstack hkeeps
      (List.forall_mem_cons.2 ⟨.inr ⟨rfl, c, p, next, hr', hc'⟩, hok⟩)
  have hjob : (Frame.push ⟨s.created, true⟩).job s'.coros = some ⟨c, .poll p next⟩ := by
    simp [Frame.job, pollJob, hr', hc']
  obtain ⟨⟨js, hjs, hjs'⟩, htasks⟩ := hr.jobs_one hf (by rw [List.filterMap_cons_some hjob, hN])
  refine ⟨h.rewrite hr htasks ?_ ?_ (under_step h.under hs) ?_, .work hw hjs hjs' hover⟩
  · intro d hd
    rw [hcoros] at hd
    exact unfinished_update (fun _ => hc) d (unfinished_update (by simp [Coro.Unfinished]) d hd)
  · rw [hcoros, hcreated]
    exact absent_update (by omega) fun d hd => absent_update (by omega)
      (fun e he => h.fresh e (by omega)) d hd
  · rw [hstack]
    exact Apart.enter id (Apart.enter_all hloop (Apart.drop h ht))

/-- `__rec_wait` finds the awaitable of `c` ready and resumes `c`. -/
theorem Placed.recReady (h : Placed s) {r c : ℕ} {p : π} {next : Cont π V ε σ} {v : V} {w : σ}
    (ht : s.stack = .recWait r c :: rest) (hc : s.coros c = .waiting p next)
    (hp : poll p s.world = (.ready v, w))
    (hs : Trans poll s (((((s.below rest).setWorld w).setCoro c .running).enter
      (.recReturn r)).enter (.exec c (next (.ok v))))) :
    Placed (((((s.below rest).setWorld w).setCoro c .running).enter
        (.recReturn r)).enter (.exec c (next (.ok v)))) ∧
      JobStep poll s (((((s.below rest).setWorld w).setCoro c .running).enter
        (.recReturn r)).enter (.exec c (next (.ok v)))) := by
  have hf : (Frame.recWait r c).job s.coros = some ⟨c, .poll p next⟩ := by
    simp [Frame.job, pollJob, hc]
  have hrec : (s.coros r).IsRec := (h.ok_top ht).1
  have hne : r ≠ c := by
    rintro rfl
    simp [hc, Coro.IsRec] at hrec
  have hr : Rewrites s (((((s.below rest).setWorld w).setCoro c .running).enter
      (.recReturn r)).enter (.exec c (next (.ok v)))) [.recWait r c]
      [.exec c (next (.ok v)), .recReturn r] (s.queue.map .push ++ rest) := by
    refine Rewrites.top ht rfl rfl
      (fun g hg => h.keeps_task (holders_top ht) hf (v := .running) trivial hg) ?_
    refine List.forall_mem_cons.2 ⟨?_, List.forall_mem_singleton.2 ?_⟩
    · simp [Frame.Ok]
    · simpa [Frame.Ok, Function.update_of_ne hne] using hrec
  obtain ⟨⟨js, hjs, hjs'⟩, htasks⟩ := hr.jobs_one (x := .run (next (.ok v))) hf rfl
  refine ⟨h.rewrite hr htasks (unfinished_update fun _ => by simp [hc, Coro.Unfinished])
    (absent_update (h.lt_created (by simp [hc])) h.fresh) (under_step h.under hs)
    (Apart.enter id (Apart.enter id (Apart.drop h ht))),
    .work (.recReady next hp) hjs hjs' ?_⟩
  simp [State.overhead, ht, Frame.overhead]

/-- The loop of `TaskAwaitable` ends, and its child is destroyed. -/
theorem Placed.resumed (h : Placed s) {c child : ℕ} {next : Cont π V ε σ} {v : V}
    (ht : s.stack = .awaitLoop c child next :: rest) (hchild : s.coros child = .finished (.ok v))
    (hs : Trans poll s (((s.below rest).setCoro child .destroyed).enter
      (.exec c (next (.ok v))))) :
    Placed (((s.below rest).setCoro child .destroyed).enter (.exec c (next (.ok v)))) ∧
      JobStep poll s
        (((s.below rest).setCoro child .destroyed).enter (.exec c (next (.ok v)))) := by
  obtain ⟨hrunning, -, hne⟩ := h.ok_top ht
  have hapart := h.apart
  rw [ht, List.pairwise_cons] at hapart
  have hr : Rewrites s (((s.below rest).setCoro child .destroyed).enter
      (.exec c (next (.ok v)))) [.awaitLoop c child next] [.exec c (next (.ok v))]
      (s.queue.map .push ++ rest) := by
    refine Rewrites.top ht rfl rfl (fun g hg => ?_) (List.forall_mem_singleton.2 ?_)
    · refine (h.ok_rest ht hg).update_idle (by simp [hchild, Coro.Unfinished]) (by simp [hchild])
        ?_ (by simp [hchild, Coro.IsRec])
      rintro d child' next' rfl rfl
      have hbelow : .awaitLoop d child' next' ∈ rest := by simpa using hg
      exact absurd rfl (hapart.1 _ hbelow _ _ _ _ _ _ rfl rfl).2
    · simpa [Frame.Ok, Function.update_of_ne hne] using hrunning
  obtain ⟨⟨js, hjs, hjs'⟩, htasks⟩ :=
    hr.jobs_one (w := .join child next) (x := .run (next (.ok v))) rfl rfl
  refine ⟨h.rewrite hr htasks (unfinished_update fun hx => hx.elim)
    (absent_update (h.lt_created (by simp [hchild])) h.fresh) (under_step h.under hs)
    (Apart.enter id hapart.2), .join hchild hjs hjs' ?_⟩
  simp [State.overhead, ht, Frame.overhead]

/-! ### The steps that add or take away a job -/

theorem Placed.finish (h : Placed s) {c : ℕ} {b : Body π V ε σ} {r : Except ε V}
    (ht : s.stack = .exec c b :: rest) (hb : b.result = some r)
    (hs : Trans poll s ((s.below rest).setCoro c (.finished r))) :
    Placed ((s.below rest).setCoro c (.finished r)) ∧
      JobStep poll s ((s.below rest).setCoro c (.finished r)) := by
  have hrunning : s.coros c = .running := h.ok_top ht
  have hr : Rewrites s ((s.below rest).setCoro c (.finished r)) [.exec c b] []
      (s.queue.map .push ++ rest) :=
    Rewrites.top ht rfl rfl
      (fun g hg => h.keeps_task (holders_top ht) (j := ⟨c, .run b⟩) rfl (v := .finished r)
        trivial hg) (by simp)
  obtain ⟨js, hjs, hjs'⟩ := hr.jobs
  have hnodup := (hjs.map Job.task).nodup_iff.1 h.nodup
  refine ⟨⟨hr.ok_all, ?_, fun d hd => ?_, absent_update (h.lt_created (by simp [hrunning])) h.fresh,
    under_step h.under hs, Apart.drop h ht⟩, .finish hb hjs hjs' ?_⟩
  · exact (hjs'.map Job.task).nodup_iff.2 (List.nodup_cons.1 hnodup).2
  · -- `c` itself is complete now
    have hne : d ≠ c := by
      rintro rfl
      simp [Coro.Unfinished] at hd
    have hold := h.all d (unfinished_update (x := c) False.elim d hd)
    refine (hjs'.map Job.task).mem_iff.2 (((List.mem_cons).1 ?_).resolve_left hne)
    exact (hjs.map Job.task).mem_iff.1 hold
  · simp [State.overhead, ht, Frame.overhead]

theorem Placed.await (h : Placed s) {c : ℕ} {child : Body π V ε σ} {next : Cont π V ε σ}
    (ht : s.stack = .exec c (.await child next) :: rest)
    (hs : Trans poll s (((s.below rest).enter (.awaitLoop c s.created next)).pushNew
      (.start child) false)) :
    Placed (((s.below rest).enter (.awaitLoop c s.created next)).pushNew (.start child) false) ∧
      JobStep poll s
        (((s.below rest).enter (.awaitLoop c s.created next)).pushNew (.start child) false) := by
  have hrunning : s.coros c = .running := h.ok_top ht
  have hold : c ≠ s.created := Nat.ne_of_lt (h.lt_created (by simp [hrunning]))
  have hnew : s.coros s.created = .absent := h.fresh _ (Nat.le_refl _)
  have hr : Rewrites s
      (((s.below rest).enter (.awaitLoop c s.created next)).pushNew (.start child) false)
      [.exec c (.await child next)] [.push ⟨s.created, false⟩, .awaitLoop c s.created next]
      (s.queue.map .push ++ rest) := by
    refine Rewrites.top ht rfl rfl (fun g hg => (h.ok_rest ht hg).update_absent hnew) ?_
    refine List.forall_mem_cons.2 ⟨.inl ⟨rfl, child, ?_⟩,
      List.forall_mem_singleton.2 ⟨?_, ?_, hold⟩⟩
    · simp
    · simpa [Function.update_of_ne hold] using hrunning
    · simp [Coro.IsTask]
  obtain ⟨js, hjs, hjs'⟩ := hr.jobs
  have hspawned : [.push ⟨s.created, false⟩, .awaitLoop c s.created next].filterMap
      (Frame.job (Function.update s.coros s.created (.start child))) =
        [⟨s.created, .run child⟩, ⟨c, .join s.created next⟩] := by
    simp [Frame.job]
  have hperm : (((s.below rest).enter (.awaitLoop c s.created next)).pushNew
      (.start child) false).jobs.Perm
        (⟨s.created, .run child⟩ :: ⟨c, .join s.created next⟩ :: js) := by
    simpa only [State.pushNew_coros, State.enter_coros, State.enter_created, State.below_coros,
      State.below_created, hspawned, List.cons_append, List.nil_append] using hjs'
  have htasks : ((((s.below rest).enter (.awaitLoop c s.created next)).pushNew
      (.start child) false).jobs.map Job.task).Perm (s.created :: s.jobs.map Job.task) :=
    (hperm.map Job.task).trans ((hjs.map Job.task).symm.cons _)
  -- no frame knows the child, whose number has not been used
  refine ⟨⟨hr.ok_all, ?_, fun d hd => ?_, ?_, under_step h.under hs, ?_⟩, .spawn hjs hperm ?_⟩
  · refine htasks.nodup_iff.2 (List.nodup_cons.2 ⟨fun hmem => ?_, h.nodup⟩)
    obtain ⟨j, hj, he⟩ := List.mem_map.1 hmem
    obtain ⟨f, hf, hfj⟩ := List.mem_filterMap.1 hj
    have hbusy := (h.ok f hf).unfinished hfj
    simp [he, hnew, Coro.Unfinished] at hbusy
  · refine htasks.mem_iff.2 ?_
    rcases eq_or_ne d s.created with rfl | hne
    · exact List.mem_cons_self
    · refine List.mem_cons_of_mem _ (h.all d ?_)
      simpa [Function.update_of_ne hne] using hd
  · exact absent_update (Nat.lt_succ_self _) fun d hd => h.fresh d (Nat.le_of_succ_le hd)
  · refine Apart.enter id (List.pairwise_cons.2 ⟨?_, Apart.drop h ht⟩)
    rintro g hg c₁ child₁ next₁ c' child' next' ⟨⟩ rfl
    obtain ⟨hrun, htask, -⟩ := h.ok_rest ht (List.mem_append_right _ hg)
    constructor
    · rintro rfl
      simp [hnew] at hrun
    · rintro rfl
      simp [hnew, Coro.IsTask] at htask
  · simp [State.overhead, ht, Frame.overhead]
    omega

/-! ### Every step -/

/-- The child that a loop waits for stands in the queue, itself or with a
coroutine that polls for it. -/
theorem Placed.queue_ne_nil (h : Placed s) {c child : ℕ} {next : Cont π V ε σ}
    (ht : s.stack = .awaitLoop c child next :: rest) (hchild : ¬ (s.coros child).Complete) :
    s.queue ≠ [] := by
  intro hq
  obtain ⟨-, htask, hne⟩ := h.ok_top ht
  have hbusy : (s.coros child).Unfinished := by
    cases hc : s.coros child <;> simp_all [Coro.IsTask, Coro.Unfinished, Coro.Complete]
  obtain ⟨j, hj, he⟩ := List.mem_map.1 (h.all child hbusy)
  obtain ⟨g, hg, hgj⟩ := List.mem_filterMap.1 hj
  rw [State.holders, hq, List.map_nil, List.nil_append, ht] at hg
  have hunder := h.under
  have hapart := h.apart
  rw [ht, List.pairwise_cons] at hunder hapart
  rcases List.mem_cons.1 hg with rfl | hg
  · simp only [Frame.job, Option.some.injEq] at hgj
    subst hgj
    exact hne he
  -- a frame below that has the child's job could only be its caller, and that is this one
  · have hwaits := (hunder.1 g hg).2
    cases g with
    | awaitLoop c' child' next' =>
        simp only [Frame.job, Option.some.injEq] at hgj
        subst hgj
        exact (hapart.1 _ hg _ _ _ _ _ _ rfl rfl).1 he
    | push | exec | recWait => exact hwaits
    | runForever | runOne | recReturn => simp [Frame.job] at hgj

theorem Placed.head_of_queue (h : Placed s) {e : Entry} {q : List Entry} (hq : s.queue = e :: q) :
    (∃ b, s.coros e.coro = .start b) ∨ ∃ x, s.coros e.coro = .recWait x := by
  have hmem : .push e ∈ s.holders := by simp [State.holders, hq]
  rcases h.ok _ hmem with ⟨-, hstart⟩ | ⟨-, x, -, -, hrec, -⟩
  · exact .inl hstart
  · exact .inr ⟨x, hrec⟩

theorem Placed.bottom (h : Placed s) (ht : s.stack = .runForever :: rest) : rest = [] := by
  have hunder := h.under
  rw [ht, List.pairwise_cons] at hunder
  exact List.eq_nil_iff_forall_not_mem.2 fun g hg => (hunder.1 g hg).1 rfl

/-- No poll that a coroutine of `__rec_wait` makes throws. -/
theorem Placed.fate (h : Placed s) (hfirst : ThrowsOnlyFirst poll s () s')
    (hs : Trans poll s s') : Fate poll s s' := by
  have goes : ∀ {t : State π V ε σ}, Placed t ∧ JobStep poll s t → t.outcome = s.outcome →
      Fate poll s t := fun ht ho => .goes ht.1 ht.2 ho
  cases hs with
  | enqueue ht hroom => exact goes (h.enqueue ht (.enqueue ht hroom)) rfl
  | spin ht hfull => exact .spins ht hfull
  | runTask ht hf hq hc => exact goes (h.runTask hq hc (.runTask ht hf hq hc)) rfl
  | runRec ht hf hq hc => exact goes (h.runRec hq hc (.runRec ht hf hq hc)) rfl
  -- the exits that the invariant excludes are this one, `awaitEmpty`, `recThrew` and `recBad`
  | runBad ht hf hq hstart hrec =>
      rcases h.head_of_queue hq with ⟨b, hb⟩ | ⟨x, hx⟩
      · exact absurd hb (hstart b)
      · exact absurd hx (hrec x)
  | returned ht hq => exact .returns (h.bottom ht ▸ ht) hq
  | awaitEmpty ht hc hq => exact absurd hq (h.queue_ne_nil ht hc)
  | resumed ht hc => exact goes (h.resumed ht hc (.resumed ht hc)) rfl
  | terminated ht hc => exact .terminates ht hc
  | leaveOwned ht =>
      exact goes (h.leaveRec ht rfl Nat.one_pos (h.ok_top ht rfl) trivial (.leaveOwned ht)) rfl
  | leave ht => exact goes (h.leave ht rfl Nat.one_pos (.leave ht)) rfl
  | finish ht hb => exact goes (h.finish ht hb (.finish ht hb)) rfl
  | act ht => exact goes (h.goOn ht (.act _ _) (.act ht)) rfl
  | pollReady ht hp => exact goes (h.goOn ht (.ready _ hp) (.pollReady ht hp)) rfl
  | pollThrew ht hp => exact goes (h.goOn ht (.threw _ hp) (.pollThrew ht hp)) rfl
  | pollLater ht hp =>
      refine goes (h.pollAgain (N := []) ht rfl (.later _ hp) rfl rfl rfl rfl rfl (by simp)
        (by simp) ?_ (.pollLater ht hp)) rfl
      simp [State.overhead, State.recWait, ht, Frame.overhead]
      omega
  | await ht => exact goes (h.await ht (.await ht)) rfl
  | recReady ht hc hp => exact goes (h.recReady ht hc hp (.recReady ht hc hp)) rfl
  | recThrew ht hc hp => exact absurd hp (hfirst _ _ _ _ _ _ _ ht hc)
  | @recLater rest r x p p' next w ht hc hp =>
      have hrec := (h.ok_top ht).1
      have hne : r ≠ x ∧ r ≠ s.created := by
        constructor <;> rintro rfl
        · simp [hc, Coro.IsRec] at hrec
        · simp [h.fresh _ (Nat.le_refl _), Coro.IsRec] at hrec
      refine goes (h.pollAgain (N := [.recReturn r]) ht (by simp [Frame.job, pollJob, hc])
        (.recLater next hp) rfl rfl rfl rfl rfl ?_ ?_ ?_ (.recLater ht hc hp)) rfl
      · refine List.forall_mem_singleton.2 ?_
        simpa [Frame.Ok, State.recWait, hne.1, hne.2] using hrec
      · exact List.forall_mem_singleton.2 id
      · simp [State.overhead, State.recWait, ht, Frame.overhead]
        omega
  | recBad ht hc =>
      obtain ⟨-, p, next, hw⟩ := h.ok_top ht
      exact absurd hw (hc p next)
  | recReturn ht =>
      exact goes (h.leaveRec ht rfl Nat.one_pos (h.ok_top ht) trivial (.recReturn ht)) rfl

end

end JowiAsio.EventLoop

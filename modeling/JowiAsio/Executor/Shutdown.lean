import Mathlib.Data.List.Induction
import JowiAsio.Executor.Transitions

/-!
How the workers of a pool are told to stop.

The two flags do not mean the same to the two sides. A thread goes on for
as long as the second flag is set. The owner sets it in `stop` and in
`__finalise_state`, to make the thread stop. The compare-exchanges of
`start` and `stop` expect the flag clear, which it never is, so they
change nothing (`Worker.Told`). A thread waits until its word is
finalised, and what it loads then makes it run for ever: the destructor
never comes back from its join.
-/

namespace JowiAsio.Executor

open Lib

variable {I L : Type}

/-! ### A pool and its calls -/

/-- The workers that `PoolExecutor` has constructed on one loop. -/
def pool [DecidableEq I] (ids : List I) (loop : L) : State I L :=
  ⟨fun id => if id ∈ ids then some loop else none,
    ids.map fun id => ⟨loop, id, some ⟨false, true⟩, .idle, .wait⟩⟩

/-- What has been called on a worker: `start`; and `stop`, which has
returned, without a later `start`. -/
structure Calls where
  started : Bool
  stopped : Bool

/-- The owner's control goes from `before` to `after`. -/
def Calls.next (before after : Control) (h : Calls) : Calls :=
  match before, after with
  | .idle, .starting _ _ => ⟨true, false⟩
  | .stopping _ _, .idle => { h with stopped := true }
  | _, _ => h

/-- The workers with the calls that have been made. -/
structure Watched (I L : Type) where
  state : State I L
  calls : ℕ → Calls

/-- No call has been made yet. -/
def State.watch (s : State I L) : Watched I L := ⟨s, fun _ => ⟨false, false⟩⟩

def Watched.step [DecidableEq I] (s : Watched I L) (x : ℕ × Action) : Option (Watched I L) :=
  (workerStep s.state x.1 x.2).map fun t =>
    match s.state.workers[x.1]?, t.workers[x.1]? with
    | some v, some v' =>
        ⟨t, Function.update s.calls x.1 ((s.calls x.1).next v.control v'.control)⟩
    | _, _ => { s with state := t }

/-! ### What a thread is told and what it does -/

/-- The next step of the thread is a load of its word. -/
def Thread.Loads : Thread L → Prop
  | .wait | .reload _ => True
  | _ => False

/-- The next step of the thread calls `run_one`. -/
def Thread.Runs : Thread L → Prop
  | .work _ state => state.stop = true
  | _ => False

/-- The thread leaves `thread_work` without another `run_one`. -/
def Thread.Leaves : Thread L → Prop
  | .require state | .work _ state => state.stop = false
  | .returned => True
  | _ => False

/-- The worker is finalised, or `stop` has returned and `start` has not
been called since. -/
def Watched.ToldToStop (s : Watched I L) (w : ℕ) (v : Worker I L) : Prop :=
  v.control = .joining ∨ v.control = .destroyed ∨ (s.calls w).stopped = true

/-- A thread that loads its word after it has been told to stop leaves,
and one that calls `run_one` has been started. -/
def Obeys (s : Watched I L) (x : ℕ × Action) (s' : Watched I L) : Prop :=
  ∀ v v' f, s.state.workers[x.1]? = some v → s'.state.workers[x.1]? = some v' →
    x.2 = .thread f →
      (s.ToldToStop x.1 v → v.thread.Loads → v'.thread.Leaves) ∧
        (v.thread.Runs → (s.calls x.1).started = true)

/-- The condition on a step: a thread that has been told to stop does not
load its word. -/
def NoLateLoad (s : Watched I L) (x : ℕ × Action) (_ : Watched I L) : Prop :=
  ∀ v f, s.state.workers[x.1]? = some v → x.2 = .thread f → s.ToldToStop x.1 v →
    ¬ v.thread.Loads

/-! ### One worker -/

/-- What the word is, and what the compare-exchanges expect. -/
def Worker.Told (v : Worker I L) : Prop :=
  match v.control with
  | .idle => v.word = some ⟨false, true⟩
  | .starting e _ => v.word = some ⟨false, true⟩ ∧ e = ⟨false, false⟩
  | .stopping e _ => v.word = some ⟨false, true⟩ ∧ e = ⟨true, false⟩
  | .joining => v.word = some ⟨true, true⟩
  | .initialise | .register | .destroyed => False

/-- A thread has loaded nothing but what makes it go on. -/
def Thread.Stays : Thread L → Prop
  | .wait | .reload _ | .terminated => True
  | .require state | .work _ state => state = ⟨true, true⟩
  | .returned => False

/-- The thread of a worker waits until the worker is finalised, and does
not return after that. -/
def Worker.Deaf (v : Worker I L) : Prop :=
  v.Told ∧ v.thread.Stays ∧ (v.thread = .wait ∨ v.control = .joining)

theorem Worker.Told.word {v : Worker I L} (h : v.Told) :
    v.word = some ⟨false, true⟩ ∧ v.control ≠ .joining ∨
      v.word = some ⟨true, true⟩ ∧ v.control = .joining := by
  cases hc : v.control <;> simp_all [Told]

theorem Worker.Told.not_destroyed {v : Worker I L} (h : v.Told) : v.control ≠ .destroyed := by
  intro hc
  simp [Told, hc] at h

theorem Thread.wait_step {registered : Option L} :
    Thread.step ⟨false, true⟩ registered .wait = some .wait := rfl

/-- The flags of `__finalise_state` make a thread go on. -/
theorem Thread.Stays.step {registered : Option L} {t t' : Thread L} (ht : t.Stays)
    (hs : t.step ⟨true, true⟩ registered = some t') : t'.Stays := by
  cases t with
  | wait | reload =>
      cases hs
      rfl
  | require state =>
      cases registered with
      | none =>
          cases hs
          trivial
      | some loop =>
          cases hs
          exact ht
  | work loop state =>
      obtain rfl : state = ⟨true, true⟩ := ht
      cases hs
      trivial
  | returned | terminated => cases hs

section

variable [DecidableEq I] {r r' : Registry I L} {v v' : Worker I L} {a : Action}

/-- The compare-exchanges fail, and a thread that has not returned is not
joined. -/
theorem Worker.Told.step (h : v.Told) (ht : v.thread.Stays) (hs : Worker.Trans r v a v' r') :
    v'.Told := by
  cases hs with
  | initialise hc | register hc => simp [Told, hc] at h
  | start hc | stop hc =>
      simp only [Told, hc] at h
      exact ⟨h, rfl⟩
  | startChanges hc hw | stopChanges hc hw =>
      simp only [Told, hc, hw, Option.some.injEq] at h
      obtain ⟨rfl, he⟩ := h
      cases he
  | startFails hc hw | stopFails hc hw =>
      simp only [Told, hc] at h
      exact h.1
  | destroy => rfl
  | join _ hreturned => simp [hreturned, Thread.Stays] at ht
  | thread => exact h

theorem Worker.Deaf.step (h : v.Deaf) (hs : Worker.Trans r v a v' r') : v'.Deaf := by
  obtain ⟨htold, hstays, hwait⟩ := h
  refine ⟨htold.step hstays hs, ?_⟩
  cases hs with
  | initialise hc | register hc => simp [Told, hc] at htold
  | start hc | stop hc | startChanges hc | startFails hc | stopChanges hc | stopFails hc
  | destroy hc =>
      exact ⟨hstays, .inl (hwait.resolve_right (by simp [hc]))⟩
  | join _ hreturned => simp [hreturned, Thread.Stays] at hstays
  | thread ht =>
      rcases htold.word with ⟨hw, hc⟩ | ⟨hw, hc⟩
      · rw [hw, Option.getD_some, hwait.resolve_right hc, Thread.wait_step] at ht
        cases ht
        exact ⟨trivial, .inl rfl⟩
      · rw [hw, Option.getD_some] at ht
        exact ⟨hstays.step ht, .inr hc⟩

end

/-! ### All workers -/

section

variable [DecidableEq I] {s t : State I L} {w : ℕ} {a : Action}

def State.Deaf (s : State I L) : Prop := ∀ v ∈ s.workers, v.Deaf

theorem deaf_pool (ids : List I) (loop : L) : (pool ids loop).Deaf := by
  intro v hv
  obtain ⟨id, -, rfl⟩ := List.mem_map.1 hv
  exact ⟨rfl, trivial, .inl rfl⟩

theorem State.Deaf.step (h : s.Deaf) (hs : workerStep s w a = some t) : t.Deaf := by
  obtain ⟨v, v', r', hv, htrans, rfl⟩ := workerStep_trans hs
  intro u hu
  rcases List.mem_or_eq_of_mem_set hu with hu | rfl
  · exact h u hu
  · exact (h v (List.mem_of_getElem? hv)).step htrans

end

/-! ### The pool that is constructed -/

/-- The steps of the constructor of the worker `w`. -/
def constructWorker (id : I) (loop : L) (w : ℕ) : List (Label I L) :=
  [.construct id loop, .worker w .initialise, .worker w .register]

section

variable [DecidableEq I]

theorem pool_nil (loop : L) : pool [] loop = (init : State I L) := by
  simp [pool, init]

theorem pool_append {ids : List I} {id : I} {loop : L} (hid : id ∉ ids) :
    run step (pool ids loop) (constructWorker id loop ids.length) =
      some (pool (ids ++ [id]) loop) := by
  have hnew : ∀ v ∈ (pool ids loop).workers, v.control ≠ .destroyed → v.id ≠ id := by
    intro v hv _
    obtain ⟨id', hid', rfl⟩ := List.mem_map.1 hv
    rintro rfl
    exact hid hid'
  have hregistry : Function.update (pool ids loop).registry id (some loop) =
      (pool (ids ++ [id]) loop).registry := by
    ext1 i
    rcases eq_or_ne i id with rfl | hne
    · simp [pool]
    · simp [pool, hne]
  have hlast : ∀ (r : Registry I L) v a,
      workerStep ⟨r, (pool ids loop).workers ++ [v]⟩ ids.length a =
        (v.step r a).map fun p => ⟨p.2, (pool ids loop).workers ++ [p.1]⟩ := by
    intro r v a
    rw [show ids.length = (pool ids loop).workers.length by simp [pool]]
    simp [workerStep]
  have hfree : (pool ids loop).registry id = none := by simp [pool, hid]
  simp only [constructWorker, run_cons, run_nil, step, if_pos hnew, Option.bind_some, hlast,
    Worker.construct, Worker.step, Option.map_some, registerEventLoop, hfree, hregistry]
  simp [pool]

/-- What the constructor of `PoolExecutor` builds, whose threads have
different ids. -/
theorem pool_reachable {ids : List I} (loop : L) (h : ids.Nodup) :
    ∃ as, run step init as = some (pool ids loop) := by
  induction ids using List.reverseRecOn with
  | nil => exact ⟨[], by rw [pool_nil, run_nil]⟩
  | append_singleton ids id ih =>
      rw [List.nodup_append] at h
      obtain ⟨as, has⟩ := ih h.1
      refine ⟨as ++ constructWorker id loop ids.length, run_trans has (pool_append fun hid => ?_)⟩
      exact h.2.2 id hid id List.mem_cons_self rfl

end

/-! ### Whole runs -/

section

variable [DecidableEq I] {s s' : Watched I L} {x : ℕ × Action}

theorem Watched.step_state (hs : s.step x = some s') :
    workerStep s.state x.1 x.2 = some s'.state := by
  obtain ⟨t, ht, rfl⟩ := Option.map_eq_some_iff.1 hs
  rw [ht]
  split <;> rfl

/-- The step of one thread. -/
theorem Watched.thread_step {f : Flags} (hs : s.step x = some s') (hx : x.2 = .thread f)
    {v : Worker I L} (hv : s.state.workers[x.1]? = some v) :
    ∃ u, v.thread.step (v.word.getD f) (getEventLoop s.state.registry v.id) = some u ∧
      s'.state.workers[x.1]? = some { v with thread := u } := by
  obtain ⟨v₁, v', r', hv₁, htrans, ht⟩ := workerStep_trans (Watched.step_state hs)
  obtain rfl : v = v₁ := Option.some.inj (hv.symm.trans hv₁)
  rw [hx] at htrans
  obtain ⟨-, u, hu, rfl⟩ := htrans.of_thread
  refine ⟨u, hu, ?_⟩
  rw [ht, List.getElem?_set_self]
  exact (List.getElem?_eq_some_iff.1 hv).1

/-- No worker that has been told to stop has looked at its word. -/
def Watched.Waits (s : Watched I L) : Prop :=
  s.state.Deaf ∧ ∀ v ∈ s.state.workers, v.thread = .wait

theorem Watched.Waits.step (h : s.Waits) (hs : s.step x = some s') (hlate : NoLateLoad s x s') :
    s'.Waits := by
  obtain ⟨hdeaf, hwait⟩ := h
  refine ⟨hdeaf.step (Watched.step_state hs), ?_⟩
  obtain ⟨v, v', r', hv, htrans, ht⟩ := workerStep_trans (Watched.step_state hs)
  have hmem := List.mem_of_getElem? hv
  suffices hnew : v'.thread = .wait by
    intro u hu
    rw [ht] at hu
    rcases List.mem_or_eq_of_mem_set hu with hu | rfl
    · exact hwait u hu
    · exact hnew
  cases hx : x.2 with
  | thread f =>
      rw [hx] at htrans
      obtain ⟨-, u, hu, rfl⟩ := htrans.of_thread
      -- the thread loads, so it has not been told to stop
      have hnot : v.control ≠ .joining := by
        intro hc
        exact hlate v f hv hx (.inl hc) (by simp [hwait v hmem, Thread.Loads])
      obtain ⟨hw, -⟩ := (hdeaf v hmem).1.word.resolve_right fun hc => hnot hc.2
      rw [hw, Option.getD_some, hwait v hmem, Thread.wait_step] at hu
      cases hu
      rfl
  | _ =>
      rw [hx] at htrans
      cases htrans <;> exact hwait v hmem

/-- What a thread loads never makes it leave. -/
theorem Watched.Waits.obeys_iff (h : s.Waits) (hs : s.step x = some s') :
    Obeys s x s' ↔ NoLateLoad s x s' := by
  obtain ⟨hdeaf, hwait⟩ := h
  constructor
  · intro hobeys v f hv hx htold hloads
    have hmem := List.mem_of_getElem? hv
    obtain ⟨u, hu, hv'⟩ := Watched.thread_step hs hx hv
    have hleaves := (hobeys v _ f hv hv' hx).1 htold hloads
    rw [hwait v hmem] at hu
    rcases (hdeaf v hmem).1.word with ⟨hw, -⟩ | ⟨hw, -⟩
    · rw [hw, Option.getD_some, Thread.wait_step] at hu
      cases hu
      exact hleaves
    · rw [hw] at hu
      cases hu
      cases hleaves
  · intro hlate v v' f hv hv' hx
    refine ⟨fun htold hloads => absurd hloads (hlate v f hv hx htold), fun hruns => ?_⟩
    simp [hwait v (List.mem_of_getElem? hv), Thread.Runs] at hruns

end

/-- The workers of a pool do what they are told in those runs only in which
no thread looks at its word after it has been told to stop. And no
destructor comes back from its join. -/
theorem workers_obey_iff [DecidableEq I] (ids : List I) (loop : L) (as : List (ℕ × Action)) :
    (Along Watched.step Obeys (pool ids loop).watch as ↔
        Along Watched.step NoLateLoad (pool ids loop).watch as) ∧
      ∀ s, run Watched.step (pool ids loop).watch as = some s →
        ∀ v ∈ s.state.workers, v.control ≠ .destroyed := by
  have hdeaf := deaf_pool ids loop
  have hwaits : (pool ids loop).watch.Waits := by
    refine ⟨hdeaf, fun v hv => ?_⟩
    obtain ⟨id, -, rfl⟩ := List.mem_map.1 hv
    rfl
  refine ⟨along_iff (fun _ _ _ h hs => h.step hs) (fun _ _ _ h hs => h.obeys_iff hs) hwaits as,
    fun s hrun v hv => ?_⟩
  have hall : s.state.Deaf :=
    run_invariant (I := fun s : Watched I L => s.state.Deaf)
      (fun _ _ _ h hs => h.step (Watched.step_state hs)) hdeaf hrun
  exact (hall v hv).1.not_destroyed

/-- A pool of one worker is started, stopped and destroyed, and then its
thread looks at its word. -/
def stopLate : List (ℕ × Action) :=
  [(0, .start), (0, .compareExchange false), (0, .stop), (0, .compareExchange false),
    (0, .destroy), (0, .thread ⟨false, false⟩)]

/-- The thread goes on to call `run_one` again and again. -/
theorem finalised_worker_runs : ∃ s t : Watched ℕ ℕ,
    run Watched.step (pool [1] 7).watch stopLate = some s ∧
      s.state.workers.map Worker.thread = [.require ⟨true, true⟩] ∧
      run Watched.step s [(0, .thread ⟨false, false⟩), (0, .thread ⟨false, false⟩)] = some t ∧
      t.state.workers.map Worker.thread = [.reload 7] ∧
      ¬ Along Watched.step Obeys (pool [1] 7).watch stopLate := by
  refine ⟨_, _, rfl, rfl, rfl, rfl, fun h => ?_⟩
  obtain ⟨t, u, hrun, hstep, v, v', hv, hv', htold, hloads, hstays⟩ : ∃ t u : Watched ℕ ℕ,
      run Watched.step (pool [1] 7).watch (stopLate.take 5) = some t ∧
        t.step (0, .thread ⟨false, false⟩) = some u ∧ ∃ v v', t.state.workers[0]? = some v ∧
          u.state.workers[0]? = some v' ∧ t.ToldToStop 0 v ∧ v.thread.Loads ∧
          ¬ v'.thread.Leaves := by
    refine ⟨_, _, rfl, rfl, _, _, rfl, rfl, .inl rfl, ?_, ?_⟩
    · trivial
    · exact Bool.noConfusion
  exact hstays ((h.last hrun hstep v v' _ hv hv' rfl).1 htold hloads)

end JowiAsio.Executor

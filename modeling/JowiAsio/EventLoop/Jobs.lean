import Mathlib.Algebra.GroupWithZero.Nat
import Mathlib.Data.List.Nodup
import JowiAsio.EventLoop.Nesting

/-!
Where the unfinished tasks are.

Every task that is not complete has exactly one *job*: it stands in the
queue of the loop, or a coroutine of `__rec_wait` that will poll for it
stands there, or it has a frame on the call stack. `State.jobs` lists the
jobs, with what each task still has to do. The invariant `Placed` says
that the list has no task twice and leaves none out, and that each
coroutine is in the state its job needs. From it follows that the loop of
a `TaskAwaitable` never finds the queue empty while its child is not
complete, and that no coroutine is resumed that is not suspended there.

What is proved about results and about termination is proved from what a
step does to the list of jobs.
-/

namespace JowiAsio.EventLoop

open Lib

variable {π V ε σ : Type}

/-! ### Jobs -/

/-- What a task still has to do: go on with a body, wait for a poll
awaitable, or wait for a child. -/
inductive Work (π V ε σ : Type)
  | run (b : Body π V ε σ)
  | poll (p : π) (next : Cont π V ε σ)
  | join (child : ℕ) (next : Cont π V ε σ)

structure Job (π V ε σ : Type) where
  task : ℕ
  work : Work π V ε σ

/-- The job of a coroutine of `__rec_wait(loop, h)`. -/
def pollJob (coros : ℕ → Coro π V ε σ) (h : ℕ) : Option (Job π V ε σ) :=
  match coros h with
  | .waiting p next => some ⟨h, .poll p next⟩
  | _ => none

/-- The job of a frame; for `push` this is the job of the entry. -/
def Frame.job (coros : ℕ → Coro π V ε σ) : Frame π V ε σ → Option (Job π V ε σ)
  | .push e =>
      match coros e.coro with
      | .start b => some ⟨e.coro, .run b⟩
      | .recWait h => pollJob coros h
      | _ => none
  | .exec c b => some ⟨c, .run b⟩
  | .awaitLoop c child next => some ⟨c, .join child next⟩
  | .recWait _ h => pollJob coros h
  | _ => none

/-- The entries of the queue and the frames of the stack. -/
def State.holders (s : State π V ε σ) : List (Frame π V ε σ) := s.queue.map .push ++ s.stack

def State.jobs (s : State π V ε σ) : List (Job π V ε σ) := s.holders.filterMap (Frame.job s.coros)

/-! ### The states of the coroutines -/

/-- The coroutine of a task that is not complete. -/
def Coro.Unfinished : Coro π V ε σ → Prop
  | .start _ | .running | .waiting _ _ => True
  | _ => False

def Coro.IsTask : Coro π V ε σ → Prop
  | .start _ | .running | .waiting _ _ | .finished _ => True
  | _ => False

/-- A coroutine of `__rec_wait` that has been resumed. -/
def Coro.IsRec : Coro π V ε σ → Prop
  | .recRunning | .recFinished | .destroyed => True
  | _ => False

/-- The coroutines a frame names are in the states it needs. An owned
entry is a coroutine of `__rec_wait`. -/
def Frame.Ok (coros : ℕ → Coro π V ε σ) : Frame π V ε σ → Prop
  | .runForever => True
  | .runOne e => e.owning = true → (coros e.coro).IsRec
  | .push e =>
      (e.owning = false ∧ ∃ b, coros e.coro = .start b) ∨
        (e.owning = true ∧ ∃ h p next, coros e.coro = .recWait h ∧ coros h = .waiting p next)
  | .exec c _ => coros c = .running
  | .awaitLoop c child _ => coros c = .running ∧ (coros child).IsTask ∧ c ≠ child
  | .recWait r h => (coros r).IsRec ∧ ∃ p next, coros h = .waiting p next
  | .recReturn r => (coros r).IsRec

/-- Of two loops the lower one belongs to another task than the upper one
waits for, and waits for another one. -/
def Apart (f g : Frame π V ε σ) : Prop :=
  ∀ c child next c' child' next', f = .awaitLoop c child next → g = .awaitLoop c' child' next' →
    c' ≠ child ∧ child' ≠ child

structure Placed (s : State π V ε σ) : Prop where
  ok : ∀ f ∈ s.holders, f.Ok s.coros
  nodup : (s.jobs.map Job.task).Nodup
  all : ∀ c, (s.coros c).Unfinished → c ∈ s.jobs.map Job.task
  fresh : ∀ c, s.created ≤ c → s.coros c = .absent
  under : s.stack.Pairwise Under
  apart : s.stack.Pairwise Apart

/-! ### One frame when a coroutine changes its state -/

section

variable {coros : ℕ → Coro π V ε σ} {f : Frame π V ε σ} {j : Job π V ε σ}

/-- The task of a job is not complete. -/
theorem Frame.Ok.unfinished (h : f.Ok coros) (hj : f.job coros = some j) :
    (coros j.task).Unfinished := by
  have hpoll : ∀ {x p next}, coros x = .waiting p next → pollJob coros x = some j →
      (coros j.task).Unfinished := by
    intro x p next hx hjx
    simp only [pollJob, hx, Option.some.injEq] at hjx
    subst hjx
    simp [hx, Coro.Unfinished]
  cases f with
  | push e =>
      rcases h with ⟨-, b, hb⟩ | ⟨-, x, p, next, hx, hw⟩
      · simp only [Frame.job, hb, Option.some.injEq] at hj
        subst hj
        simp [hb, Coro.Unfinished]
      · simp only [Frame.job, hx] at hj
        exact hpoll hw hj
  | exec c b =>
      simp only [Frame.job, Option.some.injEq] at hj
      subst hj
      simp [show coros c = .running from h, Coro.Unfinished]
  | awaitLoop c child next =>
      simp only [Frame.job, Option.some.injEq] at hj
      subst hj
      simp [show coros c = .running from h.1, Coro.Unfinished]
  | recWait r x =>
      obtain ⟨-, p, next, hw⟩ := h
      exact hpoll hw hj
  | _ => exact absurd hj (by simp [Frame.job])

/-- The coroutine `x` goes to the state `v`. A frame is left as it is, and
keeps its job, when its own job is not that of `x`, when it is not the
entry of `x`, and when `v` is what its caller or its child may be in. -/
theorem Frame.Ok.update (h : f.Ok coros) {x : ℕ} {v : Coro π V ε σ}
    (hown : ∀ j, f.job coros = some j → j.task ≠ x) (hentry : ∀ e, f = .push e → e.coro ≠ x)
    (hchild : ∀ c child next, f = .awaitLoop c child next → child = x → v.IsTask)
    (hrec : (coros x).IsRec → v.IsRec) :
    f.Ok (Function.update coros x v) ∧ f.job (Function.update coros x v) = f.job coros := by
  have hcaller : ∀ {r}, (coros r).IsRec → (Function.update coros x v r).IsRec := by
    intro r hr
    rcases eq_or_ne r x with rfl | hne
    · rw [Function.update_self]
      exact hrec hr
    · rwa [Function.update_of_ne hne]
  have hpoll : ∀ {y p next}, coros y = .waiting p next → (∀ j, pollJob coros y = some j →
      j.task ≠ x) → Function.update coros x v y = .waiting p next ∧
        pollJob (Function.update coros x v) y = pollJob coros y := by
    intro y p next hy hj
    have hne : y ≠ x := hj ⟨y, .poll p next⟩ (by simp [pollJob, hy])
    simp [pollJob, Function.update_of_ne hne, hy]
  cases f with
  | runForever => exact ⟨trivial, rfl⟩
  | runOne e => exact ⟨fun ho => hcaller (h ho), rfl⟩
  -- an entry is a task that has not started, or polls for a suspended one
  | push e =>
      have hne := hentry e rfl
      rcases h with ⟨ho, b, hb⟩ | ⟨ho, y, p, next, hy, hw⟩
      · simp [Frame.Ok, Frame.job, Function.update_of_ne hne, hb, ho]
      · obtain ⟨hw', hj⟩ := hpoll hw fun j hj => hown j (by simpa [Frame.job, hy] using hj)
        refine ⟨.inr ⟨ho, y, p, next, by rw [Function.update_of_ne hne, hy], hw'⟩, ?_⟩
        simp [Frame.job, Function.update_of_ne hne, hy, hj]
  | exec c b =>
      have hne : c ≠ x := hown _ rfl
      refine ⟨?_, rfl⟩
      rw [Frame.Ok, Function.update_of_ne hne]
      exact h
  | awaitLoop c child next =>
      have hne : c ≠ x := hown _ rfl
      refine ⟨⟨(Function.update_of_ne hne v coros).trans h.1, ?_, h.2.2⟩, rfl⟩
      rcases eq_or_ne child x with rfl | hne'
      · rw [Function.update_self]
        exact hchild _ _ _ rfl rfl
      · rw [Function.update_of_ne hne']
        exact h.2.1
  | recWait r y =>
      obtain ⟨hr, p, next, hw⟩ := h
      obtain ⟨hw', hj⟩ := hpoll hw hown
      exact ⟨⟨hcaller hr, p, next, hw'⟩, hj⟩
  | recReturn r => exact ⟨hcaller h, rfl⟩

/-- The same for a coroutine that no job is about. -/
theorem Frame.Ok.update_idle (h : f.Ok coros) {x : ℕ} {v : Coro π V ε σ}
    (hidle : ¬ (coros x).Unfinished) (hwait : ∀ y, coros x ≠ .recWait y)
    (hchild : ∀ c child next, f = .awaitLoop c child next → child = x → v.IsTask)
    (hrec : (coros x).IsRec → v.IsRec) :
    f.Ok (Function.update coros x v) ∧ f.job (Function.update coros x v) = f.job coros := by
  refine h.update (fun j hj e => hidle (e ▸ h.unfinished hj)) ?_ hchild hrec
  rintro e rfl rfl
  rcases h with ⟨-, b, hb⟩ | ⟨-, y, p, next, hy, -⟩
  · exact hidle (by simp [hb, Coro.Unfinished])
  · exact hwait y hy

/-- The same for the task of another job. -/
theorem Frame.Ok.update_task (h : f.Ok coros) {x : ℕ} {v : Coro π V ε σ}
    (hown : ∀ j, f.job coros = some j → j.task ≠ x) (hx : (coros x).Unfinished)
    (hv : v.IsTask) :
    f.Ok (Function.update coros x v) ∧ f.job (Function.update coros x v) = f.job coros := by
  refine h.update hown ?_ (fun _ _ _ _ _ => hv) fun hr => ?_
  · rintro e rfl rfl
    rcases h with ⟨-, b, hb⟩ | ⟨-, y, p, next, hy, -⟩
    · exact hown _ (by simp only [Frame.job, hb]; rfl) rfl
    · simp [hy, Coro.Unfinished] at hx
  · cases hc : coros x <;> simp_all [Coro.Unfinished, Coro.IsRec]

end

/-! ### Replacing a few frames -/

/-- `s'` has the frames `N` where `s` had `O`, and the frames `H` of both
are as they were. -/
structure Rewrites (s s' : State π V ε σ) (O N H : List (Frame π V ε σ)) : Prop where
  before : s.holders.Perm (O ++ H)
  after : s'.holders.Perm (N ++ H)
  keeps : ∀ g ∈ H, g.Ok s'.coros ∧ g.job s'.coros = g.job s.coros
  ok : ∀ g ∈ N, g.Ok s'.coros

section

variable {s s' : State π V ε σ} {O N H : List (Frame π V ε σ)}

theorem Rewrites.jobs (h : Rewrites s s' O N H) : ∃ js,
    s.jobs.Perm (O.filterMap (Frame.job s.coros) ++ js) ∧
      s'.jobs.Perm (N.filterMap (Frame.job s'.coros) ++ js) := by
  refine ⟨H.filterMap (Frame.job s.coros), ?_, ?_⟩
  · rw [← List.filterMap_append]
    exact h.before.filterMap _
  · have hsame : H.filterMap (Frame.job s'.coros) = H.filterMap (Frame.job s.coros) :=
      List.filterMap_congr fun g hg => (h.keeps g hg).2
    rw [← hsame, ← List.filterMap_append]
    exact h.after.filterMap _

theorem Rewrites.ok_all (h : Rewrites s s' O N H) : ∀ f ∈ s'.holders, f.Ok s'.coros := by
  intro f hf
  rcases List.mem_append.1 (h.after.mem_iff.1 hf) with hf | hf
  · exact h.ok f hf
  · exact (h.keeps f hf).1

/-- The task of a job has no other job. -/
theorem Placed.other_task (h : Placed s) {f g : Frame π V ε σ} {j j' : Job π V ε σ}
    (hH : s.holders.Perm (f :: H)) (hf : f.job s.coros = some j) (hg : g ∈ H)
    (hj' : g.job s.coros = some j') : j'.task ≠ j.task := by
  have hperm : s.jobs.Perm (j :: H.filterMap (Frame.job s.coros)) := by
    have := hH.filterMap (Frame.job s.coros)
    rwa [List.filterMap_cons_some hf] at this
  have hnodup := (hperm.map Job.task).nodup_iff.1 h.nodup
  rw [List.map_cons, List.nodup_cons] at hnodup
  intro e
  exact hnodup.1 (e ▸ List.mem_map_of_mem (List.mem_filterMap.2 ⟨g, hg, hj'⟩))

theorem Placed.ok_of_mem (h : Placed s) (hH : s.holders.Perm (O ++ H)) {g : Frame π V ε σ}
    (hg : g ∈ H) : g.Ok s.coros :=
  h.ok g (hH.mem_iff.2 (List.mem_append_right _ hg))

/-- The jobs of the tasks stay the same jobs of the same tasks. -/
theorem Placed.rewrite (h : Placed s) (hr : Rewrites s s' O N H)
    (htasks : (N.filterMap (Frame.job s'.coros)).map Job.task =
      (O.filterMap (Frame.job s.coros)).map Job.task)
    (hall : ∀ c, (s'.coros c).Unfinished → (s.coros c).Unfinished)
    (hfresh : ∀ c, s'.created ≤ c → s'.coros c = .absent)
    (hunder : s'.stack.Pairwise Under) (hapart : s'.stack.Pairwise Apart) : Placed s' := by
  obtain ⟨js, hjobs, hjobs'⟩ := hr.jobs
  have hperm : (s'.jobs.map Job.task).Perm (s.jobs.map Job.task) := by
    refine (hjobs'.map Job.task).trans (List.Perm.trans ?_ (hjobs.map Job.task).symm)
    rw [List.map_append, List.map_append, htasks]
  exact ⟨hr.ok_all, hperm.nodup_iff.2 h.nodup,
    fun c hc => hperm.mem_iff.2 (h.all c (hall c hc)), hfresh, hunder, hapart⟩

theorem holders_top {f : Frame π V ε σ} {rest : Stack π V ε σ} (ht : s.stack = f :: rest) :
    s.holders.Perm (f :: (s.queue.map .push ++ rest)) := by
  rw [State.holders, ht]
  exact List.perm_middle

theorem Apart.enter {f : Frame π V ε σ} {rest : Stack π V ε σ} (hf : ¬ f.IsAwaitLoop)
    (h : rest.Pairwise Apart) : (f :: rest).Pairwise Apart := by
  refine List.pairwise_cons.2 ⟨fun g _ c child next c' child' next' e => ?_, h⟩
  exact absurd (e ▸ trivial) hf

end

end JowiAsio.EventLoop

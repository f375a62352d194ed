import JowiAsio.Workers.Lifetimes

/-!
What is left when the workers have nothing more to do.

Every coroutine that has been created is destroyed, or the queue or a
frame is about to destroy it, or it is the one of a task that was pushed
from outside, which belongs to whoever pushed it. The first two kinds are
`Settled`. With empty stacks and an empty queue the second kind is gone,
so nothing leaks; and nothing is named any more, so the tasks have ended.
-/

namespace JowiAsio.Workers

open Lib
open EventLoop (Body Cont Entry Poll)

variable {π V ε σ : Type}

/-- No worker runs anything, and nothing is in the queue. -/
def State.Idle (s : State π V ε σ) : Prop := s.shared.queue = [] ∧ ∀ st ∈ s.workers, st = []

/-- The coroutine of the task that a label pushes. -/
def pushed (s : State π V ε σ) : Label π V ε σ → List ℕ
  | .push _ _ => [s.shared.created]
  | .worker _ => []

/-- The coroutine has been destroyed, or an entry of the queue or a frame
will destroy it. -/
def Settled (s : Shared π V ε σ) (F : List (Frame π V ε σ)) (c : ℕ) : Prop :=
  c ∈ (s.holders F).flatMap Frame.owns ∨ s.coros c = .destroyed

/-- The coroutines in `tasks` are those that nothing here destroys. -/
structure State.Leaves (s : State π V ε σ) (tasks : List ℕ) : Prop where
  lives : s.Lives
  nodup : tasks.Nodup
  mem_iff : ∀ c, c ∈ tasks ↔ c < s.shared.created ∧ ¬ Settled s.shared s.workers.flatten c
  isTask : ∀ c ∈ tasks, (s.shared.coros c).IsTask

/-! ### One step of a worker -/

section

variable {poll : π → σ → Poll π V ε × σ} {s s' : Shared π V ε σ} {F rest : List (Frame π V ε σ)}
  {st st' : Stack π V ε σ} {coros : ℕ → Coro π V ε σ} {c d : ℕ} {x : Coro π V ε σ}

section

variable (e : Entry) (c child r y : ℕ) (b : Body π V ε σ) (x : Except ε V) (next : Cont π V ε σ)

@[simp] theorem Frame.owns_runOne : (Frame.runOne e : Frame π V ε σ).owns =
    (Frame.push e : Frame π V ε σ).owns := (Frame.owns_push e).symm

@[simp] theorem Frame.owns_exec : (Frame.exec c b).owns = [] := rfl

@[simp] theorem Frame.owns_finish : (Frame.finish c x : Frame π V ε σ).owns = [] := rfl

@[simp] theorem Frame.owns_test : (Frame.test c child next).owns = [child] := rfl

@[simp] theorem Frame.owns_take : (Frame.take c child next).owns = [child] := rfl

@[simp] theorem Frame.owns_resume : (Frame.resume c child next).owns = [child] := rfl

@[simp] theorem Frame.owns_recWait : (Frame.recWait r y : Frame π V ε σ).owns = [] := rfl

@[simp] theorem Frame.owns_recReturn : (Frame.recReturn r : Frame π V ε σ).owns = [] := rfl

end

theorem Frame.owns_unowned {e : Entry} (he : e.owning = false) :
    (Frame.push e : Frame π V ε σ).owns = [] := by
  obtain ⟨c, o⟩ := e
  obtain rfl : o = false := he
  rfl

theorem Frame.owns_owned {e : Entry} (he : e.owning = true) :
    (Frame.push e : Frame π V ε σ).owns = [e.coro] := by
  obtain ⟨c, o⟩ := e
  obtain rfl : o = true := he
  rfl

theorem settled_iff : Settled s F c ↔
    c ∈ s.queue.flatMap (fun e => (Frame.push e : Frame π V ε σ).owns) ∨
      c ∈ F.flatMap Frame.owns ∨ s.coros c = .destroyed := by
  simp [Settled, Shared.holders, or_assoc]

/-- A coroutine that is not destroyed by this change. -/
theorem destroyed_update (hd : coros d ≠ .destroyed) (hx : x ≠ .destroyed) :
    Function.update coros d x c = .destroyed ↔ coros c = .destroyed := by
  by_cases hc : c = d
  · subst hc
    rw [Function.update_self]
    exact ⟨fun h => absurd h hx, fun h => absurd h hd⟩
  · rw [Function.update_of_ne hc]

theorem destroyed_update_destroyed :
    Function.update coros d .destroyed c = .destroyed ↔ c = d ∨ coros c = .destroyed := by
  by_cases hc : c = d
  · simp [hc]
  · rw [Function.update_of_ne hc, or_iff_right hc]

theorem Runs.settled {below : Stack π V ε σ} (h : Runs s below s' st) :
    Settled s' (st ++ rest) c ↔ Settled s (below ++ rest) c := by
  rw [settled_iff, settled_iff]
  cases h with
  | @start e q b hq hc =>
      have hsame := destroyed_update (c := c) (x := .running)
        (by rw [hc]; simp : s.coros e.coro ≠ .destroyed) (by simp)
      simp [hq, hsame, or_left_comm, or_assoc]
  | @recWait e q y hq hc =>
      have hsame := destroyed_update (c := c) (x := .recRunning)
        (by rw [hc]; simp : s.coros e.coro ≠ .destroyed) (by simp)
      simp [hq, hsame, or_left_comm, or_assoc]

theorem Runs.created {below : Stack π V ε σ} (h : Runs s below s' st) :
    s'.created = s.created := by
  cases h <;> rfl

theorem Trans.created_le (h : Trans poll s st s' st') : s.created ≤ s'.created := by
  cases h with
  | run h | take h => exact Nat.le_of_eq h.created.symm
  | pollWaits | recAgain | await => exact Nat.le_succ _
  | _ => exact Nat.le_refl _

/-- A step destroys what its frame owns, and what it creates is owned. -/
theorem Trans.settled (h : Trans poll s st s' st') (hk : Kept s (st ++ rest))
    (hr : Returns s.coros none st) : Settled s' (st' ++ rest) c ↔
      Settled s (st ++ rest) c ∨ s.created ≤ c ∧ c < s'.created := by
  have hfresh : s.coros s.created ≠ .destroyed := by simp [hk.fresh _ (Nat.le_refl _)]
  have hnew : ∀ {t : Shared π V ε σ}, t.created = s.created + 1 →
      (s.created ≤ c ∧ c < t.created ↔ c = s.created) := by omega
  have hnone : ¬(s.created ≤ c ∧ c < s.created) := by omega
  -- a coroutine is suspended, and one that polls for it is created
  have hpolls : ∀ {d p next}, s.coros d ≠ .destroyed → (Function.update
      (Function.update s.coros d (.waiting p next)) s.created (.recWait d) c = .destroyed ↔
        s.coros c = .destroyed) := by
    intro d p next hd
    have hwaits : ∀ b, Function.update s.coros d (.waiting p next) b = .destroyed ↔
        s.coros b = .destroyed := fun b => destroyed_update hd (by simp)
    rw [destroyed_update ((hwaits _).not.2 hfresh) (by simp), hwaits]
  cases h with
  | run h => rw [h.created, or_iff_left hnone, h.settled]
  | take h =>
      rw [h.created, or_iff_left hnone, h.settled]
      simp only [settled_iff, List.cons_append, List.flatMap_cons, Frame.owns_test, Frame.owns_take]
  | idle | pushFull => exact (or_iff_left hnone).symm
  | act | pollReady | pollThrew | complete | incomplete | exhausted =>
      rw [settled_iff, settled_iff]
      simp [hnone]
  | leave ho =>
      rw [settled_iff, settled_iff]
      simp [hnone, Frame.owns_unowned ho]
  | push =>
      rw [settled_iff, settled_iff]
      simp [hnone, or_assoc]
  | leaveOwned ho =>
      rw [settled_iff, settled_iff]
      simp [hnone, Frame.owns_owned ho, destroyed_update_destroyed, or_assoc, or_left_comm]
  | awaitResume =>
      rw [settled_iff, settled_iff]
      simp [hnone, destroyed_update_destroyed, or_assoc, or_left_comm]
  | @coReturn c' | @throw c' =>
      have hc : s.coros c' = .running := hk.alive_top
      rw [settled_iff, settled_iff]
      simp [hnone, destroyed_update (by simp [hc] : s.coros c' ≠ .destroyed)]
  | @finish c' r =>
      have hc : s.coros c' = .completing r := hk.alive_top
      rw [settled_iff, settled_iff]
      simp [hnone, destroyed_update (by simp [hc] : s.coros c' ≠ .destroyed)]
  | @recReturn r =>
      have hc : s.coros r = .recRunning := hk.alive_top
      rw [settled_iff, settled_iff]
      simp [hnone, destroyed_update (by simp [hc] : s.coros r ≠ .destroyed)]
  | @recReady r y p next v w below hc | @recThrew r y p next e w below hc =>
      rw [settled_iff, settled_iff]
      simp [hnone, destroyed_update (by simp [hc] : s.coros y ≠ .destroyed)]
  | @pollWaits c' =>
      have hc : s.coros c' = .running := hk.alive_top
      rw [settled_iff, settled_iff, hnew (by rfl)]
      simp [hpolls (by simp [hc] : s.coros c' ≠ .destroyed), Frame.owns_owned, or_comm,
        or_left_comm]
  | @recAgain r y p p' next w below hc =>
      rw [settled_iff, settled_iff, hnew (by rfl)]
      simp [hpolls (by simp [hc] : s.coros y ≠ .destroyed), Frame.owns_owned, or_comm,
        or_left_comm]
  | await =>
      rw [settled_iff, settled_iff, hnew (by rfl)]
      simp [destroyed_update hfresh, Frame.owns_unowned, or_left_comm, or_comm]

end

/-! ### Whole runs -/

section

variable {poll : π → σ → Poll π V ε × σ} {s t : State π V ε σ} {a : Label π V ε σ} {c : ℕ}

theorem GoOn.isTask {coros coros' : ℕ → Coro π V ε σ} (h : GoOn coros coros')
    (hc : (coros c).IsTask) (hd : coros' c ≠ .destroyed) : (coros' c).IsTask := by
  rcases h c with hsame | hnext
  · rwa [hsame]
  · generalize coros c = x at hnext hc
    generalize coros' c = y at hnext hd
    cases hnext <;> trivial

theorem Settled.perm {s : Shared π V ε σ} {F F' : List (Frame π V ε σ)} (hp : F'.Perm F) :
    Settled s F' c ↔ Settled s F c := by
  rw [settled_iff, settled_iff, (hp.flatMap_right _).mem_iff]

/-- What a step creates and does not settle is the task that it pushes. -/
theorem State.Lives.settled (h : s.Lives) (hs : Workers.step poll s a = some t)
    (ha : a.Unowned) : (c < t.shared.created ∧ ¬ Settled t.shared t.workers.flatten c) ↔
      (c < s.shared.created ∧ ¬ Settled s.shared s.workers.flatten c) ∨ c ∈ pushed s a := by
  cases step_trans hs with
  | @push b owning hroom =>
      obtain rfl : owning = false := ha
      have hfresh := h.kept.fresh _ (Nat.le_refl _)
      have hsame : Settled ((s.shared.create (.start b)).setQueue
          (s.shared.queue ++ [⟨s.shared.created, false⟩])) s.workers.flatten c ↔
            Settled s.shared s.workers.flatten c := by
        rw [settled_iff, settled_iff]
        simp [Frame.owns_unowned,
          destroyed_update (by simp [hfresh] : s.shared.coros s.shared.created ≠ .destroyed)]
      have hnot : ¬ Settled s.shared s.workers.flatten s.shared.created := by
        rintro (howned | hd)
        · exact Nat.lt_irrefl _ (h.kept.owned _ howned)
        · rw [hfresh] at hd
          cases hd
      rw [hsame]
      simp only [Shared.setQueue_created, Shared.create_created, pushed, List.mem_singleton]
      constructor
      · rintro ⟨hlt, hc⟩
        by_cases heq : c = s.shared.created
        · exact .inr heq
        · exact .inl ⟨by omega, hc⟩
      · rintro (⟨hlt, hc⟩ | rfl)
        · exact ⟨by omega, hc⟩
        · exact ⟨Nat.lt_succ_self _, hnot⟩
  | halt => simp [pushed]
  | @goOn w st st' s' hw htrans =>
      have hp := flatten_perm hw
      have hp' := flatten_set_perm (List.getElem?_eq_some_iff.1 hw).1 st'
      have hkept : Workers.Kept s.shared (st ++ (s.workers.eraseIdx w).flatten) :=
        Workers.Kept.perm h.kept rfl rfl (hp.symm.append_left _)
      have hstep := htrans.settled (c := c) hkept (h.returns st (List.mem_of_getElem? hw))
      have hle := htrans.created_le
      rw [Settled.perm hp', hstep, ← Settled.perm hp]
      simp only [pushed, List.not_mem_nil, or_false]
      constructor
      · rintro ⟨hlt, hc⟩
        rw [not_or] at hc
        exact ⟨by omega, hc.1⟩
      · rintro ⟨hlt, hc⟩
        exact ⟨by omega, not_or.2 ⟨hc, by omega⟩⟩

theorem State.Leaves.step {tasks : List ℕ} (h : s.Leaves tasks)
    (hs : Workers.step poll s a = some t) (hhand : NotInHand s a t) (ha : a.Unowned) :
    t.Leaves (tasks ++ pushed s a) := by
  have hgo := h.lives.goOn hs
  have hmem : ∀ c, c ∈ tasks ++ pushed s a ↔
      c < t.shared.created ∧ ¬ Settled t.shared t.workers.flatten c := by
    intro c
    rw [List.mem_append, h.mem_iff, h.lives.settled hs ha]
  refine ⟨h.lives.step hs hhand ha, ?_, hmem, fun c hc => ?_⟩
  · cases a with
    | push b owning =>
        rw [pushed, ← List.concat_eq_append]
        exact h.nodup.concat fun hold => Nat.lt_irrefl _ ((h.mem_iff _).1 hold).1
    | worker w => simpa [pushed] using h.nodup
  · have hd : t.shared.coros c ≠ .destroyed := fun hd => ((hmem c).1 hc).2 (.inr hd)
    rcases List.mem_append.1 hc with hold | hnew
    · exact hgo.isTask (h.isTask c hold) hd
    · cases a with
      | push b owning =>
          obtain rfl := List.mem_singleton.1 hnew
          cases step_trans hs with
          | push =>
              show (Function.update s.shared.coros s.shared.created (.start b) _).IsTask
              rw [Function.update_self]
              trivial
      | worker w => exact absurd hnew List.not_mem_nil

theorem State.leaves_init (capacity n : ℕ) (w : σ) :
    (init capacity n w : State π V ε σ).Leaves [] where
  lives := State.lives_init capacity n w
  nodup := List.nodup_nil
  mem_iff c := by simp [init]
  isTask c hc := absurd hc List.not_mem_nil

/-- Where nothing is queued or on a stack, every coroutine that has not
been destroyed has come to an end. -/
theorem State.Leaves.ended {tasks : List ℕ} (h : s.Leaves tasks) (hidle : s.Idle) :
    (∀ c, c ∈ tasks ↔ c < s.shared.created ∧ s.shared.coros c ≠ .destroyed) ∧
      ∀ c ∈ tasks, s.shared.coros c = .lost ∨ ∃ r, s.shared.coros c = .finished r := by
  have hnone : s.shared.holders s.workers.flatten = [] := by
    have hstacks : s.workers.flatten = [] := List.flatten_eq_nil_iff.2 hidle.2
    rw [Shared.holders, hidle.1, hstacks]
    rfl
  refine ⟨fun c => ?_, fun c hc => ?_⟩
  · rw [h.mem_iff, Settled, hnone]
    simp
  · have hcount := h.lives.kept.names c
    have htask := h.isTask c hc
    rw [hnone] at hcount
    cases hx : s.shared.coros c with
    | lost => exact .inl rfl
    | finished r => exact .inr ⟨r, rfl⟩
    | start | running | completing | waiting => simp [hx, Coro.placed] at hcount
    | absent | recWait | recRunning | recFinished | destroyed =>
        rw [hx] at htask
        exact htask.elim

end

end JowiAsio.Workers

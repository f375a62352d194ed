import JowiAsio.Lib.Machine
import JowiAsio.Workers.Steps

/-!
When awaiting a task is sound with several workers.

`Sound` is what `TaskAwaitable` relies on: when its loop has ended and the
parent is resumed, the child is at its final suspend point and its
`PromiseState` holds the result. The loop ends when the flag is set or
when the queue is empty, and neither says so: another worker may have
taken the child from the queue, or have set the flag and not yet suspended
the child.

`NotInHand` excludes this for the steps that end a loop: no worker has the
child in hand, and the child has not been lost by a poll that threw inside
`__rec_wait`. The invariant then leaves the child nowhere to be but at its
end.
-/

namespace JowiAsio.Workers

open Lib
open EventLoop (Body Cont Entry Poll)

variable {π V ε σ : Type}

/-- A parent that has been resumed by `TaskAwaitable`, and in its next
step reads the value of the child and destroys it, finds the child at its
final suspend point. -/
def Sound (s : State π V ε σ) : Prop :=
  ∀ st ∈ s.workers, ∀ c child next below, st = .resume c child next :: below →
    ∃ r, s.shared.coros child = .finished r

/-- The condition on a step: where it ends the loop of a `TaskAwaitable`,
no worker has the child, its entry or a `__rec_wait` for it in hand, and
no poll for it has thrown inside `__rec_wait`. -/
def NotInHand (s : State π V ε σ) (a : Label π V ε σ) (_ : State π V ε σ) : Prop :=
  ∀ w st child, a = .worker w → s.workers[w]? = some st → EndsLoop s.shared st child →
    s.shared.coros child ≠ .lost ∧ ∀ f ∈ s.workers.flatten, child ∉ f.names s.shared.coros

section

variable {poll : π → σ → Poll π V ε × σ} {s s' : Shared π V ε σ} {F : List (Frame π V ε σ)}
  {st st' : Stack π V ε σ} {child : ℕ}

/-- What is at its final suspend point is in nobody's hand. -/
theorem Kept.not_named (h : Kept s F) {r : Except ε V} (hr : s.coros child = .finished r) :
    ∀ f ∈ F, child ∉ f.names s.coros := by
  intro f hf hmem
  have hcount := h.names child
  rw [hr] at hcount
  refine List.count_eq_zero.1 hcount (List.mem_flatMap.2 ⟨f, ?_, hmem⟩)
  exact List.mem_append_right _ hf

/-- A coroutine that an entry of the queue names has not set its flag. -/
theorem Kept.queued_incomplete (h : Kept s F) {e : Entry} (he : e ∈ s.queue)
    (hmem : child ∈ (Frame.push e).names s.coros) : (s.coros child).isComplete = false := by
  have halive : (Frame.push e).Alive s.coros :=
    h.alive _ (List.mem_append_left _ (List.mem_map_of_mem he))
  rcases halive with ⟨b, hb⟩ | ⟨y, hy, -⟩
  · simp only [Frame.names, hb] at hmem
    obtain rfl := List.mem_singleton.1 hmem
    rw [hb]
    rfl
  · simp only [Frame.names, hy] at hmem
    rcases List.mem_cons.1 hmem with rfl | hmem
    · rw [hy]
      rfl
    · unfold waitingFor at hmem
      split at hmem
      case h_1 p next hw =>
        obtain rfl := List.mem_singleton.1 hmem
        rw [hw]
        rfl
      case h_2 => exact absurd hmem List.not_mem_nil

/-- The loop of a `TaskAwaitable` ends and no worker has the child in
hand: then the child is at its final suspend point. -/
theorem Kept.finished_of_endsLoop (h : Kept s F) (hst : ∀ f ∈ st, f ∈ F)
    (hend : EndsLoop s st child) (hlost : s.coros child ≠ .lost)
    (hhand : ∀ f ∈ F, child ∉ f.names s.coros) : ∃ r, s.coros child = .finished r := by
  have htask : (s.coros child).IsTask := by
    rcases hend with ⟨c, next, below, rfl, -⟩ | ⟨c, next, below, rfl, -⟩
    · exact (h.alive _ (List.mem_append_right _ (hst _ List.mem_cons_self))).2
    · exact (h.alive _ (List.mem_append_right _ (hst _ List.mem_cons_self))).2
  -- the queue does not have it either
  have hqueue : ∀ e ∈ s.queue, child ∉ (Frame.push e).names s.coros := by
    intro e he hmem
    rcases hend with ⟨_, _, _, -, hc⟩ | ⟨_, _, _, -, hq⟩
    · exact absurd (h.queued_incomplete he hmem) (by simp [hc])
    · rw [hq] at he
      exact absurd he List.not_mem_nil
  have hplaced : (s.coros child).placed = 0 := by
    rw [← h.names child, List.count_eq_zero]
    intro hmem
    obtain ⟨f, hf, hcf⟩ := List.mem_flatMap.1 hmem
    rcases List.mem_append.1 hf with hf | hf
    · obtain ⟨e, he, rfl⟩ := List.mem_map.1 hf
      exact hqueue e he hcf
    · exact hhand f hf hcf
  cases hx : s.coros child with
  | finished r => exact ⟨r, rfl⟩
  | lost => exact absurd hx hlost
  | start | running | completing | waiting => simp [hx, Coro.placed] at hplaced
  | absent | recWait | recRunning | recFinished | destroyed =>
      rw [hx] at htask
      exact htask.elim

end

/-! ### Runs -/

section

variable {poll : π → σ → Poll π V ε × σ} {s t : State π V ε σ} {a : Label π V ε σ}

/-- The invariant, over the stacks of all workers. -/
def State.Kept (s : State π V ε σ) : Prop := Workers.Kept s.shared s.workers.flatten

theorem State.Kept.ended (h : s.Kept) (ha : NotInHand s a t) {w : ℕ} {st : Stack π V ε σ}
    (hlabel : a = .worker w) (hw : s.workers[w]? = some st) {child : ℕ}
    (hend : EndsLoop s.shared st child) : ∃ r, s.shared.coros child = .finished r := by
  obtain ⟨hlost, hhand⟩ := ha w st child hlabel hw hend
  refine Workers.Kept.finished_of_endsLoop h (fun f hf => ?_) hend hlost hhand
  exact List.mem_flatten.2 ⟨st, List.mem_of_getElem? hw, hf⟩

theorem State.Kept.step (h : s.Kept) (hs : step poll s a = some t) (ha : NotInHand s a t) :
    t.Kept := by
  cases step_trans hs with
  | push => exact Workers.Kept.pushTask h
  | halt => exact h
  | @goOn w st st' s' hw htrans =>
      have hlt : w < s.workers.length := (List.getElem?_eq_some_iff.1 hw).1
      have hbefore : Workers.Kept s.shared (st ++ (s.workers.eraseIdx w).flatten) :=
        Workers.Kept.perm h rfl rfl ((flatten_perm hw).symm.append_left _)
      have hafter := hbefore.trans htrans fun child hend => h.ended ha rfl hw hend
      exact hafter.perm rfl rfl ((flatten_set_perm hlt st').append_left _)

theorem State.Kept.sound (h : s.Kept) : Sound s := by
  rintro st hst c child next below rfl
  refine (h.alive (.resume c child next) (List.mem_append_right _ ?_)).2
  exact List.mem_flatten.2 ⟨_, hst, List.mem_cons_self⟩

/-- A step that ends a loop puts the parent on top of its stack. -/
theorem EndsLoop.workerStep (poll : π → σ → Poll π V ε × σ) {s : Shared π V ε σ}
    {st : Stack π V ε σ} {child : ℕ} (h : EndsLoop s st child) : ∃ c next below,
      workerStep poll s st = .ok (s, .resume c child next :: below) := by
  rcases h with ⟨c, next, below, rfl, hc⟩ | ⟨c, next, below, rfl, hq⟩
  · exact ⟨c, next, below, by simp [Workers.workerStep, hc]⟩
  · exact ⟨c, next, below, by simp [Workers.workerStep, hq]⟩

theorem State.Kept.notInHand (h : s.Kept) (hs : Workers.step poll s a = some t) (ht : Sound t) :
    NotInHand s a t := by
  rintro w st child rfl hw hend
  obtain ⟨c, next, below, hstep⟩ := hend.workerStep poll
  have hlt : w < s.workers.length := (List.getElem?_eq_some_iff.1 hw).1
  have hresumed : t = ⟨s.shared, s.workers.set w (.resume c child next :: below), s.outcome⟩ := by
    simp only [Workers.step, hw, Option.map_some, hstep] at hs
    split at hs
    case isTrue => exact (Option.some.inj hs).symm
    case isFalse => cases hs
  subst hresumed
  obtain ⟨r, hr⟩ := ht _ (List.mem_set hlt _) c child next below rfl
  have hfinished : s.shared.coros child = .finished r := hr
  exact ⟨by simp [hfinished], Workers.Kept.not_named h hfinished⟩

theorem State.kept_init (capacity n : ℕ) (w : σ) :
    (init capacity n w : State π V ε σ).Kept := by
  have hnone : (init capacity n w : State π V ε σ).shared.holders
      (init capacity n w : State π V ε σ).workers.flatten = [] := by
    simp [init, Shared.holders]
  refine ⟨fun f hf => ?_, fun c => ?_, fun c => ?_, fun c hc => ?_, fun _ _ => rfl⟩
  · rw [hnone] at hf
    exact absurd hf List.not_mem_nil
  · rw [hnone]
    rfl
  · rw [hnone]
    exact Nat.zero_le _
  · rw [hnone] at hc
    exact absurd hc List.not_mem_nil

end

/-- **When awaiting is sound.** For any number of workers on one loop, any
capacity and any order of their steps, a resumed parent always finds its
child at its final suspend point, with a result to read, if and only if
every loop that ends does so while no worker has the child in hand. -/
theorem awaits_sound_iff (poll : π → σ → Poll π V ε × σ) (capacity n : ℕ) (w : σ)
    (as : List (Label π V ε σ)) :
    Visits (step poll) Sound (init capacity n w) as ↔
      Along (step poll) NotInHand (init capacity n w) as := by
  have hinit := State.kept_init (π := π) (V := V) (ε := ε) capacity n w
  rw [visits_iff_along]
  refine (and_iff_right hinit.sound).trans ?_
  refine along_iff (fun s a t hs hstep ha => hs.step hstep ha) (fun s a t hs hstep => ?_) hinit as
  exact ⟨hs.notInHand hstep, fun ha => (hs.step hstep ha).sound⟩

/-! ### Two workers and one task -/

/-- A task that awaits another one. -/
def awaitsTask : Body Unit Unit Unit Unit := .await (.coReturn ()) fun _ => .coReturn ()

/-- The first worker runs the parent and pushes the child, the second one
takes the child from the queue, and the first one finds the flag not set
and the queue empty. -/
def childTaken : List (Label Unit Unit Unit Unit) :=
  [.push awaitsTask false, .worker 0, .worker 0, .worker 0, .worker 1, .worker 0, .worker 0]

/-- The same, but the second worker goes on until it has set the flag. -/
def childCompleting : List (Label Unit Unit Unit Unit) :=
  [.push awaitsTask false, .worker 0, .worker 0, .worker 0, .worker 1, .worker 1, .worker 0]

/-- No poll is used. -/
def unready (p w : Unit) : Poll Unit Unit Unit × Unit := (.notReady p, w)

/-- In the first run the parent goes on to read an empty `PromiseState`. In
the second one there is a value, and the child is destroyed before it is
suspended. -/
theorem awaits_child_in_hand :
    (∃ s t : State Unit Unit Unit Unit,
      run (step unready) (init 4096 2 ()) childTaken = some s ∧
        (s.shared.coros 1).promiseState = none ∧ ¬ Sound s ∧
        step unready s (.worker 0) = some t ∧ t.outcome = .undefined) ∧
      (∃ s t : State Unit Unit Unit Unit,
        run (step unready) (init 4096 2 ()) childCompleting = some s ∧
          (s.shared.coros 1).promiseState = some (.ok ()) ∧ ¬ Sound s ∧
          step unready s (.worker 0) = some t ∧ t.outcome = .undefined) ∧
      ¬ Visits (step unready) Sound (init 4096 2 ()) childTaken ∧
      ¬ Visits (step unready) Sound (init 4096 2 ()) childCompleting := by
  have htaken : ∃ s t : State Unit Unit Unit Unit,
      run (step unready) (init 4096 2 ()) childTaken = some s ∧
        (s.shared.coros 1).promiseState = none ∧ ¬ Sound s ∧
        step unready s (.worker 0) = some t ∧ t.outcome = .undefined := by
    refine ⟨_, _, rfl, rfl, fun h => ?_, rfl, rfl⟩
    obtain ⟨r, hr⟩ := h _ List.mem_cons_self 0 1 _ _ rfl
    cases hr
  have hcompleting : ∃ s t : State Unit Unit Unit Unit,
      run (step unready) (init 4096 2 ()) childCompleting = some s ∧
        (s.shared.coros 1).promiseState = some (.ok ()) ∧ ¬ Sound s ∧
        step unready s (.worker 0) = some t ∧ t.outcome = .undefined := by
    refine ⟨_, _, rfl, rfl, fun h => ?_, rfl, rfl⟩
    obtain ⟨r, hr⟩ := h _ List.mem_cons_self 0 1 _ _ rfl
    cases hr
  refine ⟨htaken, hcompleting, fun h => ?_, fun h => ?_⟩
  · obtain ⟨s, t, hrun, -, hnot, -⟩ := htaken
    exact hnot (h.last hrun)
  · obtain ⟨s, t, hrun, -, hnot, -⟩ := hcompleting
    exact hnot (h.last hrun)

end JowiAsio.Workers

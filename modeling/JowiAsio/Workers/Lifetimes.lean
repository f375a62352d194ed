import Mathlib.Data.List.Nodup
import Mathlib.Data.List.Flatten
import JowiAsio.Workers.Soundness

/-!
Coroutines that the loop does not own.

`parallel_expected` and `TaskAwaitable` push their coroutines with
`is_owning` false. When every task is pushed so, the loop destroys nothing
but the coroutines of `__rec_wait`, and a task is destroyed by the
`TaskAwaitable` that awaits it, or not at all.

Then no worker runs into undefined behaviour, if the loops of
`TaskAwaitable` end as `NotInHand` says. `run_one` destroys a coroutine of
`__rec_wait` right after the frames of this coroutine have returned
(`Returns`), so it is at its final suspend point; and a task that such a
coroutine polls for is still there (`OwnsRecs`).
-/

namespace JowiAsio.Workers

open Lib
open EventLoop (Body Cont Entry Poll)

variable {π V ε σ : Type}

/-- The task is not handed over to the loop. -/
def Label.Unowned : Label π V ε σ → Prop
  | .push _ owning => owning = false
  | .worker _ => True

/-! ### The life of a coroutine -/

/-- What a coroutine can become next. -/
inductive Coro.Next : Coro π V ε σ → Coro π V ε σ → Prop
  | create (b : Body π V ε σ) : Next .absent (.start b)
  | start (b : Body π V ε σ) : Next (.start b) .running
  | wait (p : π) (next : Cont π V ε σ) : Next .running (.waiting p next)
  | again (p p' : π) (next : Cont π V ε σ) : Next (.waiting p next) (.waiting p' next)
  | ready (p : π) (next : Cont π V ε σ) : Next (.waiting p next) .running
  | threw (p : π) (next : Cont π V ε σ) : Next (.waiting p next) .lost
  | complete (r : Except ε V) : Next .running (.completing r)
  | finish (r : Except ε V) : Next (.completing r) (.finished r)
  | destroy (r : Except ε V) : Next (.finished r) .destroyed
  | createRec (h : ℕ) : Next .absent (.recWait h)
  | startRec (h : ℕ) : Next (.recWait h) .recRunning
  | finishRec : Next .recRunning .recFinished
  | destroyRec : Next .recFinished .destroyed

/-- Every coroutine stays where it is in its life, or goes on by one
state. -/
def GoOn (coros coros' : ℕ → Coro π V ε σ) : Prop :=
  ∀ c, coros' c = coros c ∨ (coros c).Next (coros' c)

/-! ### What the loop owns -/

/-- The coroutine of `__rec_wait` that runs in a frame. -/
def Frame.recCoro : Frame π V ε σ → Option ℕ
  | .recWait r _ | .recReturn r => some r
  | _ => none

/-- In a stack, on top of which is a frame of the coroutine `above`: a
`run_one` that destroys its coroutine is right below its frame, or it
finds it at the final suspend point. -/
def Returns (coros : ℕ → Coro π V ε σ) : Option ℕ → Stack π V ε σ → Prop
  | _, [] => True
  | above, f :: below =>
      (∀ r, f = .runOne ⟨r, true⟩ → above = some r ∨ coros r = .recFinished) ∧
        Returns coros f.recCoro below

/-- A coroutine of `__rec_wait` polls for `y`, or will. -/
def Polled (s : Shared π V ε σ) (F : List (Frame π V ε σ)) (y : ℕ) : Prop :=
  (∃ r, s.coros r = .recWait y) ∨ ∃ r, .recWait r y ∈ F

structure OwnsRecs (s : Shared π V ε σ) (F : List (Frame π V ε σ)) : Prop where
  entries : ∀ e, .push e ∈ s.holders F → e.owning = true → ∃ y, s.coros e.coro = .recWait y
  polled : ∀ y, Polled s F y → s.coros y ≠ .destroyed

/-- The coroutine that a frame runs or is about to push. -/
def Frame.coro : Frame π V ε σ → Option ℕ
  | .push e => some e.coro
  | .exec c _ | .finish c _ | .test c _ _ | .take c _ _ | .resume c _ _ | .recWait c _
  | .recReturn c => some c
  | .runOne _ => none

/-- On top of the stack is a parent in `await_resume`, whose child has
ended with an exception. -/
def AwaitsThrown (coros : ℕ → Coro π V ε σ) (st : Stack π V ε σ) : Prop :=
  ∃ c child next below e, st = .resume c child next :: below ∧ coros child = .finished (.error e)

structure State.Lives (s : State π V ε σ) : Prop where
  kept : s.Kept
  owns : OwnsRecs s.shared s.workers.flatten
  returns : ∀ st ∈ s.workers, Returns s.shared.coros none st
  outcome : s.outcome = .running ∨
    s.outcome = .terminated ∧ ∃ st ∈ s.workers, AwaitsThrown s.shared.coros st

/-! ### Coroutines that go on -/

section

variable {coros coros' : ℕ → Coro π V ε σ} {c : ℕ} {x : Coro π V ε σ}

theorem GoOn.refl (coros : ℕ → Coro π V ε σ) : GoOn coros coros := fun _ => .inl rfl

theorem GoOn.update (h : GoOn coros coros') (hc : (coros c).Next x) :
    GoOn coros (Function.update coros' c x) := by
  intro d
  by_cases hd : d = c
  · subst hd
    rw [Function.update_self]
    exact .inr hc
  · rw [Function.update_of_ne hd]
    exact h d

/-- The same, for a coroutine of which the state is known. -/
theorem GoOn.set {x' : Coro π V ε σ} (hc : coros c = x) (hx : x.Next x') :
    GoOn coros (Function.update coros c x') :=
  (GoOn.refl coros).update (hc ▸ hx)

theorem GoOn.recWait (h : GoOn coros coros') {y : ℕ} (hc : coros c = .recWait y)
    {b : Body π V ε σ} : coros' c ≠ .start b := by
  intro hb
  rcases h c with hsame | hnext
  · rw [hsame, hc] at hb
    cases hb
  · rw [hc, hb] at hnext
    cases hnext

theorem GoOn.waiting (h : GoOn coros coros') {p : π} {next : Cont π V ε σ}
    (hc : coros c = .waiting p next) : coros' c ≠ .destroyed := by
  intro hd
  rcases h c with hsame | hnext
  · rw [hsame, hc] at hd
    cases hd
  · rw [hc, hd] at hnext
    cases hnext

/-- At its final suspend point a coroutine of `__rec_wait` stays until it
is destroyed. -/
theorem GoOn.recFinished (h : GoOn coros coros') (hc : coros c = .recFinished)
    (hd : coros' c ≠ .destroyed) : coros' c = .recFinished := by
  rcases h c with hsame | hnext
  · rw [hsame, hc]
  · rw [hc] at hnext
    generalize coros' c = x at hnext hd
    cases hnext
    exact absurd rfl hd

end

/-! ### One stack -/

section

variable {coros coros' : ℕ → Coro π V ε σ} {above above' : Option ℕ} {st : Stack π V ε σ}

theorem Returns.weaken (h : Returns coros above st)
    (habove : ∀ r, above = some r → above' = some r ∨ coros' r = .recFinished)
    (hsame : ∀ r, .runOne ⟨r, true⟩ ∈ st → coros r = .recFinished → coros' r = .recFinished) :
    Returns coros' above' st := by
  induction st generalizing above above' with
  | nil => trivial
  | cons f below ih =>
      refine ⟨fun r hf => ?_, ih h.2 (fun r hr => .inl hr) fun r hr => hsame r ?_⟩
      · rcases h.1 r hf with hr | hr
        · exact habove r hr
        · exact .inr (hsame r (hf ▸ List.mem_cons_self) hr)
      · exact List.mem_cons_of_mem _ hr

end

/-! ### One step of a worker -/

section

variable {poll : π → σ → Poll π V ε × σ} {s s' : Shared π V ε σ} {F F' rest : List (Frame π V ε σ)}
  {st st' : Stack π V ε σ}

/-- The frame that a coroutine of `__rec_wait` is in before it runs. -/
theorem Kept.push_of_recWait (h : Kept s F) {r y : ℕ} (hr : s.coros r = .recWait y) :
    ∃ e, .push e ∈ s.holders F ∧ e.coro = r := by
  have hmem : r ∈ (s.holders F).flatMap (Frame.names s.coros) := by
    refine List.count_pos_iff.1 ?_
    rw [h.names r, hr]
    exact Nat.one_pos
  have hnot : ∀ z, r ∉ waitingFor s.coros z := by
    intro z hz
    unfold waitingFor at hz
    split at hz
    case h_1 p next hw =>
      obtain rfl := List.mem_singleton.1 hz
      rw [hw] at hr
      cases hr
    case h_2 => exact absurd hz List.not_mem_nil
  obtain ⟨f, hf, hmem⟩ := List.mem_flatMap.1 hmem
  have halive := h.alive f hf
  cases f with
  | push e =>
      refine ⟨e, hf, ?_⟩
      simp only [Frame.names] at hmem
      split at hmem
      case h_1 z hz =>
        rcases List.mem_cons.1 hmem with heq | hmem
        · exact heq.symm
        · exact absurd hmem (hnot z)
      case h_2 => exact (List.mem_singleton.1 hmem).symm
  | runOne e => exact absurd hmem List.not_mem_nil
  | exec c b | finish c x =>
      obtain rfl := List.mem_singleton.1 hmem
      exact absurd (hr.symm.trans halive) (by simp)
  | test c child next | take c child next | resume c child next =>
      obtain rfl := List.mem_singleton.1 hmem
      exact absurd (hr.symm.trans halive.1) (by simp)
  | recWait r' z =>
      rcases List.mem_cons.1 hmem with rfl | hmem
      · exact absurd (hr.symm.trans halive.1) (by simp)
      · exact absurd hmem (hnot z)
  | recReturn r' =>
      obtain rfl := List.mem_singleton.1 hmem
      exact absurd (hr.symm.trans halive) (by simp)

theorem Kept.awaited (h : Kept s F) {y : ℕ} (hy : Polled s F y) : (s.coros y).Awaited := by
  rcases hy with ⟨r, hr⟩ | ⟨r, hr⟩
  · obtain ⟨e, he, rfl⟩ := h.push_of_recWait hr
    rcases h.alive _ he with ⟨b, hb⟩ | ⟨z, hz, ha⟩
    · rw [hb] at hr
      cases hr
    · rw [hz, Coro.recWait.injEq] at hr
      exact hr ▸ ha
  · exact (h.alive _ (List.mem_append_right _ hr)).2

/-- What a coroutine polls for is suspended in `LoopAwaitable`. -/
theorem OwnsRecs.waiting (h : OwnsRecs s F) (hk : Kept s F) {y : ℕ} (hy : Polled s F y) :
    ∃ p next, s.coros y = .waiting p next := by
  rcases hk.awaited hy with hw | hd
  · exact hw
  · exact absurd hd (h.polled y hy)

theorem OwnsRecs.of_goOn (h : OwnsRecs s F) (hk : Kept s F) (hk' : Kept s' F')
    (hgo : GoOn s.coros s'.coros)
    (hpush : ∀ e, .push e ∈ s'.holders F' → e.owning = true →
      .push e ∈ s.holders F ∨ ∃ y, s'.coros e.coro = .recWait y)
    (hpoll : ∀ y, Polled s' F' y → Polled s F y ∨ ∃ p next, s'.coros y = .waiting p next) :
    OwnsRecs s' F' := by
  refine ⟨fun e he ho => ?_, fun y hy => ?_⟩
  · rcases hpush e he ho with hold | hnew
    · obtain ⟨y, hy⟩ := h.entries e hold ho
      rcases hk'.alive _ he with ⟨b, hb⟩ | ⟨z, hz, -⟩
      · exact absurd hb (hgo.recWait hy)
      · exact ⟨z, hz⟩
    · exact hnew
  · rcases hpoll y hy with hold | ⟨p, next, hw⟩
    · obtain ⟨p, next, hw⟩ := h.waiting hk hold
      exact hgo.waiting hw
    · rw [hw]
      simp

theorem push_mem_holders {e : Entry} : .push e ∈ s.holders F ↔ e ∈ s.queue ∨ .push e ∈ F := by
  simp [Shared.holders]

theorem Runs.goOn {below : Stack π V ε σ} (h : Runs s below s' st) : GoOn s.coros s'.coros := by
  cases h with
  | start hq hc => exact GoOn.set hc (.start _)
  | recWait hq hc => exact GoOn.set hc (.startRec _)

theorem Trans.goOn (h : Trans poll s st s' st') (hk : Kept s (st ++ rest))
    (hr : Returns s.coros none st) : GoOn s.coros s'.coros := by
  have hfresh : s.coros s.created = .absent := hk.fresh _ (Nat.le_refl _)
  cases h with
  | idle | leave | push | pushFull | act | pollReady | pollThrew | complete | incomplete
  | exhausted => exact GoOn.refl _
  | run h | take h => exact h.goOn
  | @leaveOwned e below ho hc =>
      have hfinished : s.coros e.coro = .recFinished :=
        (hr.1 e.coro (by rw [← ho])).resolve_left nofun
      exact GoOn.set hfinished .destroyRec
  | @coReturn c | @throw c =>
      have hc : s.coros c = .running := hk.alive_top
      exact GoOn.set hc (.complete _)
  | @pollWaits c p p' next =>
      have hc : s.coros c = .running := hk.alive_top
      exact (GoOn.set hc (.wait p' next)).update (hfresh ▸ .createRec c)
  | await => exact GoOn.set hfresh (.create _)
  | @finish c r =>
      have hc : s.coros c = .completing r := hk.alive_top
      exact GoOn.set hc (.finish r)
  | awaitResume hc => exact GoOn.set hc (.destroy _)
  | recReady hc => exact GoOn.set hc (.ready _ _)
  | recThrew hc => exact GoOn.set hc (.threw _ _)
  | @recAgain r y p p' next w below hc =>
      exact (GoOn.set hc (.again p p' next)).update (hfresh ▸ .createRec y)
  | @recReturn r =>
      have hc : s.coros r = .recRunning := hk.alive_top
      exact GoOn.set hc .finishRec

/-- The entries that a step makes and that own their coroutines are those
of `__rec_wait`. -/
theorem Trans.entries (h : Trans poll s st s' st') {e : Entry}
    (he : .push e ∈ s'.holders (st' ++ rest)) (ho : e.owning = true) :
    .push e ∈ s.holders (st ++ rest) ∨ ∃ y, s'.coros e.coro = .recWait y := by
  rw [push_mem_holders] at he ⊢
  cases h with
  | run h | take h =>
      cases h with
      | start hq | recWait hq =>
          left
          simp only [Shared.setCoro_queue, Shared.setQueue_queue, List.cons_append,
            List.mem_cons, reduceCtorEq, false_or, List.mem_append] at he
          simp only [hq, List.mem_cons, List.cons_append, List.mem_append, reduceCtorEq, false_or]
          tauto
  | push =>
      left
      simp only [Shared.setQueue_queue, List.mem_append, List.mem_singleton] at he
      simp only [List.cons_append, List.mem_cons, Frame.push.injEq, List.mem_append]
      tauto
  | pollWaits | recAgain =>
      simp only [List.cons_append, List.mem_cons, Frame.push.injEq, Shared.create_queue,
        Shared.setCoro_queue, Shared.setWorld_queue, reduceCtorEq, false_or] at he ⊢
      rcases he with he | rfl | he
      · exact .inl (.inl he)
      · exact .inr ⟨_, Function.update_self _ _ _⟩
      · exact .inl (.inr he)
  | await =>
      left
      simp only [List.cons_append, List.mem_cons, Frame.push.injEq, Shared.create_queue,
        reduceCtorEq, false_or] at he ⊢
      rcases he with he | rfl | he
      · exact .inl he
      · cases ho
      · exact .inr he
  | idle | leave | leaveOwned | pushFull | coReturn | throw | act | pollReady | pollThrew | finish
  | complete | incomplete | exhausted | awaitResume | recReady | recThrew | recReturn =>
      left
      simpa using he

/-- A coroutine of `__rec_wait` is as it was, or it has been created. -/
theorem Trans.recWait_from (h : Trans poll s st s' st') (hk : Kept s (st ++ rest)) {r y : ℕ}
    (hr : s'.coros r = .recWait y) :
    s.coros r = .recWait y ∨ ∃ p next, s'.coros y = .waiting p next := by
  have hset : ∀ {c x}, Function.update s.coros c x r = .recWait y →
      s.coros r = .recWait y ∨ x = .recWait y := by
    intro c x hx
    by_cases hrc : r = c
    · subst hrc
      rw [Function.update_self] at hx
      exact .inr hx
    · rw [Function.update_of_ne hrc] at hx
      exact .inl hx
  have hold : ∀ {c x}, s'.coros = Function.update s.coros c x → (∀ z, x ≠ .recWait z) →
      s.coros r = .recWait y := by
    intro c x hcoros hx
    exact (hset (hcoros ▸ hr)).resolve_right (hx y)
  -- the coroutine that a new one polls for is suspended in the same step
  have hnew : ∀ {c p next}, s.coros c ≠ .absent → s'.coros = Function.update
      (Function.update s.coros c (.waiting p next)) s.created (.recWait c) →
      s.coros r = .recWait y ∨ ∃ p next, s'.coros y = .waiting p next := by
    intro c p next habsent hcoros
    have hne : c ≠ s.created := Nat.ne_of_lt (hk.lt_created habsent)
    rw [hcoros] at hr ⊢
    by_cases hrc : r = s.created
    · subst hrc
      rw [Function.update_self, Coro.recWait.injEq] at hr
      subst hr
      exact .inr ⟨p, next, by rw [Function.update_of_ne hne, Function.update_self]⟩
    · rw [Function.update_of_ne hrc] at hr
      exact .inl ((hset hr).resolve_right nofun)
  cases h with
  | idle | leave | push | pushFull | act | pollReady | pollThrew | complete | incomplete
  | exhausted => exact .inl hr
  | run h | take h => cases h <;> exact .inl (hold rfl nofun)
  | leaveOwned | coReturn | throw | finish | awaitResume | recReady | recThrew | recReturn
  | await => exact .inl (hold rfl nofun)
  | @pollWaits c =>
      have hc : s.coros c = .running := hk.alive_top
      exact hnew (by simp [hc]) rfl
  | recAgain hc => exact hnew (by simp [hc]) rfl

theorem Runs.recWait_mem {below : Stack π V ε σ} (h : Runs s below s' st) {r y : ℕ}
    (hr : .recWait r y ∈ st) : s.coros r = .recWait y ∨ .recWait r y ∈ below := by
  cases h with
  | start => exact .inr (by simpa using hr)
  | recWait hq hc =>
      simp only [List.mem_cons, Frame.recWait.injEq, reduceCtorEq, false_or] at hr
      rcases hr with ⟨rfl, rfl⟩ | hr
      · exact .inl hc
      · exact .inr hr

theorem Trans.recWait_mem (h : Trans poll s st s' st') {r y : ℕ} (hr : .recWait r y ∈ st') :
    s.coros r = .recWait y ∨ .recWait r y ∈ st := by
  cases h with
  | run h => exact h.recWait_mem hr
  | take h => exact (h.recWait_mem hr).imp_right fun hr => by simpa using hr
  | idle | pushFull => exact .inr hr
  | leave | leaveOwned | push | coReturn | throw | act | pollReady | pollThrew | pollWaits | await
  | finish | complete | incomplete | exhausted | awaitResume =>
      exact .inr (by simpa using hr)
  | recReady | recThrew | recAgain | recReturn =>
      exact .inr (List.mem_cons_of_mem _ (by simpa using hr))

theorem Trans.polled (h : Trans poll s st s' st') (hk : Kept s (st ++ rest)) {y : ℕ}
    (hy : Polled s' (st' ++ rest) y) :
    Polled s (st ++ rest) y ∨ ∃ p next, s'.coros y = .waiting p next := by
  rcases hy with ⟨r, hr⟩ | ⟨r, hr⟩
  · exact (h.recWait_from hk hr).imp_left fun hold => .inl ⟨r, hold⟩
  · left
    rcases List.mem_append.1 hr with hr | hr
    · rcases h.recWait_mem hr with hold | hold
      · exact .inl ⟨r, hold⟩
      · exact .inr ⟨r, List.mem_append_left _ hold⟩
    · exact .inr ⟨r, List.mem_append_right _ hr⟩

theorem Runs.returns {below : Stack π V ε σ} (h : Runs s below s' st)
    (hentries : ∀ e ∈ s.queue, e.owning = true → ∃ y, s.coros e.coro = .recWait y)
    (hbelow : Returns s'.coros none below) : Returns s'.coros none st := by
  cases h with
  | @start e q b hq hc =>
      refine ⟨nofun, fun r hr => ?_, hbelow⟩
      rw [Frame.runOne.injEq] at hr
      obtain ⟨y, hy⟩ := hentries e (hq ▸ List.mem_cons_self) (hr ▸ rfl)
      rw [hc] at hy
      cases hy
  | @recWait e q y hq hc =>
      refine ⟨nofun, fun r hr => .inl ?_, hbelow⟩
      rw [Frame.runOne.injEq] at hr
      exact congrArg some (hr ▸ rfl)

/-- The stack of the worker that moves. -/
theorem Trans.returns (h : Trans poll s st s' st') (ho : OwnsRecs s (st ++ rest))
    (hr : Returns s.coros none st) (hsame : ∀ r, .runOne ⟨r, true⟩ ∈ st' →
      s.coros r = .recFinished → s'.coros r = .recFinished) : Returns s'.coros none st' := by
  have hentries : ∀ e ∈ s.queue, e.owning = true → ∃ y, s.coros e.coro = .recWait y :=
    fun e he => ho.entries e (push_mem_holders.2 (.inl he))
  have hbelow : ∀ {above below}, below ⊆ st' → Returns s.coros above below →
      Returns s'.coros above below := by
    intro above below hsub hreturns
    exact hreturns.weaken (fun r hr => .inl hr) fun r hr => hsame r (hsub hr)
  cases h with
  | idle => trivial
  | run h => exact h.returns hentries trivial
  | @take c child next below _ _ h =>
      refine h.returns hentries ⟨nofun, hbelow (fun f hf => ?_) hr.2⟩
      cases h <;> simp [hf]
  | leave | leaveOwned | push | finish => exact hbelow (List.Subset.refl _) hr.2
  | pushFull => exact hr
  | coReturn | throw | act | pollReady | pollThrew | pollWaits | complete | incomplete | exhausted
  | awaitResume => exact ⟨nofun, hbelow (List.subset_cons_self _ _) hr.2⟩
  | await =>
      refine ⟨nofun, nofun, hbelow ?_ hr.2⟩
      simp
  | recThrew => exact ⟨nofun, hbelow (List.subset_cons_self _ _) hr.2⟩
  | recReady | recAgain =>
      refine ⟨nofun, nofun, hbelow ?_ hr.2⟩
      simp
  | @recReturn r below =>
      -- what its `run_one` is about to find
      refine hr.2.weaken (fun r' hr' => .inr ?_) fun r' hr' => hsame r' hr'
      obtain rfl := Option.some.inj hr'
      exact Function.update_self _ _ _

/-- Where a worker ends the program, an awaited child has thrown. -/
theorem workerStep_error {o : Outcome} (hk : Kept s (st ++ rest)) (ho : OwnsRecs s (st ++ rest))
    (hr : Returns s.coros none st) (h : workerStep poll s st = .error o) :
    o = .terminated ∧ AwaitsThrown s.coros st := by
  have hresume : ∀ {e q below}, s.queue = e :: q → s.runOne e q below ≠ .error o := by
    intro e q below hq herror
    have halive : (Frame.push e).Alive s.coros :=
      hk.alive _ (push_mem_holders.2 (.inl (hq ▸ List.mem_cons_self)))
    unfold Shared.runOne Shared.resume at herror
    rcases halive with ⟨b, hb⟩ | ⟨y, hy, -⟩
    · simp [hb] at herror
    · simp [hy] at herror
  cases st with
  | nil =>
      simp only [workerStep] at h
      split at h
      case h_1 => cases h
      case h_2 e q hq => exact absurd h (hresume hq)
  | cons f below =>
      cases f with
      | runOne e =>
          obtain ⟨c, o'⟩ := e
          cases o' with
          | false => simp [workerStep] at h
          | true =>
              have hc : s.coros c = .recFinished := (hr.1 c rfl).resolve_left (by simp)
              simp [workerStep, Shared.destroyOwned, hc] at h
      | push e =>
          simp only [workerStep] at h
          split at h <;> cases h
      | test c child next =>
          simp only [workerStep] at h
          split at h <;> cases h
      | take c child next =>
          simp only [workerStep] at h
          split at h
          case h_1 => cases h
          case h_2 e q hq => exact absurd h (hresume hq)
      | resume c child next =>
          obtain ⟨-, r, hchild⟩ : s.coros c = .running ∧ ∃ r, s.coros child = .finished r :=
            hk.alive_top
          cases r with
          | ok v => simp [workerStep, awaitResumeStep, hchild] at h
          | error e =>
              simp only [workerStep, awaitResumeStep, hchild, Except.error.injEq] at h
              exact ⟨h.symm, c, child, next, below, e, rfl, hchild⟩
      | recWait r y =>
          obtain ⟨p, next, hw⟩ := ho.waiting hk (y := y) (.inr ⟨r, List.mem_cons_self⟩)
          simp only [workerStep, recWaitStep, hw] at h
          split at h <;> cases h
      | exec | finish | recReturn => cases h

end

/-! ### Whole runs -/

section

variable {poll : π → σ → Poll π V ε × σ} {s t : State π V ε σ} {a : Label π V ε σ}

/-- What a `run_one` has found at its end stays there. -/
theorem Kept.recFinished {s s' : Shared π V ε σ} {F : List (Frame π V ε σ)} (hk : Kept s' F)
    (hgo : GoOn s.coros s'.coros) {r : ℕ} (hr : .runOne ⟨r, true⟩ ∈ F)
    (hc : s.coros r = .recFinished) : s'.coros r = .recFinished := by
  refine hgo.recFinished hc fun hd => ?_
  have hresumed : (s'.coros r).Resumed := hk.alive _ (List.mem_append_right _ hr) rfl
  rw [hd] at hresumed
  exact hresumed

theorem running_of_step (hs : step poll s a = some t) : s.outcome = .running := by
  cases a with
  | push | worker =>
      simp only [step] at hs
      split at hs
      case isTrue h => exact h
      case isFalse => cases hs

theorem State.Lives.goOn (h : s.Lives) (hs : step poll s a = some t) :
    GoOn s.shared.coros t.shared.coros := by
  cases step_trans hs with
  | push => exact GoOn.set (h.kept.fresh _ (Nat.le_refl _)) (.create _)
  | halt => exact GoOn.refl _
  | @goOn w st st' s' hw htrans =>
      have hkept : Workers.Kept s.shared (st ++ (s.workers.eraseIdx w).flatten) :=
        Workers.Kept.perm h.kept rfl rfl ((flatten_perm hw).symm.append_left _)
      exact htrans.goOn hkept (h.returns st (List.mem_of_getElem? hw))

theorem OwnsRecs.perm {s : Shared π V ε σ} {F F' : List (Frame π V ε σ)} (h : OwnsRecs s F)
    (hp : F'.Perm F) : OwnsRecs s F' where
  entries e he := by
    rw [push_mem_holders, hp.mem_iff, ← push_mem_holders] at he
    exact h.entries e he
  polled y hy := h.polled y (hy.imp_right fun ⟨r, hr⟩ => ⟨r, hp.mem_iff.1 hr⟩)

theorem State.Lives.step (h : s.Lives) (hs : step poll s a = some t) (hhand : NotInHand s a t)
    (ha : a.Unowned) : t.Lives := by
  have hrunning := running_of_step hs
  have hgo := h.goOn hs
  have hkept := h.kept.step hs hhand
  cases step_trans hs with
  | @push b owning hroom =>
      obtain rfl : owning = false := ha
      refine ⟨hkept, h.owns.of_goOn h.kept hkept hgo (fun e he ho => .inl ?_) fun y hy => .inl ?_,
        fun st hst => ?_, .inl hrunning⟩
      · rw [push_mem_holders] at he ⊢
        simp only [Shared.setQueue_queue, List.mem_append, List.mem_singleton] at he
        rcases he with (he | rfl) | he
        · exact .inl he
        · cases ho
        · exact .inr he
      · refine hy.imp_left fun ⟨r, hr⟩ => ⟨r, ?_⟩
        simp only [Shared.setQueue_coros, Shared.create_coros, Function.update_apply] at hr
        split at hr
        case isTrue => cases hr
        case isFalse => exact hr
      · exact (h.returns st hst).weaken (fun r hr => .inl hr) fun r hr =>
          Workers.Kept.recFinished hkept hgo (List.mem_flatten.2 ⟨st, hst, hr⟩)
  | @halt w st o hw herror =>
      have hp := flatten_perm hw
      have hbefore : Workers.Kept s.shared (st ++ (s.workers.eraseIdx w).flatten) :=
        Workers.Kept.perm h.kept rfl rfl (hp.symm.append_left _)
      have hmem := List.mem_of_getElem? hw
      obtain ⟨rfl, hthrown⟩ :=
        workerStep_error hbefore (h.owns.perm hp.symm) (h.returns st hmem) herror
      exact ⟨hkept, h.owns, h.returns, .inr ⟨rfl, st, hmem, hthrown⟩⟩
  | @goOn w st st' s' hw htrans =>
      have hp := flatten_perm hw
      have hlt : w < s.workers.length := (List.getElem?_eq_some_iff.1 hw).1
      have hp' := flatten_set_perm hlt st'
      have hbefore : Workers.Kept s.shared (st ++ (s.workers.eraseIdx w).flatten) :=
        Workers.Kept.perm h.kept rfl rfl (hp.symm.append_left _)
      have hafter : Workers.Kept s' (st' ++ (s.workers.eraseIdx w).flatten) :=
        Workers.Kept.perm hkept rfl rfl (hp'.symm.append_left _)
      have howns := h.owns.perm hp.symm
      have hsame : ∀ stack ∈ s.workers.set w st', ∀ r, .runOne ⟨r, true⟩ ∈ stack →
          s.shared.coros r = .recFinished → s'.coros r = .recFinished := fun stack hstack r hr =>
        Workers.Kept.recFinished hkept hgo (List.mem_flatten.2 ⟨stack, hstack, hr⟩)
      refine ⟨hkept, ?_, fun stack hstack => ?_, .inl hrunning⟩
      · refine OwnsRecs.perm ?_ hp'
        exact howns.of_goOn hbefore hafter hgo (fun e => htrans.entries)
          fun y => htrans.polled hbefore
      · rcases List.mem_or_eq_of_mem_set hstack with hother | rfl
        · exact (h.returns stack hother).weaken (fun r hr => .inl hr) (hsame stack hstack)
        · exact htrans.returns howns (h.returns st (List.mem_of_getElem? hw)) (hsame _ hstack)

theorem State.lives_init (capacity n : ℕ) (w : σ) :
    (init capacity n w : State π V ε σ).Lives := by
  refine ⟨State.kept_init capacity n w, ⟨fun e he => ?_, fun y hy => ?_⟩, fun st hst => ?_,
    .inl rfl⟩
  · rw [push_mem_holders] at he
    simp [init] at he
  · simp [init]
  · obtain rfl : st = [] := List.eq_of_mem_replicate hst
    trivial

/-- Every run in which no task is owned by the loop and no loop ends while
a worker has the child in hand. -/
theorem State.Lives.run {poll : π → σ → Poll π V ε × σ} {capacity n : ℕ} {w : σ}
    {as : List (Label π V ε σ)} (hunowned : ∀ a ∈ as, a.Unowned)
    (hhand : Along (Workers.step poll) NotInHand (init capacity n w) as)
    (hrun : Lib.run (Workers.step poll) (init capacity n w) as = some s) : s.Lives := by
  have hcond := along_and.2 ⟨hhand, along_of_labels hunowned _⟩
  exact run_invariant_of_along (fun s a t h hs hc => h.step hs hc.1 hc.2) hcond
    (State.lives_init capacity n w) hrun

end

instance (coros : ℕ → Coro π V ε σ) : (st : Stack π V ε σ) →
    Decidable (∀ c child next below, st = .resume c child next :: below →
      ∃ r, coros child = .finished r)
  | .resume _ child _ :: _ =>
      match hx : coros child with
      | .finished r => isTrue fun _ _ _ _ hst => by
          cases hst
          exact ⟨r, hx⟩
      | .absent | .start _ | .running | .completing _ | .waiting _ _ | .lost | .recWait _
      | .recRunning | .recFinished | .destroyed => isFalse fun h => by
          obtain ⟨r, hr⟩ := h _ _ _ _ rfl
          rw [hx] at hr
          cases hr
  | [] | .runOne _ :: _ | .push _ :: _ | .exec _ _ :: _ | .finish _ _ :: _ | .test _ _ _ :: _
  | .take _ _ _ :: _ | .recWait _ _ :: _ | .recReturn _ :: _ => isTrue nofun

instance (s : State π V ε σ) : Decidable (Sound s) :=
  inferInstanceAs (Decidable (∀ st ∈ s.workers, ∀ c child next below,
    st = .resume c child next :: below → ∃ r, s.shared.coros child = .finished r))

theorem State.Kept.notInHand_along {poll : π → σ → Poll π V ε × σ} {s : State π V ε σ}
    (h : s.Kept) {as : List (Label π V ε σ)}
    (hsound : Along (Workers.step poll) (fun _ _ t => Sound t) s as) :
    Along (Workers.step poll) NotInHand s as :=
  along_of_along (fun _ _ _ hs hstep ht => hs.step hstep (hs.notInHand hstep ht))
    (fun _ _ _ hs hstep ht => hs.notInHand hstep ht) hsound h

end JowiAsio.Workers

import JowiAsio.EventLoop.Transitions

/-!
Nested awaits on the call stack.

`TaskAwaitable` waits by calling `run_one` from inside the awaiting
coroutine, so the waiting loops of several tasks stand on top of each
other in the order in which the queue happened to run the tasks. A task
whose child is complete goes on only when the loops above its own have
returned, that is, when the tasks waiting there have got what they wait
for (`Held`). With semaphores that can be never (`Stuck`): the task that
would release a permit is held by the loop of a task that waits for it.

A task is held exactly if its child completed while another loop stood
above its own. The invariant behind this is about pairs of frames
(`Over`): a frame with more to do than to return stands above no loop
whose child is complete.
-/

namespace JowiAsio.EventLoop

open Lib

variable {π V ε σ : Type}

/-! ### The property and its condition -/

def Frame.IsAwaitLoop : Frame π V ε σ → Prop
  | .awaitLoop _ _ _ => True
  | _ => False

/-- The loop of a task whose awaited child is complete. -/
def Frame.Ripe (coros : ℕ → Coro π V ε σ) : Frame π V ε σ → Prop
  | .awaitLoop _ child _ => (coros child).Complete
  | _ => False

/-- Some task's awaited child is complete, and the loop of another task
stands above the loop of this task. -/
def Held (s : State π V ε σ) : Prop :=
  ∃ above g rest, s.stack = above ++ g :: rest ∧ g.Ripe s.coros ∧ ∃ f ∈ above, f.IsAwaitLoop

/-- `SemaAcquirePoller` on the semaphore `i`: `try_acquire`. The world
counts the permits of each semaphore. -/
def semaAcquire (V ε : Type) [Inhabited V] (i : ℕ) (permits : ℕ → ℕ) :
    Poll ℕ V ε × (ℕ → ℕ) :=
  match permits i with
  | 0 => (.notReady i, permits)
  | n + 1 => (.ready default, Function.update permits i n)

/-- `release()` of the semaphore `i`. -/
def release (i : ℕ) (permits : ℕ → ℕ) : ℕ → ℕ :=
  Function.update permits i (permits i + 1)

/-- A task is held, the topmost loop waits for a child that is not
complete, and every entry of the queue polls a semaphore without a
permit. -/
def Stuck (s : State ℕ V ε (ℕ → ℕ)) : Prop :=
  Held s ∧ (∃ c child next rest, s.stack = .awaitLoop c child next :: rest ∧
      ¬ (s.coros child).Complete) ∧
    ∀ e ∈ s.queue, ∃ h i next, s.coros e.coro = .recWait h ∧ s.coros h = .waiting i next ∧
      s.world i = 0

/-- The condition on a step: a task that completes while another one
awaits it completes under the topmost loop of the stack. -/
def FinishesOnTop (s : State π V ε σ) (_ : Unit) (_ : State π V ε σ) : Prop :=
  ∀ c b above d next rest, s.stack = .exec c b :: (above ++ .awaitLoop d c next :: rest) →
    b.result.isSome → ∀ f ∈ above, ¬ f.IsAwaitLoop

/-! ### The order of the frames -/

/-- The frames that stand below others: the two loops, and what returns
to them. -/
def Frame.Waits : Frame π V ε σ → Prop
  | .runForever | .runOne _ | .awaitLoop _ _ _ | .recReturn _ => True
  | _ => False

/-- The frames with nothing left to do but to return. -/
def Frame.Returns : Frame π V ε σ → Prop
  | .runOne _ | .recReturn _ => True
  | _ => False

/-- `f` may stand above `g`: `run_forever` is at the bottom, and what
stands below another frame waits for it. -/
def Under (f g : Frame π V ε σ) : Prop := f ≠ .runForever ∧ g.Waits

def Over (coros : ℕ → Coro π V ε σ) (f g : Frame π V ε σ) : Prop := f.Returns ∨ ¬ g.Ripe coros

structure Ordered (s : State π V ε σ) : Prop where
  under : s.stack.Pairwise Under
  above : s.stack.Pairwise (Over s.coros)

theorem Loops.waits {coros : ℕ → Coro π V ε σ} {f : Frame π V ε σ} (h : Loops coros f) :
    f.Waits := by
  cases f <;> trivial

theorem Loops.not_ripe {coros : ℕ → Coro π V ε σ} {f : Frame π V ε σ} (h : Loops coros f) :
    ¬ f.Ripe coros := by
  cases f <;> first | exact h | exact id

theorem Loops.not_returns {coros : ℕ → Coro π V ε σ} {f : Frame π V ε σ} (h : Loops coros f) :
    ¬ f.Returns := by
  cases f <;> first | exact id | exact absurd h id

theorem Under.waits {f : Frame π V ε σ} {rest : Stack π V ε σ}
    (h : (f :: rest).Pairwise Under) : ∀ g ∈ rest, g.Waits :=
  fun g hg => ((List.pairwise_cons.1 h).1 g hg).2

/-- A frame entered above frames that wait. -/
theorem Under.enter {f : Frame π V ε σ} {rest : Stack π V ε σ} (hf : f ≠ .runForever)
    (hw : ∀ g ∈ rest, g.Waits) (h : rest.Pairwise Under) : (f :: rest).Pairwise Under :=
  List.pairwise_cons.2 ⟨fun g hg => ⟨hf, hw g hg⟩, h⟩

/-- A frame above `f` and above what `f` stands on. -/
theorem waits_cons {f : Frame π V ε σ} {rest : Stack π V ε σ} (hf : f.Waits)
    (h : ∀ g ∈ rest, g.Waits) : ∀ g ∈ f :: rest, g.Waits :=
  List.forall_mem_cons.2 ⟨hf, h⟩

section

variable {coros coros' : ℕ → Coro π V ε σ}

/-- Completing no task makes no loop ripe. -/
theorem Frame.Ripe.mono (h : ∀ c, (coros' c).Complete → (coros c).Complete)
    {f : Frame π V ε σ} (hf : f.Ripe coros') : f.Ripe coros := by
  cases f <;> first | exact h _ hf | exact hf

theorem Over.mono (h : ∀ c, (coros' c).Complete → (coros c).Complete) {l : Stack π V ε σ}
    (hl : l.Pairwise (Over coros)) : l.Pairwise (Over coros') :=
  hl.imp fun hfg => hfg.imp_right fun hg hg' => hg (hg'.mono h)

theorem finished_update {c d : ℕ} {x : Coro π V ε σ} {r : Except ε V} (hx : ¬ x.Complete)
    (h : Function.update coros c x d = .finished r) : coros d = .finished r := by
  rcases eq_or_ne d c with rfl | hne
  · rw [Function.update_self] at h
    exact absurd ⟨r, h⟩ hx
  · rwa [Function.update_of_ne hne] at h

/-- Below a frame with more to do than to return no loop is ripe. -/
theorem Over.unripe {f : Frame π V ε σ} {rest : Stack π V ε σ}
    (h : (f :: rest).Pairwise (Over coros)) (hf : ¬ f.Returns) : ∀ g ∈ rest, ¬ g.Ripe coros :=
  fun g hg => ((List.pairwise_cons.1 h).1 g hg).resolve_left hf

theorem unripe_cons {f : Frame π V ε σ} {rest : Stack π V ε σ} (hf : ¬ f.Ripe coros)
    (h : ∀ g ∈ rest, ¬ g.Ripe coros) : ∀ g ∈ f :: rest, ¬ g.Ripe coros :=
  List.forall_mem_cons.2 ⟨hf, h⟩

theorem Over.enter {f : Frame π V ε σ} {rest : Stack π V ε σ}
    (hr : ∀ g ∈ rest, ¬ g.Ripe coros) (h : rest.Pairwise (Over coros)) :
    (f :: rest).Pairwise (Over coros) :=
  List.pairwise_cons.2 ⟨fun g hg => .inr (hr g hg), h⟩

theorem Over.enter_returns {f : Frame π V ε σ} {rest : Stack π V ε σ} (hf : f.Returns)
    (h : rest.Pairwise (Over coros)) : (f :: rest).Pairwise (Over coros) :=
  List.pairwise_cons.2 ⟨fun _ _ => .inl hf, h⟩

end

/-- A relation between each element of a list and those before it. -/
theorem pairwise_of_split {α : Type} {R : α → α → Prop} {l : List α}
    (h : ∀ above g below, l = above ++ g :: below → ∀ f ∈ above, R f g) : l.Pairwise R := by
  induction l with
  | nil => exact List.Pairwise.nil
  | cons a l ih =>
      refine List.pairwise_cons.2 ⟨fun g hg => ?_, ih fun above g below hl f hf => ?_⟩
      · obtain ⟨above, below, rfl⟩ := List.append_of_mem hg
        exact h (a :: above) g below rfl a List.mem_cons_self
      · exact h (a :: above) g below (by rw [hl]; rfl) f (List.mem_cons_of_mem a hf)

/-! ### Deciding the condition -/

instance : (f : Frame π V ε σ) → Decidable f.IsAwaitLoop
  | .awaitLoop _ _ _ => isTrue trivial
  | .runForever | .runOne _ | .push _ | .exec _ _ | .recWait _ _ | .recReturn _ => isFalse id

/-- The loop of a task that awaits `c`. -/
def Frame.AwaitLoopOf (c : ℕ) : Frame π V ε σ → Prop
  | .awaitLoop _ child _ => child = c
  | _ => False

instance (c : ℕ) : (f : Frame π V ε σ) → Decidable (f.AwaitLoopOf c)
  | .awaitLoop _ child _ => inferInstanceAs (Decidable (child = c))
  | .runForever | .runOne _ | .push _ | .exec _ _ | .recWait _ _ | .recReturn _ => isFalse id

/-- `FinishesOnTop` as a condition on the pairs of frames below the task
that completes. -/
def CompletesOnTop : Stack π V ε σ → Prop
  | .exec c b :: rest =>
      b.result.isSome → rest.Pairwise fun f g => g.AwaitLoopOf c → ¬ f.IsAwaitLoop
  | _ => True

instance : (stack : Stack π V ε σ) → Decidable (CompletesOnTop stack)
  | .exec c b :: rest => inferInstanceAs (Decidable
      (b.result.isSome → rest.Pairwise fun f g => g.AwaitLoopOf c → ¬ f.IsAwaitLoop))
  | [] | .runForever :: _ | .runOne _ :: _ | .push _ :: _ | .awaitLoop _ _ _ :: _
  | .recWait _ _ :: _ | .recReturn _ :: _ => isTrue trivial

/-- Two frames of a list, one before the other. -/
theorem pairwise_split {α : Type} {R : α → α → Prop} {above below : List α} {g : α}
    (h : (above ++ g :: below).Pairwise R) : ∀ f ∈ above, R f g :=
  fun f hf => (List.pairwise_append.1 h).2.2 f hf g List.mem_cons_self

theorem completesOnTop_iff {s t : State π V ε σ} {a : Unit} :
    CompletesOnTop s.stack ↔ FinishesOnTop s a t := by
  constructor
  · intro h c b above d next rest ht hb
    rw [ht] at h
    exact fun f hf => pairwise_split (h hb) f hf rfl
  · intro h
    unfold CompletesOnTop
    split
    · next c b rest ht =>
        refine fun hb => pairwise_of_split fun above g below hsplit f hf hg => ?_
        subst hsplit
        cases g with
        | awaitLoop d child next =>
            obtain rfl : child = c := hg
            exact h child b above d next below ht hb f hf
        | _ => exact absurd hg id
    · trivial

instance (s : State π V ε σ) (a : Unit) (t : State π V ε σ) : Decidable (FinishesOnTop s a t) :=
  decidable_of_iff _ completesOnTop_iff

/-! ### One step -/

section

variable {poll : π → σ → Poll π V ε × σ} {s s' : State π V ε σ}

theorem under_step (h : s.stack.Pairwise Under) (hs : Trans poll s s') :
    s'.stack.Pairwise Under := by
  cases hs with
  | enqueue ht | leaveOwned ht | leave ht | finish ht | recReturn ht =>
      rw [ht] at h
      exact h.of_cons
  | spin ht => exact h
  | runTask ht hf | runRec ht hf =>
      rw [ht] at h
      have hw := waits_cons hf.waits (Under.waits h)
      simp only [State.enter_stack, State.setCoro_stack, State.setQueue_stack, ht]
      exact Under.enter (by simp) (waits_cons trivial hw) (Under.enter (by simp) hw h)
  | runBad | returned | awaitEmpty | terminated | recBad => exact List.Pairwise.nil
  | resumed ht | act ht | pollReady ht | pollThrew ht | pollLater ht | recThrew ht =>
      rw [ht] at h
      exact Under.enter (by simp) (Under.waits h) h.of_cons
  | await ht | recReady ht | recLater ht =>
      rw [ht] at h
      exact Under.enter (by simp) (waits_cons trivial (Under.waits h))
        (Under.enter (by simp) (Under.waits h) h.of_cons)

/-- A step either is the end of a task or ends none. -/
theorem finish_or_not (hs : Trans poll s s') :
    (∃ c b r rest, s.stack = .exec c b :: rest ∧ b.result = some r ∧
      s' = (s.below rest).setCoro c (.finished r)) ∨
    ∀ c b r rest, s.stack = .exec c b :: rest → b.result ≠ some r := by
  cases hs with
  | finish ht hb => exact .inl ⟨_, _, _, _, ht, hb, rfl⟩
  | @runTask f rest _ _ _ ht hl | @runRec f rest _ _ _ ht hl | @runBad f rest _ _ ht hl =>
      refine .inr fun c b r rest' ht' => ?_
      obtain ⟨rfl, -⟩ := List.cons.inj (ht.symm.trans ht')
      exact absurd hl id
  | enqueue ht | spin ht | returned ht | awaitEmpty ht | resumed ht | terminated ht
  | leaveOwned ht | leave ht | act ht | pollReady ht | pollThrew ht | pollLater ht | await ht
  | recReady ht | recThrew ht | recLater ht | recBad ht | recReturn ht =>
      refine .inr fun c b r rest' ht' => ?_
      simp only [ht, List.cons.injEq, Frame.exec.injEq, reduceCtorEq, false_and] at ht'
      try (obtain ⟨⟨rfl, rfl⟩, rfl⟩ := ht'; simp [Body.result])

/-- Only the end of a task makes one complete. -/
theorem finished_step (hs : Trans poll s s') (hf : ∀ c b r rest, s.stack = .exec c b :: rest →
    b.result ≠ some r) {c : ℕ} {r : Except ε V} (hc : s'.coros c = .finished r) :
    s.coros c = .finished r := by
  cases hs with
  | enqueue | spin | leave | act | pollReady | pollThrew | recThrew | runBad | returned
  | awaitEmpty | terminated | recBad => exact hc
  | runTask | runRec | leaveOwned | recReturn | resumed | recReady | await =>
      exact finished_update (by simp [Coro.Complete]) hc
  | pollLater | recLater =>
      exact finished_update (by simp [Coro.Complete])
        (finished_update (by simp [Coro.Complete]) hc)
  | finish ht hb => exact absurd hb (hf _ _ _ _ ht)

/-- A step that ends no task keeps the order of the frames. -/
theorem over_step_of_not_finish (h : s.stack.Pairwise (Over s.coros)) (hs : Trans poll s s')
    (hf : ∀ c b r rest, s.stack = .exec c b :: rest → b.result ≠ some r) :
    s'.stack.Pairwise (Over s'.coros) := by
  have hmono : ∀ c, (s'.coros c).Complete → (s.coros c).Complete :=
    fun c ⟨r, hr⟩ => ⟨r, finished_step hs hf hr⟩
  cases hs with
  | enqueue ht | leave ht | leaveOwned ht | recReturn ht =>
      rw [ht] at h
      exact Over.mono hmono h.of_cons
  | spin ht => exact h
  | runTask ht hl | runRec ht hl =>
      rw [ht] at h
      -- the topmost loop waits still, so it is not ripe, and it has more to do than to return
      have hr := unripe_cons hl.not_ripe (Over.unripe h hl.not_returns)
      refine Over.mono hmono ?_
      simp only [State.enter_stack, State.setCoro_stack, State.setQueue_stack, ht]
      exact Over.enter (unripe_cons id hr) (Over.enter_returns trivial h)
  | runBad | returned | awaitEmpty | terminated | recBad => exact List.Pairwise.nil
  | act ht | pollReady ht | pollThrew ht | resumed ht | pollLater ht =>
      rw [ht] at h
      exact Over.mono hmono (Over.enter (Over.unripe h id) h.of_cons)
  | recThrew ht =>
      rw [ht] at h
      exact Over.mono hmono (Over.enter_returns trivial h.of_cons)
  | recReady ht | recLater ht =>
      rw [ht] at h
      exact Over.mono hmono (Over.enter (unripe_cons id (Over.unripe h id))
        (Over.enter_returns trivial h.of_cons))
  | @await rest c child next ht =>
      rw [ht] at h
      have hr : ∀ g ∈ rest, ¬ Frame.Ripe (Function.update s.coros s.created (.start child)) g :=
        fun g hg hg' => Over.unripe h id g hg (hg'.mono hmono)
      have hnew : ¬ Frame.Ripe (Function.update s.coros s.created (.start child))
          (.awaitLoop c s.created next) := by
        simp [Frame.Ripe, Coro.Complete]
      exact Over.enter (unripe_cons hnew hr) (Over.enter hr (Over.mono hmono h.of_cons))
  | finish ht hb => exact absurd hb (hf _ _ _ _ ht)

/-- The end of a task that another one awaits under the topmost loop:
only returns stand between the two. -/
theorem over_step_of_finish (h : Ordered s) {c : ℕ} {b : Body π V ε σ} {r : Except ε V}
    {rest : Stack π V ε σ} (ht : s.stack = .exec c b :: rest) (hb : b.result = some r)
    (hk : FinishesOnTop s () s') :
    rest.Pairwise (Over (Function.update s.coros c (.finished r))) := by
  obtain ⟨hunder, hover⟩ := h
  rw [ht] at hunder hover
  refine pairwise_of_split fun above g below hsplit f hf => ?_
  subst hsplit
  refine or_iff_not_imp_right.2 fun hripe => ?_
  rw [not_not] at hripe
  cases g with
  | awaitLoop d child next =>
      -- it is this step that has made the loop ripe, so it waits for `c`
      have hchild : child = c := by
        by_contra hne
        have hold : (s.coros child).Complete := by
          simpa [Frame.Ripe, Function.update_of_ne hne] using hripe
        exact Over.unripe hover id (.awaitLoop d child next) (by simp) hold
      subst hchild
      have hloop := hk child b above d next below ht (by simp [hb]) f hf
      have hwaits := Under.waits hunder f (List.mem_append_left _ hf)
      have hbottom : f ≠ .runForever :=
        (pairwise_split hunder.of_cons f hf).1
      cases f <;> trivial
  | _ => exact absurd hripe id

theorem ordered_step (h : Ordered s) (hs : Trans poll s s') (hk : FinishesOnTop s () s') :
    Ordered s' := by
  refine ⟨under_step h.under hs, ?_⟩
  rcases finish_or_not hs with ⟨c, b, r, rest, ht, hb, rfl⟩ | hf
  · exact over_step_of_finish h ht hb hk
  · exact over_step_of_not_finish h.above hs hf

/-- In the order of the frames no task is held. -/
theorem Ordered.not_held (h : Ordered s) : ¬ Held s := by
  rintro ⟨above, g, rest, hsplit, hripe, f, hf, hloop⟩
  have hover := h.above
  rw [hsplit] at hover
  rcases pairwise_split hover f hf with hreturns | hunripe
  · cases f <;> trivial
  · exact hunripe hripe

/-- A task that completes under another loop leaves its parent held. -/
theorem finishesOnTop_of_not_held (hs : Trans poll s s') (h : ¬ Held s') :
    FinishesOnTop s () s' := by
  intro c b above d next rest ht hb f hf hloop
  rcases finish_or_not hs with ⟨c', b', r, rest', ht', -, rfl⟩ | hnot
  · rw [ht, List.cons.injEq, Frame.exec.injEq] at ht'
    obtain ⟨⟨rfl, rfl⟩, rfl⟩ := ht'
    refine h ⟨above, .awaitLoop d c next, rest, rfl, ⟨r, ?_⟩, f, hf, hloop⟩
    simp
  · obtain ⟨r, hr⟩ := Option.isSome_iff_exists.1 hb
    exact hnot c b r _ ht hr

end

/-! ### Whole runs -/

theorem ordered_parallelExpected {capacity : ℕ} {w : σ} {ts : List (Body π V ε σ)}
    {s₀ : State π V ε σ} (h : parallelExpected capacity w ts = some s₀) : Ordered s₀ := by
  obtain ⟨q, -, rfl⟩ := Option.map_eq_some_iff.1 h
  exact ⟨List.pairwise_singleton _ _, List.pairwise_singleton _ _⟩

/-- No task is held in any state of a run if and only if every awaited
task completes under the topmost loop. -/
theorem Ordered.along_iff {poll : π → σ → Poll π V ε × σ} {s : State π V ε σ} (h : Ordered s)
    (as : List Unit) :
    Along (step poll) FinishesOnTop s as ↔ Visits (step poll) (fun s => ¬ Held s) s as := by
  induction as generalizing s with
  | nil => exact ⟨fun _ => h.not_held, fun _ => trivial⟩
  | cons a as ih =>
      constructor
      · refine fun halong => ⟨h.not_held, fun t ht => ?_⟩
        obtain ⟨hk, hrest⟩ := halong t ht
        exact (ih (ordered_step h (step_trans ht) hk)).1 hrest
      · rintro ⟨-, hvisits⟩ t ht
        have hk := finishesOnTop_of_not_held (step_trans ht) (hvisits t ht).head
        exact ⟨hk, (ih (ordered_step h (step_trans ht) hk)).2 (hvisits t ht)⟩

/-- For tasks that await semaphores and each other: no complete child
leaves its parent waiting for another task if and only if every awaited
task completes under the topmost loop, and then no run gets stuck. -/
theorem awaits_never_stuck [Inhabited V] {capacity : ℕ} {permits : ℕ → ℕ}
    {ts : List (Body ℕ V ε (ℕ → ℕ))} {s₀ : State ℕ V ε (ℕ → ℕ)}
    (h : parallelExpected capacity permits ts = some s₀) (as : List Unit) :
    (Along (step (semaAcquire V ε)) FinishesOnTop s₀ as ↔
        Visits (step (semaAcquire V ε)) (fun s => ¬ Held s) s₀ as) ∧
      (Along (step (semaAcquire V ε)) FinishesOnTop s₀ as →
        Visits (step (semaAcquire V ε)) (fun s => ¬ Stuck s) s₀ as) := by
  have hordered := ordered_parallelExpected h
  refine ⟨hordered.along_iff as, fun halong => ?_⟩
  exact visits_of_along (I := Ordered) (fun s a t hs ht hk => ordered_step hs (step_trans ht) hk)
    (fun s (hs : Ordered s) (hstuck : Stuck s) => hs.not_held hstuck.1) halong hordered

/-- Two tasks. The first awaits a child that returns at once and then
releases the semaphore; the second awaits a child that acquires it. -/
def releaseAfterAwait : List (Body ℕ Unit Unit (ℕ → ℕ)) :=
  [.await (.coReturn ()) fun _ => .act (release 0) (.coReturn ()),
    .await (.poll 0 fun _ => .coReturn ()) fun _ => .coReturn ()]

/-- In the other order the task that acquires waits below: the run of 26
steps ends with both tasks complete, and on the way no child completes
under another loop. -/
theorem awaits_never_stuck_acquireFirst : ∃ s₀ t : State ℕ Unit Unit (ℕ → ℕ),
    parallelExpected 8 (fun _ => 0) releaseAfterAwait.reverse = some s₀ ∧
      run (step (semaAcquire Unit Unit)) s₀ (List.replicate 26 ()) = some t ∧
      t.outcome = .returned ∧ t.coros 0 = .finished (.ok ()) ∧ t.coros 1 = .finished (.ok ()) ∧
      Visits (step (semaAcquire Unit Unit)) (fun s => ¬ Held s) s₀ (List.replicate 26 ()) ∧
      Visits (step (semaAcquire Unit Unit)) (fun s => ¬ Stuck s) s₀ (List.replicate 26 ()) := by
  obtain ⟨s₀, h, t, hrun, houtcome, h₀, h₁, halong⟩ : ∃ s₀ : State ℕ Unit Unit (ℕ → ℕ),
      parallelExpected 8 (fun _ => 0) releaseAfterAwait.reverse = some s₀ ∧
        ∃ t, run (step (semaAcquire Unit Unit)) s₀ (List.replicate 26 ()) = some t ∧
          t.outcome = .returned ∧ t.coros 0 = .finished (.ok ()) ∧
          t.coros 1 = .finished (.ok ()) ∧
          Along (step (semaAcquire Unit Unit)) FinishesOnTop s₀ (List.replicate 26 ()) :=
    ⟨_, rfl, _, rfl, rfl, rfl, rfl, by decide⟩
  obtain ⟨hiff, hnever⟩ := awaits_never_stuck h (List.replicate 26 ())
  exact ⟨s₀, t, h, hrun, houtcome, h₀, h₁, hiff.1 halong, hnever halong⟩

/-- Without a permit: after thirteen steps the first task's child is
complete, and the loop of the second task stands above that of the first. -/
theorem releaseAfterAwait_run : ∃ s₀ t : State ℕ Unit Unit (ℕ → ℕ),
    parallelExpected 8 (fun _ => 0) releaseAfterAwait = some s₀ ∧
      run (step (semaAcquire Unit Unit)) s₀ (List.replicate 13 ()) = some t ∧
      t.stack = [.awaitLoop 1 3 fun _ => .coReturn (), .runOne ⟨1, false⟩,
        .awaitLoop 0 2 fun _ => .act (release 0) (.coReturn ()), .runOne ⟨0, false⟩,
        .runForever] ∧
      t.coros 2 = .finished (.ok ()) ∧ t.coros 3 = .waiting 0 (fun _ => .coReturn ()) ∧
      t.coros 4 = .recWait 3 ∧ t.queue = [⟨4, true⟩] ∧ t.world 0 = 0 :=
  ⟨_, _, rfl, rfl, rfl, rfl, rfl, rfl, rfl, rfl⟩

/-- The task that waits for the permit holds the one that would release
it. -/
theorem release_held_by_acquire :
    ¬ ∀ (permits : ℕ → ℕ) (ts : List (Body ℕ Unit Unit (ℕ → ℕ)))
      (s₀ : State ℕ Unit Unit (ℕ → ℕ)) (as : List Unit),
      parallelExpected 8 permits ts = some s₀ →
        Visits (step (semaAcquire Unit Unit)) (fun s => ¬ Stuck s) s₀ as := by
  intro h
  obtain ⟨s₀, t, hs₀, hrun, hstack, hchild, hwaiting, hrec, hqueue, hworld⟩ :=
    releaseAfterAwait_run
  refine (h _ _ _ _ hs₀).last hrun ⟨?_, ⟨1, 3, _, _, hstack, ?_⟩, fun e he => ?_⟩
  · exact ⟨[_, _], _, _, hstack, ⟨.ok (), hchild⟩, _, List.mem_cons_self, trivial⟩
  · rw [hwaiting]
    simp [Coro.Complete]
  · rw [hqueue, List.mem_singleton] at he
    subst he
    exact ⟨3, 0, _, hrec, hwaiting, hworld⟩

end JowiAsio.EventLoop

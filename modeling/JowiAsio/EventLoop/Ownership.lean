import JowiAsio.EventLoop.Lifetimes
import JowiAsio.EventLoop.Results

/-!
The loop as the owner of the coroutines that are pushed to it.

Anyone may push a new coroutine at any time, with either value of
`is_owning`, and `run_one` is called whenever nothing runs. A coroutine
that is pushed as owning belongs to its entry in the queue, then to the
`run_one` that took the entry, which destroys it when `resume` returns.
That is right when the coroutine has finished by then. When it has only
been suspended by a poll, it is destroyed while a coroutine of
`__rec_wait` in the queue is about to resume it.
-/

namespace JowiAsio.EventLoop

open Lib

variable {π V ε σ : Type}

/-! ### The loop and its users -/

/-- `push` and `apush` of a coroutine that is about to do `b`, a call of
`run_one` from outside the loop, and a step of the thread inside it. -/
inductive Label (π V ε σ : Type)
  | push (b : Body π V ε σ) (owning : Bool)
  | runOne
  | thread

/-- The loop, all that has been pushed to it so far, and the coroutines
that `run_one` has destroyed. -/
structure Loop (π V ε σ : Type) where
  state : State π V ε σ
  pushed : List Entry
  destroyed : List ℕ

/-- A coroutine is created. -/
def State.spawn (s : State π V ε σ) (b : Body π V ε σ) : State π V ε σ :=
  { s with
    coros := Function.update s.coros s.created (.start b)
    created := s.created + 1 }

/-- A push that finds room. -/
def State.push (s : State π V ε σ) (b : Body π V ε σ) (owning : Bool) :
    Option (State π V ε σ) :=
  (Fifo.push (s.capacity - 1) s.queue ⟨s.created, owning⟩).map fun q => (s.spawn b).setQueue q

/-- What the step to `s'` creates and pushes: the child of a
`TaskAwaitable`, or a coroutine of `__rec_wait`. -/
def State.pushes (s s' : State π V ε σ) : List Entry :=
  if s'.created = s.created then []
  else
    match s'.stack with
    | .push e :: _ => [e]
    | _ => []

/-- What is destroyed when `run_one` returns. -/
def State.runOneDestroys (s : State π V ε σ) : List ℕ :=
  match s.stack with
  | .runOne e :: _ => e.owns
  | _ => []

def Loop.step (poll : π → σ → Poll π V ε × σ) (l : Loop π V ε σ) (a : Label π V ε σ) :
    Option (Loop π V ε σ) :=
  if l.state.outcome = .running then
    match a with
    | .push b owning => (l.state.push b owning).map fun s =>
        ⟨s, l.pushed ++ [⟨l.state.created, owning⟩], l.destroyed⟩
    | .runOne =>
        if l.state.stack.isEmpty then l.state.runOne.map fun s => { l with state := s } else none
    | .thread => (EventLoop.step poll l.state ()).map fun s =>
        ⟨s, l.pushed ++ l.state.pushes s, l.destroyed ++ l.state.runOneDestroys⟩
  else none

def Loop.init (capacity : ℕ) (w : σ) : Loop π V ε σ :=
  ⟨⟨fun _ => .absent, 0, [], capacity, [], w, .running⟩, [], []⟩

/-- The destructor of the loop destroys the coroutines of the owning
entries in its queue. -/
def Loop.destroy (l : Loop π V ε σ) : List ℕ := l.state.queue.flatMap Entry.owns

/-! ### What a step resumes and destroys -/

/-- The head of the queue, which `run_one` resumes. -/
def State.next (s : State π V ε σ) : List ℕ := (s.queue.map Entry.coro).take 1

/-- The coroutines that a step runs or resumes. -/
def Loop.resumes (l : Loop π V ε σ) : Label π V ε σ → List ℕ
  | .push _ _ => []
  | .runOne => l.state.next
  | .thread =>
      match l.state.stack with
      | .exec c _ :: _ => [c]
      | .recWait r h :: _ => [r, h]
      | .recReturn r :: _ => [r]
      | .awaitLoop c _ _ :: _ => c :: l.state.next
      | .runForever :: _ => l.state.next
      | _ => []

/-- No step runs or resumes a coroutine that has been destroyed, and
`run_one` destroys a coroutine only at its final suspend point. -/
def DestroysEnded (l : Loop π V ε σ) (a : Label π V ε σ) (l' : Loop π V ε σ) : Prop :=
  (∀ c ∈ l.resumes a, l.state.coros c ≠ .destroyed) ∧
    ∀ c, l'.destroyed = l.destroyed ++ [c] → (l.state.coros c).Ended

/-- The condition on a step: a coroutine that has been pushed as owning is
not suspended by a poll. -/
def FinishesWhenOwned (poll : π → σ → Poll π V ε × σ) (l : Loop π V ε σ) (_ : Label π V ε σ)
    (_ : Loop π V ε σ) : Prop :=
  ∀ c p next rest p' w, l.state.stack = .exec c (.poll p next) :: rest →
    poll p l.state.world = (.notReady p', w) → ⟨c, true⟩ ∉ l.pushed

/-- The coroutine that the next step suspends in a poll. -/
def State.suspends (poll : π → σ → Poll π V ε × σ) (s : State π V ε σ) : List ℕ :=
  match s.stack with
  | .exec c (.poll p _) :: _ =>
      match poll p s.world with
      | (.notReady _, _) => [c]
      | _ => []
  | _ => []

theorem mem_suspends {poll : π → σ → Poll π V ε × σ} {s : State π V ε σ} {c : ℕ} :
    c ∈ s.suspends poll ↔ ∃ p next rest p' w, s.stack = .exec c (.poll p next) :: rest ∧
      poll p s.world = (.notReady p', w) := by
  constructor
  · intro h
    unfold State.suspends at h
    split at h
    · next d p next rest ht =>
        split at h
        · next p' w hp =>
            obtain rfl := List.mem_singleton.1 h
            exact ⟨p, next, rest, p', w, ht, hp⟩
        · cases h
    · cases h
  · rintro ⟨p, next, rest, p', w, ht, hp⟩
    simp [State.suspends, ht, hp]

instance (poll : π → σ → Poll π V ε × σ) (l : Loop π V ε σ) (a : Label π V ε σ)
    (l' : Loop π V ε σ) : Decidable (FinishesWhenOwned poll l a l') :=
  decidable_of_iff (∀ c ∈ l.state.suspends poll, ⟨c, true⟩ ∉ l.pushed)
    ⟨fun h c p next rest p' w ht hp => h c (mem_suspends.2 ⟨p, next, rest, p', w, ht, hp⟩),
      fun h c hc => by
        obtain ⟨p, next, rest, p', w, ht, hp⟩ := mem_suspends.1 hc
        exact h c p next rest p' w ht hp⟩

/-- How often an entry's coroutine is destroyed by its owner. -/
def Entry.share (e : Entry) : ℕ := if e.owning then 1 else 0

/-! ### What the loop owns -/

/-- What the loop destroys: an entry of the queue, or a `run_one`. -/
def Frame.loopOwns : Frame π V ε σ → List ℕ
  | .push e | .runOne e => e.owns
  | _ => []

def State.loopOwns (s : State π V ε σ) : List ℕ := s.holders.flatMap Frame.loopOwns

section

variable {poll : π → σ → Poll π V ε × σ} {s s' : State π V ε σ} {c : ℕ}

theorem loopOwns_eq (s : State π V ε σ) :
    s.loopOwns = s.queue.flatMap Entry.owns ++ s.stack.flatMap Frame.loopOwns := by
  rw [State.loopOwns, State.holders, List.flatMap_append, List.flatMap_map]
  rfl

theorem pushes_same (h : s'.created = s.created) : s.pushes s' = [] := if_pos h

theorem runOneDestroys_top {f : Frame π V ε σ} {rest : Stack π V ε σ} (ht : s.stack = f :: rest)
    (hf : ∀ e, f ≠ .runOne e) : s.runOneDestroys = [] := by
  rw [State.runOneDestroys, ht]
  cases f <;> first | rfl | exact absurd rfl (hf _)

/-- The frames `N` are where `f` was on top of the stack. -/
theorem count_replace {u : State π V ε σ} {f : Frame π V ε σ} {N rest : Stack π V ε σ}
    (ht : s.stack = f :: rest) (hq : u.queue = s.queue) (hstack : u.stack = N ++ rest) :
    u.loopOwns.count c + f.loopOwns.count c =
      s.loopOwns.count c + (N.flatMap Frame.loopOwns).count c := by
  simp only [loopOwns_eq, hq, hstack, ht, List.flatMap_cons, List.flatMap_append,
    List.count_append]
  omega

/-- The same for a frame that is no `run_one`. -/
theorem count_top {f : Frame π V ε σ} {N rest : Stack π V ε σ} (ht : s.stack = f :: rest)
    (hf : ∀ e, f ≠ .runOne e) (hq : s'.queue = s.queue) (hstack : s'.stack = N ++ rest)
    (hN : (N.flatMap Frame.loopOwns).count c =
      f.loopOwns.count c + ((s.pushes s').flatMap Entry.owns).count c) :
    s.runOneDestroys.count c + s'.loopOwns.count c =
      s.loopOwns.count c + ((s.pushes s').flatMap Entry.owns).count c := by
  have hcount := count_replace (c := c) ht hq hstack
  rw [runOneDestroys_top ht hf, List.count_nil]
  omega

/-- `run_one` takes over the head of the queue. -/
theorem count_runOne {top : Frame π V ε σ} {e : Entry} {q : List Entry} {x : Coro π V ε σ}
    (hq : s.queue = e :: q) (htop : top.loopOwns = []) :
    ((((s.setQueue q).enter (.runOne e)).setCoro e.coro x).enter top).loopOwns.count c =
      s.loopOwns.count c := by
  have hafter : ((((s.setQueue q).enter (.runOne e)).setCoro e.coro x).enter top).loopOwns =
      q.flatMap Entry.owns ++ (e.owns ++ s.stack.flatMap Frame.loopOwns) := by
    rw [loopOwns_eq, State.enter_stack, List.flatMap_cons, htop]
    rfl
  rw [hafter, loopOwns_eq, hq]
  simp only [List.count_append, List.flatMap_cons]
  omega

/-- What the loop owns after a step, with what `run_one` destroys in it, is
what it owned before, with what is pushed in it. -/
theorem count_step (hs : Trans poll s s') (hout : s'.outcome = .running) :
    s.runOneDestroys.count c + s'.loopOwns.count c =
      s.loopOwns.count c + ((s.pushes s').flatMap Entry.owns).count c := by
  have hloops : ∀ {f rest}, s.stack = f :: rest → Loops s.coros f → s.runOneDestroys = [] := by
    intro f rest ht hf
    refine runOneDestroys_top ht ?_
    rintro e rfl
    exact hf
  cases hs with
  | @enqueue rest e ht =>
      have hsame : ((s.below rest).setQueue (s.queue ++ [e])).loopOwns = s.loopOwns := by
        simp [State.loopOwns, State.holders, ht]
      rw [hsame, runOneDestroys_top ht (by simp)]
      simp [State.pushes]
  | spin ht =>
      rw [runOneDestroys_top ht (by simp)]
      simp [State.pushes]
  | runTask ht hf hq | runRec ht hf hq =>
      rw [hloops ht hf, count_runOne hq rfl]
      simp [State.pushes]
  | runBad | returned | awaitEmpty | terminated | recBad => cases hout
  | @leaveOwned rest d ht =>
      have hcount := count_replace (c := c) (u := (s.below rest).setCoro d .destroyed)
        (N := []) ht rfl rfl
      rw [State.runOneDestroys, ht]
      simpa [Frame.loopOwns, State.pushes, Nat.add_comm] using hcount
  | @leave rest d ht =>
      have hcount := count_replace (c := c) (u := s.below rest) (N := []) ht rfl rfl
      rw [State.runOneDestroys, ht]
      simpa [Frame.loopOwns, Entry.owns, State.pushes] using hcount
  | finish ht | recReturn ht =>
      refine count_top (N := []) ht (by simp) rfl rfl ?_
      simp [Frame.loopOwns, State.pushes]
  | act ht | pollReady ht | pollThrew ht | recThrew ht | resumed ht =>
      refine count_top (N := [_]) ht (by simp) rfl rfl ?_
      simp [Frame.loopOwns, State.pushes]
  | recReady ht =>
      refine count_top (N := [_, _]) ht (by simp) rfl rfl ?_
      simp [Frame.loopOwns, State.pushes]
  | pollLater ht =>
      refine count_top (N := [_]) ht (by simp) rfl rfl ?_
      simp [Frame.loopOwns, State.pushes, State.recWait]
  | recLater ht | await ht =>
      refine count_top (N := [_, _]) ht (by simp) rfl rfl ?_
      simp [Frame.loopOwns, State.pushes, State.recWait]

/-- The steps that end the run push and destroy nothing. -/
theorem halts (hs : Trans poll s s') (hrun : s.outcome = .running) (hout : s'.outcome ≠ .running) :
    s.pushes s' = [] ∧ s.runOneDestroys = [] := by
  cases hs with
  | runBad ht hf hq =>
      refine ⟨pushes_same rfl, runOneDestroys_top ht ?_⟩
      rintro e rfl
      exact hf
  | returned ht | awaitEmpty ht | terminated ht | recBad ht =>
      exact ⟨pushes_same rfl, runOneDestroys_top ht (by simp)⟩
  | enqueue | spin | runTask | runRec | leaveOwned | leave | finish | recReturn | act | pollReady
  | pollThrew | recThrew | resumed | recReady | pollLater | recLater | await =>
      exact absurd hrun hout

theorem halts_coros (hs : Trans poll s s') (hrun : s.outcome = .running)
    (hout : s'.outcome ≠ .running) :
    s'.coros = s.coros ∧ s'.world = s.world ∧ s'.stack = [] := by
  cases hs with
  | runBad | returned | awaitEmpty | terminated | recBad => exact ⟨rfl, rfl, rfl⟩
  | enqueue | spin | runTask | runRec | leaveOwned | leave | finish | recReturn | act | pollReady
  | pollThrew | recThrew | resumed | recReady | pollLater | recLater | await =>
      exact absurd hrun hout

theorem Kept.loopOwns_ne_destroyed (h : Kept s) (hc : c ∈ s.loopOwns) :
    s.coros c ≠ .destroyed := by
  obtain ⟨f, hf, hcf⟩ := List.mem_flatMap.1 hc
  have halive := h.alive f hf
  cases f with
  | push e =>
      obtain rfl : e = ⟨c, true⟩ := Entry.mem_owns.1 hcf
      refine (halive.live ?_).ne_destroyed
      cases hc : s.coros c <;> simp [Frame.names, hc]
  | runOne e =>
      obtain rfl : e = ⟨c, true⟩ := Entry.mem_owns.1 hcf
      intro hdestroyed
      simpa [hdestroyed, Coro.OnStack, Coro.Ended] using halive rfl
  | _ => simp [Frame.loopOwns] at hcf

theorem mem_runOneDestroys (hc : c ∈ s.runOneDestroys) :
    ∃ rest, s.stack = .runOne ⟨c, true⟩ :: rest := by
  cases ht : s.stack with
  | nil => simp [State.runOneDestroys, ht] at hc
  | cons f rest =>
      cases f with
      | runOne e =>
          simp only [State.runOneDestroys, ht, Entry.mem_owns] at hc
          exact ⟨rest, by rw [hc]⟩
      | _ => simp [State.runOneDestroys, ht] at hc

/-- The step after which the coroutine of an owning entry is destroyed. -/
theorem leaveOwned_step {rest : Stack π V ε σ} (ht : s.stack = .runOne ⟨c, true⟩ :: rest)
    (hs : Trans poll s s') : s' = (s.below rest).setCoro c .destroyed := by
  cases hs with
  | leaveOwned ht' =>
      cases ht.symm.trans ht'
      rfl
  | runTask ht' hf | runRec ht' hf | runBad ht' hf =>
      cases ht.symm.trans ht'
      exact absurd hf id
  | enqueue ht' | spin ht' | returned ht' | awaitEmpty ht' | resumed ht' | terminated ht'
  | leave ht' | finish ht' | act ht' | pollReady ht' | pollThrew ht' | pollLater ht' | await ht'
  | recReady ht' | recThrew ht' | recLater ht' | recBad ht' | recReturn ht' =>
      cases ht.symm.trans ht'

theorem destroyed_update {coros : ℕ → Coro π V ε σ} {d : ℕ} {x : Coro π V ε σ}
    (hd : coros d ≠ .destroyed) (hc : coros c = .destroyed) :
    Function.update coros d x c = .destroyed := by
  rw [Function.update_of_ne, hc]
  rintro rfl
  exact hd hc

theorem update_ne_destroyed {coros : ℕ → Coro π V ε σ} {d : ℕ} {x : Coro π V ε σ}
    (hc : coros c ≠ .destroyed) (hx : x ≠ .destroyed) :
    Function.update coros d x c ≠ .destroyed := by
  rcases eq_or_ne c d with rfl | hne
  · rwa [Function.update_self]
  · rwa [Function.update_of_ne hne]

/-- What has been destroyed stays so. -/
theorem Kept.destroyed_step (h : Kept s) (hs : Trans poll s s') (hc : s.coros c = .destroyed) :
    s'.coros c = .destroyed := by
  have habsent := h.fresh _ (Nat.le_refl _)
  cases hs with
  | enqueue | spin | leave | act | pollReady | pollThrew | recThrew | runBad | returned
  | awaitEmpty | terminated | recBad => exact hc
  | @leaveOwned rest d =>
      rcases eq_or_ne c d with rfl | hne
      · exact Function.update_self _ _ _
      · rwa [State.setCoro_coros, Function.update_of_ne hne]
  | runTask _ _ _ hold | runRec _ _ _ hold | resumed _ hold | recReady _ hold =>
      exact destroyed_update (by simp [hold]) hc
  | finish ht => exact destroyed_update (by simp [h.running ht]) hc
  | recReturn ht => exact destroyed_update (by simp [h.recRunning ht]) hc
  | @pollLater rest d p p' next w ht =>
      refine destroyed_update (update_ne_destroyed (by simp [habsent]) (by simp)) ?_
      exact destroyed_update (by simp [h.running ht]) hc
  | @recLater rest r d p p' next w ht hold =>
      refine destroyed_update (update_ne_destroyed (by simp [habsent]) (by simp)) ?_
      exact destroyed_update (by simp [hold]) hc
  | await ht => exact destroyed_update (by simp [habsent]) hc

end

/-! ### Pushes and calls of `run_one` from outside -/

section

variable {s s' : State π V ε σ}

@[simp] theorem spawn_coros (b : Body π V ε σ) :
    (s.spawn b).coros = Function.update s.coros s.created (.start b) := rfl

@[simp] theorem spawn_created (b : Body π V ε σ) : (s.spawn b).created = s.created + 1 := rfl

@[simp] theorem spawn_stack (b : Body π V ε σ) : (s.spawn b).stack = s.stack := rfl

theorem Kept.push (h : Kept s) {b : Body π V ε σ} {owning : Bool}
    (hs : s.push b owning = some s') :
    Kept s' ∧ s'.stack = s.stack ∧ s'.created = s.created + 1 ∧
      s'.queue = s.queue ++ [⟨s.created, owning⟩] ∧
      ∀ c, s.coros c = .destroyed → s'.coros c = .destroyed := by
  obtain ⟨q, hq, rfl⟩ := Option.map_eq_some_iff.1 hs
  obtain rfl : q = s.queue ++ [⟨s.created, owning⟩] := Fifo.push_eq hq
  have habsent : s.coros s.created = .absent := h.fresh _ (Nat.le_refl _)
  refine ⟨?_, rfl, rfl, rfl, fun c hc => destroyed_update (by simp [habsent]) hc⟩
  have hother : ∀ c, s.coros c ≠ .absent →
      Function.update s.coros s.created (.start b) c = s.coros c := by
    intro c hc
    rw [Function.update_of_ne]
    rintro rfl
    exact hc habsent
  refine h.replace (O := []) (N := [.push ⟨s.created, owning⟩]) (H := s.holders)
    ⟨List.Perm.refl _, ?_, fun c => ?_, fun c _ hc => ?_, fun c _ _ hc => ?_⟩ ?_ ?_ ?_ ?_ ?_
    (fun c hc => ?_) ?_ ?_
  · simp only [State.holders, State.setQueue_queue, State.setQueue_stack, spawn_stack,
      List.map_append, List.append_assoc]
    exact List.perm_append_comm_assoc _ _ _
  · rcases eq_or_ne c s.created with rfl | hne
    · exact .inr (.inr (.inl habsent))
    · exact .inl (Function.update_of_ne hne _ _)
  · rw [State.setQueue_coros, spawn_coros, hother]
    · exact hc
    · intro he
      simp [he, Coro.IsTask] at hc
  · rw [State.setQueue_coros, spawn_coros, hother]
    · exact hc
    · intro he
      simp [he, Coro.OnStack, Coro.Ended] at hc
  · exact List.forall_mem_singleton.2 (.inl ⟨b, Function.update_self _ _ _⟩)
  · simp [Frame.names]
  · simp [Frame.names, habsent]
  · cases owning <;> simp [Frame.owns, Entry.owns]
  · cases owning <;> simp [Frame.owns, Entry.owns, habsent]
  · rcases eq_or_ne c s.created with rfl | hne
    · simp [Coro.OnStack] at hc
    · exact .inr ⟨by simpa [hne] using hc, by simp⟩
  · refine Above.congr h.above fun g hg => Frame.names_congr fun c hc => hother c ?_
    exact ((h.alive g (List.mem_append_right _ hg)).live hc).ne_absent
  · exact absent_update (Nat.lt_succ_self _) fun d hd => h.fresh d (Nat.le_of_succ_le hd)

/-- What a call of `run_one` does when the queue is not empty. -/
theorem Kept.runOne_cases (h : Kept s) (hs : s.runOne = some s') :
    Kept s' ∧ s'.created = s.created ∧ (∀ c, s'.loopOwns.count c = s.loopOwns.count c) ∧
      ∀ c, s.coros c = .destroyed → s'.coros c = .destroyed := by
  cases hq : s.queue with
  | nil => simp [State.runOne, hq] at hs
  | cons e q =>
      simp only [State.runOne, hq, Option.some.injEq] at hs
      subst hs
      rcases h.head_of_queue hq with ⟨b, hb⟩ | ⟨x, p, next, hx, hw⟩
      · have hs : ((s.setQueue q).enter (.runOne e)).resume e.coro =
            (((s.setQueue q).enter (.runOne e)).setCoro e.coro .running).enter
              (.exec e.coro b) := by
          simp [State.resume, hb]
        rw [hs]
        exact ⟨h.runTask hq hb, rfl, fun c => count_runOne hq rfl,
          fun c hc => destroyed_update (by simp [hb]) hc⟩
      · have hs : ((s.setQueue q).enter (.runOne e)).resume e.coro =
            (((s.setQueue q).enter (.runOne e)).setCoro e.coro .recRunning).enter
              (.recWait e.coro x) := by
          simp [State.resume, hx]
        rw [hs]
        exact ⟨h.runRec hq hx, rfl, fun c => count_runOne hq rfl,
          fun c hc => destroyed_update (by simp [hx]) hc⟩

end

/-! ### Whole runs -/

/-- The entries with different coroutines. -/
theorem count_owns {l : List Entry} {e : Entry} (h : (l.map Entry.coro).Nodup) (he : e ∈ l) :
    (l.flatMap Entry.owns).count e.coro = e.share := by
  have hself : ∀ e : Entry, e.owns.count e.coro = e.share := by
    rintro ⟨c, o⟩
    cases o <;> simp [Entry.owns, Entry.share]
  have hother : ∀ {d e : Entry}, d.coro ≠ e.coro → d.owns.count e.coro = 0 := by
    intro d e hne
    refine List.count_eq_zero.2 fun hmem => ?_
    rw [Entry.mem_owns.1 hmem] at hne
    exact hne rfl
  induction l with
  | nil => simp at he
  | cons a l ih =>
      rw [List.map_cons, List.nodup_cons] at h
      rw [List.flatMap_cons, List.count_append]
      rcases List.mem_cons.1 he with rfl | he
      · have hrest : (l.flatMap Entry.owns).count e.coro = 0 := by
          refine List.count_eq_zero.2 fun hmem => h.1 ?_
          obtain ⟨d, hd, hc⟩ := List.mem_flatMap.1 hmem
          rw [Entry.mem_owns] at hc
          exact List.mem_map.2 ⟨d, hd, by rw [hc]⟩
        rw [hself, hrest, Nat.add_zero]
      · have hne : a.coro ≠ e.coro := by
          intro heq
          exact h.1 (heq ▸ List.mem_map_of_mem he)
        rw [hother hne, ih h.2 he, Nat.zero_add]

/-- What has been pushed as owning is destroyed already or owned by the
loop, once. What the loop has destroyed is what is destroyed of it in the
state. -/
structure Loop.Balanced (l : Loop π V ε σ) : Prop where
  once : (l.pushed.map Entry.coro).Nodup
  destroyed : ∀ c, l.destroyed.count c ≤ (l.pushed.flatMap Entry.owns).count c
  kept : l.state.outcome = .running → Kept l.state
  created : ∀ e ∈ l.pushed, e.coro < l.state.created
  gone : ∀ c ∈ l.destroyed, l.state.coros c = .destroyed
  alive : ∀ c, ⟨c, true⟩ ∈ l.pushed → l.state.coros c = .destroyed → c ∈ l.destroyed
  balance : l.state.outcome = .running → ∀ c, (l.pushed.flatMap Entry.owns).count c =
    l.destroyed.count c + l.state.loopOwns.count c

section

variable {poll : π → σ → Poll π V ε × σ} {l l' : Loop π V ε σ} {a : Label π V ε σ}

theorem Loop.balanced_init (capacity : ℕ) (w : σ) :
    (Loop.init capacity w : Loop π V ε σ).Balanced where
  once := List.nodup_nil
  destroyed _ := Nat.le_refl _
  kept _ := ⟨by simp [State.holders, Loop.init], by simp [State.holders, Loop.init],
    by simp [State.holders, Loop.init], fun c hc => hc.elim, List.Pairwise.nil, fun _ _ => rfl⟩
  created := by simp [Loop.init]
  gone := by simp [Loop.init]
  alive := by simp [Loop.init]
  balance _ c := by simp [Loop.init, State.loopOwns, State.holders]

theorem Loop.Balanced.suspendsUnowned (h : l.Balanced) (hout : l.state.outcome = .running)
    (hfinish : FinishesWhenOwned poll l a l') : SuspendsUnowned poll l.state := by
  intro c p next rest p' w ht hp hmem
  have howned : c ∈ l.state.loopOwns := by
    refine List.mem_flatMap.2 ⟨.runOne ⟨c, true⟩, ?_, by simp [Frame.loopOwns, Entry.mem_owns]⟩
    simp [State.holders, ht, hmem]
  have hpushed : c ∈ l.pushed.flatMap Entry.owns := by
    rw [← List.count_pos_iff, h.balance hout c]
    have := List.count_pos_iff.2 howned
    omega
  obtain ⟨e, he, hc⟩ := List.mem_flatMap.1 hpushed
  exact hfinish c p next rest p' w ht hp (Entry.mem_owns.1 hc ▸ he)

/-- A coroutine that is created gets a new entry. -/
theorem nodup_pushed {pushed new : List Entry} {n : ℕ} (h : (pushed.map Entry.coro).Nodup)
    (hold : ∀ e ∈ pushed, e.coro < n) (hnew : new = [] ∨ ∃ o, new = [⟨n, o⟩]) :
    ((pushed ++ new).map Entry.coro).Nodup := by
  rcases hnew with rfl | ⟨o, rfl⟩
  · simpa using h
  · rw [List.map_append, List.nodup_append]
    refine ⟨h, List.nodup_singleton _, fun c hc d hd hcd => ?_⟩
    obtain ⟨e, he, rfl⟩ := List.mem_map.1 hc
    have hlt := hold e he
    simp only [List.map_cons, List.map_nil, List.mem_singleton] at hd
    omega

theorem pushes_cases {s s' : State π V ε σ} (hs : Trans poll s s') :
    s'.created = s.created ∧ s.pushes s' = [] ∨
      s'.created = s.created + 1 ∧ ∃ o, s.pushes s' = [⟨s.created, o⟩] := by
  cases hs with
  | pollLater | recLater | await =>
      refine .inr ⟨rfl, ?_⟩
      simp [State.pushes, State.recWait]
  | enqueue | spin | runTask | runRec | runBad | returned | awaitEmpty | resumed | terminated
  | leaveOwned | leave | finish | act | pollReady | pollThrew | recReady | recThrew | recBad
  | recReturn => exact .inl ⟨rfl, pushes_same rfl⟩

/-- What a step of the loop and its users can be. -/
inductive LoopTrans (poll : π → σ → Poll π V ε × σ) (l : Loop π V ε σ) :
    Label π V ε σ → Loop π V ε σ → Prop
  | push {b : Body π V ε σ} {owning : Bool} {s : State π V ε σ}
      (hs : l.state.push b owning = some s) :
      LoopTrans poll l (.push b owning) ⟨s, l.pushed ++ [⟨l.state.created, owning⟩], l.destroyed⟩
  | runOne {s : State π V ε σ} (hs : l.state.runOne = some s) :
      LoopTrans poll l .runOne { l with state := s }
  | thread {s : State π V ε σ} (hs : Trans poll l.state s) :
      LoopTrans poll l .thread
        ⟨s, l.pushed ++ l.state.pushes s, l.destroyed ++ l.state.runOneDestroys⟩

theorem Loop.step_trans (hs : l.step poll a = some l') :
    l.state.outcome = .running ∧ LoopTrans poll l a l' := by
  by_cases hout : l.state.outcome = .running
  swap
  · simp [Loop.step, hout] at hs
  refine ⟨hout, ?_⟩
  cases a with
  | push b owning =>
      simp only [Loop.step, hout, if_true] at hs
      obtain ⟨s, hs', rfl⟩ := Option.map_eq_some_iff.1 hs
      exact .push hs'
  | runOne =>
      simp only [Loop.step, hout, if_true] at hs
      split at hs
      case isFalse => cases hs
      obtain ⟨s, hs', rfl⟩ := Option.map_eq_some_iff.1 hs
      exact .runOne hs'
  | thread =>
      simp only [Loop.step, hout, if_true] at hs
      obtain ⟨s, hs', rfl⟩ := Option.map_eq_some_iff.1 hs
      exact .thread (EventLoop.step_trans hs')

/-- What has been pushed as owning and is destroyed, the loop has
destroyed: it owns the others, and what it owns is not destroyed. -/
theorem destroyed_of_balance (hkept : Kept l.state)
    (hbalance : ∀ c, (l.pushed.flatMap Entry.owns).count c =
      l.destroyed.count c + l.state.loopOwns.count c) {c : ℕ} (hc : ⟨c, true⟩ ∈ l.pushed)
    (hgone : l.state.coros c = .destroyed) : c ∈ l.destroyed := by
  have hnot : c ∉ l.state.loopOwns := fun hmem => hkept.loopOwns_ne_destroyed hmem hgone
  have hpushed : c ∈ l.pushed.flatMap Entry.owns :=
    List.mem_flatMap.2 ⟨_, hc, Entry.mem_owns.2 rfl⟩
  have hsum := hbalance c
  rw [List.count_eq_zero.2 hnot, Nat.add_zero] at hsum
  exact List.count_pos_iff.1 (hsum ▸ List.count_pos_iff.2 hpushed)

theorem Loop.Balanced.push (h : l.Balanced) (hout : l.state.outcome = .running)
    {b : Body π V ε σ} {owning : Bool} {s : State π V ε σ}
    (hs : l.state.push b owning = some s) :
    (⟨s, l.pushed ++ [⟨l.state.created, owning⟩], l.destroyed⟩ : Loop π V ε σ).Balanced := by
  obtain ⟨hkept, hstack, hcreated, hqueue, hgone⟩ := (h.kept hout).push hs
  have hcount : ∀ c, s.loopOwns.count c =
      l.state.loopOwns.count c + (⟨l.state.created, owning⟩ : Entry).owns.count c := by
    intro c
    simp only [loopOwns_eq, hstack, hqueue, List.flatMap_append, List.flatMap_cons,
      List.flatMap_nil, List.append_nil, List.count_append]
    omega
  have hbalance : ∀ c,
      ((l.pushed ++ [(⟨l.state.created, owning⟩ : Entry)]).flatMap Entry.owns).count c =
        l.destroyed.count c + s.loopOwns.count c := by
    intro c
    have := h.balance hout c
    simp only [List.flatMap_append, List.flatMap_cons, List.flatMap_nil, List.append_nil,
      List.count_append, hcount]
    omega
  refine ⟨nodup_pushed h.once h.created (.inr ⟨owning, rfl⟩), fun c => ?_, fun _ => hkept,
    fun e he => ?_, fun c hc => hgone c (h.gone c hc),
    fun c => destroyed_of_balance hkept hbalance, fun _ => hbalance⟩
  · have := h.destroyed c
    simp only [List.flatMap_append, List.count_append]
    omega
  · simp only [hcreated]
    rcases List.mem_append.1 he with he | he
    · have := h.created e he
      omega
    · rw [List.mem_singleton.1 he]
      exact Nat.lt_succ_self _

theorem Loop.Balanced.runOne (h : l.Balanced) (hout : l.state.outcome = .running)
    {s : State π V ε σ} (hs : l.state.runOne = some s) : { l with state := s }.Balanced := by
  obtain ⟨hkept, hcreated, hcount, hgone⟩ := (h.kept hout).runOne_cases hs
  have hbalance : ∀ c, (l.pushed.flatMap Entry.owns).count c =
      l.destroyed.count c + s.loopOwns.count c := fun c => hcount c ▸ h.balance hout c
  refine ⟨h.once, h.destroyed, fun _ => hkept, fun e he => ?_,
    fun c hc => hgone c (h.gone c hc), fun c => destroyed_of_balance hkept hbalance,
    fun _ => hbalance⟩
  simpa [hcreated] using h.created e he

theorem Loop.Balanced.thread (h : l.Balanced) (hout : l.state.outcome = .running)
    (hsuspends : SuspendsUnowned poll l.state) {s : State π V ε σ}
    (hs : Trans poll l.state s) :
    (⟨s, l.pushed ++ l.state.pushes s, l.destroyed ++ l.state.runOneDestroys⟩ :
      Loop π V ε σ).Balanced := by
  have hnew := pushes_cases hs
  have hkept := (h.kept hout).step hsuspends hs
  have hbalance : s.outcome = .running → ∀ c,
      ((l.pushed ++ l.state.pushes s).flatMap Entry.owns).count c =
        (l.destroyed ++ l.state.runOneDestroys).count c + s.loopOwns.count c := by
    intro hout' c
    have := count_step (c := c) hs hout'
    have := h.balance hout c
    simp only [List.flatMap_append, List.count_append]
    omega
  refine ⟨nodup_pushed h.once h.created (hnew.imp And.right And.right), fun c => ?_, hkept,
    fun e he => ?_, fun c hc => ?_, fun c hc hgone => ?_, hbalance⟩
  · by_cases hout' : s.outcome = .running
    · have := hbalance hout' c
      simp only
      omega
    · obtain ⟨hpush, hdestroy⟩ := halts hs hout hout'
      rw [hpush, hdestroy]
      simpa using h.destroyed c
  · rcases List.mem_append.1 he with he | he
    · have := h.created e he
      simp only
      omega
    · rcases hnew with ⟨-, hnone⟩ | ⟨hcreated, o, ho⟩
      · simp [hnone] at he
      · rw [ho, List.mem_singleton] at he
        simp [he, hcreated]
  · rcases List.mem_append.1 hc with hc | hc
    · exact (h.kept hout).destroyed_step hs (h.gone c hc)
    · obtain ⟨rest, ht⟩ := mem_runOneDestroys hc
      simp [leaveOwned_step ht hs]
  · by_cases hout' : s.outcome = .running
    · exact destroyed_of_balance (hkept hout') (hbalance hout') hc hgone
    -- the step that ends the run destroys nothing
    · obtain ⟨hpush, hdestroy⟩ := halts hs hout hout'
      simp only [hpush, hdestroy, List.append_nil] at hc ⊢
      exact h.alive c hc ((halts_coros hs hout hout').1 ▸ hgone)

theorem Loop.Balanced.step (h : l.Balanced) (hs : l.step poll a = some l')
    (hfinish : FinishesWhenOwned poll l a l') : l'.Balanced := by
  obtain ⟨hout, htrans⟩ := Loop.step_trans hs
  cases htrans with
  | push hpush => exact h.push hout hpush
  | runOne hone => exact h.runOne hout hone
  | thread hstep => exact h.thread hout (h.suspendsUnowned hout hfinish) hstep

/-- The head of the queue has not been destroyed. -/
theorem Kept.next {s : State π V ε σ} (h : Kept s) {c : ℕ} (hc : c ∈ s.next) :
    s.coros c ≠ .destroyed := by
  cases hq : s.queue with
  | nil => simp [State.next, hq] at hc
  | cons e q =>
      obtain rfl : c = e.coro := by simpa [State.next, hq] using hc
      rcases h.head_of_queue hq with ⟨b, hb⟩ | ⟨x, p, next, hx, -⟩
      · simp [hb]
      · simp [hx]

theorem Loop.Balanced.destroysEnded (h : l.Balanced) (hs : l.step poll a = some l') :
    DestroysEnded l a l' := by
  obtain ⟨hout, htrans⟩ := Loop.step_trans hs
  have hkept := h.kept hout
  cases htrans with
  | push => exact ⟨by simp [Loop.resumes], by simp⟩
  | runOne => exact ⟨fun c hc => hkept.next hc, by simp⟩
  | thread =>
      refine ⟨fun c hc => ?_, fun c hc => ?_⟩
      · cases ht : l.state.stack with
        | nil => simp [Loop.resumes, ht] at hc
        | cons f rest =>
            have hlive : ∀ d ∈ f.names l.state.coros, l.state.coros d ≠ .destroyed :=
              fun d hd => ((hkept.alive_top ht).live hd).ne_destroyed
            cases f with
            | exec d b => exact hlive c (by simpa [Loop.resumes, ht, Frame.names] using hc)
            | recWait r x => exact hlive c (by simpa [Loop.resumes, ht, Frame.names] using hc)
            | recReturn r => exact hlive c (by simpa [Loop.resumes, ht, Frame.names] using hc)
            | awaitLoop d child next =>
                rcases (show c = d ∨ c ∈ l.state.next by simpa [Loop.resumes, ht] using hc) with
                  rfl | hc
                · exact hlive c (by simp [Frame.names])
                · exact hkept.next hc
            | runForever => exact hkept.next (by simpa [Loop.resumes, ht] using hc)
            | runOne | push => simp [Loop.resumes, ht] at hc
      · have hc : l.state.runOneDestroys = [c] := List.append_cancel_left hc
        cases ht : l.state.stack with
        | nil => simp [State.runOneDestroys, ht] at hc
        | cons f rest =>
            cases f with
            | runOne e =>
                have hmem : c ∈ e.owns := by
                  rw [State.runOneDestroys, ht] at hc
                  simp [show e.owns = [c] from hc]
                rw [Entry.mem_owns] at hmem
                exact hkept.ended (hmem ▸ ht)
            | _ => simp [State.runOneDestroys, ht] at hc

/-- No coroutine is resumed after it has been destroyed, and the loop
destroys a coroutine once, at its final suspend point, if it has been
pushed as owning, and never if it has not: in every run in which no
coroutine that has been pushed as owning is suspended by a poll. What the
loop has destroyed is destroyed in its state. -/
theorem loop_destroys_ended {capacity : ℕ} {w : σ} {as : List (Label π V ε σ)}
    (hrun : run (Loop.step poll) (.init capacity w) as = some l)
    (hfinish : Along (Loop.step poll) (FinishesWhenOwned poll) (.init capacity w) as) :
    Along (Loop.step poll) DestroysEnded (.init capacity w) as ∧
      (∀ c ∈ l.destroyed, ⟨c, true⟩ ∈ l.pushed) ∧
      (∀ e ∈ l.pushed, l.destroyed.count e.coro ≤ e.share) ∧
      (∀ c, ⟨c, true⟩ ∈ l.pushed → (c ∈ l.destroyed ↔ l.state.coros c = .destroyed)) ∧
      (l.state.outcome = .running → l.state.stack = [] →
        ∀ e ∈ l.pushed, (l.destroyed ++ l.destroy).count e.coro = e.share) := by
  have hinit := Loop.balanced_init (π := π) (V := V) (ε := ε) capacity w
  have hbalanced : l.Balanced :=
    run_invariant_of_along (fun _ _ _ h hs hc => h.step hs hc) hfinish hinit hrun
  refine ⟨along_of_along (fun _ _ _ h hs hc => Loop.Balanced.step h hs hc)
    (fun _ _ _ h hs _ => Loop.Balanced.destroysEnded h hs) hfinish hinit, fun c hc => ?_,
    fun e he => ?_, fun c hc => ⟨hbalanced.gone c, hbalanced.alive c hc⟩,
    fun hout hstack e he => ?_⟩
  · have hpos := List.count_pos_iff.2 hc
    have hmem : c ∈ l.pushed.flatMap Entry.owns :=
      List.count_pos_iff.1 (Nat.lt_of_lt_of_le hpos (hbalanced.destroyed c))
    obtain ⟨e, he, hce⟩ := List.mem_flatMap.1 hmem
    exact Entry.mem_owns.1 hce ▸ he
  · exact count_owns hbalanced.once he ▸ hbalanced.destroyed e.coro
  · have hall := hbalanced.balance hout e.coro
    rw [count_owns hbalanced.once he, loopOwns_eq, hstack] at hall
    simpa [Loop.destroy] using hall.symm

end

/-- An owned coroutine that does not suspend, and one that is not owned and
polls twice in vain, run to their ends, and an owned one that is left in
the queue. -/
def pushMixed : List (Label (ℕ × ℕ) ℕ String Unit) :=
  [.push (.coReturn 7) true,
    .push (.poll (2, 5) fun r =>
      match r with
      | .ok v => .coReturn v
      | .error e => .throw e) false] ++
  [2, 3, 4, 4].flatMap (fun n => .runOne :: List.replicate n .thread) ++
  [.push (.coReturn 8) true]

/-- The two coroutines of `__rec_wait` are pushed and destroyed as owned
ones. -/
theorem loop_destroys_ended_pushMixed : ∃ l : Loop (ℕ × ℕ) ℕ String Unit,
    run (Loop.step (countdown ℕ String)) (.init 8 ()) pushMixed = some l ∧
      l.pushed = [⟨0, true⟩, ⟨1, false⟩, ⟨2, true⟩, ⟨3, true⟩, ⟨4, true⟩] ∧
      l.destroyed = [0, 2, 3] ∧ l.destroy = [4] ∧ l.state.coros 1 = .finished (.ok 5) ∧
      Along (Loop.step (countdown ℕ String)) DestroysEnded (.init 8 ()) pushMixed ∧
      (∀ c ∈ l.destroyed, ⟨c, true⟩ ∈ l.pushed) ∧
      (∀ e ∈ l.pushed, l.destroyed.count e.coro ≤ e.share) ∧
      (∀ c, ⟨c, true⟩ ∈ l.pushed → (c ∈ l.destroyed ↔ l.state.coros c = .destroyed)) ∧
      ∀ e ∈ l.pushed, (l.destroyed ++ l.destroy).count e.coro = e.share := by
  obtain ⟨l, hrun, hpushed, hdestroyed, hdestroy, hcoro, hout, hstack⟩ :
      ∃ l : Loop (ℕ × ℕ) ℕ String Unit,
        run (Loop.step (countdown ℕ String)) (.init 8 ()) pushMixed = some l ∧
          l.pushed = [⟨0, true⟩, ⟨1, false⟩, ⟨2, true⟩, ⟨3, true⟩, ⟨4, true⟩] ∧
          l.destroyed = [0, 2, 3] ∧ l.destroy = [4] ∧ l.state.coros 1 = .finished (.ok 5) ∧
          l.state.outcome = .running ∧ l.state.stack = [] :=
    ⟨_, rfl, rfl, rfl, rfl, rfl, rfl, rfl⟩
  obtain ⟨hended, howning, honce, hgone, hall⟩ := loop_destroys_ended hrun (by decide)
  exact ⟨l, hrun, hpushed, hdestroyed, hdestroy, hcoro, hended, howning, honce, hgone,
    hall hout hstack⟩

/-- A coroutine that polls once in vain is pushed as owning. -/
def pollOnce (v : ℕ) : Body (ℕ × ℕ) ℕ String Unit :=
  .poll (1, v) fun r => match r with | .ok v => .coReturn v | .error e => .throw e

def pushSuspended : List (Label (ℕ × ℕ) ℕ String Unit) :=
  [.push (pollOnce 5) true, .runOne, .thread, .thread]

/-- It is destroyed while it is suspended, and the coroutine that polls for
it is resumed after that. -/
theorem owned_destroyed_suspended : ∃ l : Loop (ℕ × ℕ) ℕ String Unit,
    run (Loop.step (countdown ℕ String)) (.init 8 ()) (pushSuspended ++ [.thread, .runOne]) =
        some l ∧
      l.destroyed = [0] ∧ l.state.coros 0 = .destroyed ∧ l.resumes .thread = [1, 0] ∧
      ¬ Along (Loop.step (countdown ℕ String)) DestroysEnded (.init 8 ())
        (pushSuspended ++ [.thread]) := by
  refine ⟨_, rfl, rfl, rfl, rfl, fun h => ?_⟩
  obtain ⟨t, u, hrun, hstep, hgone, hcoro⟩ : ∃ t u : Loop (ℕ × ℕ) ℕ String Unit,
      run (Loop.step (countdown ℕ String)) (.init 8 ()) pushSuspended = some t ∧
        t.step (countdown ℕ String) .thread = some u ∧ u.destroyed = t.destroyed ++ [0] ∧
        ¬ (t.state.coros 0).Ended := ⟨_, _, rfl, rfl, rfl, id⟩
  exact hcoro ((h.last hrun hstep).2 0 hgone)

end JowiAsio.EventLoop

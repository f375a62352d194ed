import Mathlib.Data.Bool.Count
import JowiAsio.EventLoop.Completion
import JowiAsio.Lib.Potential
import JowiAsio.Ringbuf.Calls
import JowiAsio.Workers.SingleThread

/-!
The event loop on its ring buffer.

The queue of an `EventLoop` is a `RingbufQueue<void, CoroStateDeleter>`:
`push` stores the address of the coroutine's frame, with `is_owning` as
the deleter, and `run_one` resumes what it finds at the address that `pop`
returns. Here the thread takes each attempt of these calls one by one, on
the words of the slots and the packed counter. Everything else it does as
in the machine with a FIFO of entries, which it simulates: a call of the
queue counts as done when it returns.

Addresses are reused when a coroutine is destroyed. All that is needed of
the allocator is that coroutines which exist at the same time are at
different addresses.
-/

namespace JowiAsio.EventLoop

open Lib
open Ringbuf (DeleterSize UniquePtr Call Serving Solo Rest replayEvent)

variable {π V ε σ : Type}

/-! ### Entries as pointers -/

/-- `CoroStateDeleter` is a `bool`. -/
def coroStateDeleter : DeleterSize := ⟨1, Nat.le_succ 1⟩

abbrev Ring := Ringbuf.State Unit coroStateDeleter

/-- `EventLoop::push` makes a `unique_ptr` of the handle. -/
def Entry.ptr (address : ℕ → Addr) (e : Entry) : UniquePtr coroStateDeleter :=
  ⟨address e.coro, if e.owning then 1 else 0⟩

/-- There is a frame of the coroutine. -/
def Coro.allocated : Coro π V ε σ → Bool
  | .absent | .destroyed => false
  | _ => true

/-- What the allocator promises: coroutines that exist at the same time
have different addresses, none of which is null. -/
def AddressesApart (address : ℕ → Addr) (s : State π V ε σ) : Prop :=
  ∀ c < s.created, (s.coros c).allocated = true → address c ≠ 0 ∧
    ∀ d < s.created, (s.coros d).allocated = true → address d = address c → d = c

instance (address : ℕ → Addr) (s : State π V ε σ) : Decidable (AddressesApart address s) :=
  inferInstanceAs (Decidable (∀ c < s.created, (s.coros c).allocated = true → address c ≠ 0 ∧
    ∀ d < s.created, (s.coros d).allocated = true → address d = address c → d = c))

/-- The coroutine at an address. -/
def State.coroAt (address : ℕ → Addr) (s : State π V ε σ) (a : Addr) : Option ℕ :=
  (List.range s.created).find? fun c => (s.coros c).allocated && address c == a

/-- The handle and the deleter of what `pop` returned. -/
def State.entry (address : ℕ → Addr) (s : State π V ε σ) (x : UniquePtr coroStateDeleter) :
    Option Entry :=
  (s.coroAt address x.ptr).map fun c => ⟨c, x.deleter != 0⟩

/-! ### The machine -/

/-- The loop, whose field `queue` is not used, and the tasks that
`parallel_expected` has yet to push. -/
structure RingLoop (π V ε σ : Type) where
  loop : State π V ε σ
  todo : List Entry
  ring : Ring

namespace RingLoop

/-- The call that comes next in the program, if it is one of the queue. -/
def call (address : ℕ → Addr) (m : RingLoop π V ε σ) : Option (Call coroStateDeleter) :=
  match m.todo, m.loop.stack with
  | e :: _, _ => some (.push (e.ptr address))
  | [], .push e :: _ => some (.push (e.ptr address))
  | [], .runForever :: _ => some .pop
  | [], .awaitLoop _ child _ :: _ =>
      match m.loop.coros child with
      | .finished _ => none
      | _ => some .pop
  | [], _ => none

/-- What the thread does when the call of the queue has returned. -/
def returned (poll : π → σ → Poll π V ε × σ) (address : ℕ → Addr) (m : RingLoop π V ε σ)
    (ring : Ring) : Ringbuf.Event coroStateDeleter → Option (RingLoop π V ε σ)
  | .pushed _ =>
      match m.todo with
      | _ :: todo => some { m with todo := todo, ring := ring }
      | [] => some { m with loop := m.loop.below m.loop.stack.tail, ring := ring }
  -- `run_one` has nothing to run
  | .popped _ none => (step poll m.loop ()).map fun l => { m with loop := l, ring := ring }
  | .popped _ (some x) =>
      match m.loop.entry address x with
      | some e =>
          (step poll (m.loop.setQueue [e]) ()).map fun l => { m with loop := l, ring := ring }
      -- there is no coroutine at this address
      | none => some { m with loop := m.loop.halt .undefined, ring := ring }
  | .tryPushed _ _ => none

/-- One step of the thread: it begins a call of the queue, makes an
attempt inside one, or does what else comes next. -/
def step (poll : π → σ → Poll π V ε × σ) (address : ℕ → Addr) (m : RingLoop π V ε σ)
    (spurious : Bool) : Option (RingLoop π V ε σ) :=
  if m.ring.pc () = .idle then
    match m.call address with
    | some c => (Ringbuf.step m.ring (.call () c)).map fun ring => { m with ring := ring }
    | none => (EventLoop.step poll m.loop ()).map fun l => { m with loop := l }
  else
    (Ringbuf.step m.ring (.exec () spurious)).bind fun ring =>
      if ring.pc () = .idle then ring.history.getLast?.bind (m.returned poll address ring)
      else some { m with ring := ring }

/-- How many steps the thread still takes at most to push the tasks and
to come out of the call that it is in. -/
def work (m : RingLoop π V ε σ) : ℕ :=
  5 * m.todo.length +
    if m.ring.pc () = .idle then 4 else (m.ring.pc ()).rank m.ring.counter

/-- `parallel_expected` on a new loop with the tasks of `s₀`. -/
def init (capacity : ℕ) (s₀ : State π V ε σ) : RingLoop π V ε σ where
  loop := s₀.setQueue []
  todo := s₀.queue
  ring := Ringbuf.init Unit coroStateDeleter capacity

end RingLoop

/-! ### The queue apart from the rest -/

section

variable {poll : π → σ → Poll π V ε × σ} {s : State π V ε σ} {address : ℕ → Addr}
  {m : RingLoop π V ε σ}

theorem resume_setQueue (s : State π V ε σ) (q : List Entry) (c : ℕ) :
    (s.setQueue q).resume c = (s.resume c).setQueue q := by
  simp only [State.resume, State.setQueue_coros]
  split <;> rfl

theorem execStep_setQueue (s : State π V ε σ) (q : List Entry) (c : ℕ) (b : Body π V ε σ) :
    execStep poll (s.setQueue q) c b = (execStep poll s c b).setQueue q := by
  cases b with
  | coReturn | throw | act | await => rfl
  | poll p next =>
      have hworld : (s.setQueue q).world = s.world := rfl
      simp only [execStep, hworld]
      split <;> rfl

theorem recWaitStep_setQueue (s : State π V ε σ) (q : List Entry) (r h : ℕ) :
    recWaitStep poll (s.setQueue q) r h = (recWaitStep poll s r h).setQueue q := by
  have hworld : (s.setQueue q).world = s.world := rfl
  simp only [recWaitStep, State.setQueue_coros, hworld]
  split
  case h_1 p next hc => split <;> rfl
  case h_2 => rfl

/-- The frames that do not use the queue. -/
theorem RingLoop.step_of_call_none (poll : π → σ → Poll π V ε × σ)
    (h : m.call address = none) (q : List Entry) :
    m.todo = [] ∧ EventLoop.step poll (m.loop.setQueue q) () =
      (EventLoop.step poll m.loop ()).map fun l => l.setQueue q := by
  unfold RingLoop.call at h
  split at h
  case h_1 | h_2 | h_3 => cases h
  case h_4 c child next rest htodo hstack =>
    refine ⟨htodo, ?_⟩
    split at h
    case h_1 r hr =>
      simp only [EventLoop.step, State.setQueue_stack, hstack, Option.map_some, Option.some.injEq]
      cases r <;> simp only [awaitLoopStep, State.below_coros, State.setQueue_coros, hr] <;> rfl
    case h_2 => cases h
  case h_5 htodo hpush hforever hloop =>
    refine ⟨htodo, ?_⟩
    cases hstack : m.loop.stack with
    | nil => simp [EventLoop.step, hstack]
    | cons f rest =>
        simp only [EventLoop.step, State.setQueue_stack, hstack]
        cases f with
        | runForever => exact absurd hstack (hforever _)
        | push e => exact absurd hstack (hpush _ _)
        | awaitLoop c child next => exact absurd hstack (hloop _ _ _ _)
        | runOne e =>
            obtain ⟨c, owning⟩ := e
            cases owning <;> rfl
        | recReturn r => rfl
        | exec c b => exact congrArg some (execStep_setQueue (m.loop.below rest) q c b)
        | recWait r y => exact congrArg some (recWaitStep_setQueue (m.loop.below rest) q r y)

theorem runOne_setQueue (s : State π V ε σ) (e : Entry) (q : List Entry) :
    (s.setQueue (e :: q)).runOne =
      some ((((s.setQueue []).enter (.runOne e)).resume e.coro).setQueue q) := by
  rw [← resume_setQueue]
  rfl

theorem awaitLoopStep_of_incomplete {c child : ℕ} {next : Cont π V ε σ}
    (hc : ¬ (s.coros child).Complete) : awaitLoopStep s c child next =
      ((s.enter (.awaitLoop c child next)).runOne).getD (s.halt .undefined) := by
  unfold awaitLoopStep
  split
  case h_1 v hv => exact absurd ⟨_, hv⟩ hc
  case h_2 e he => exact absurd ⟨_, he⟩ hc
  case h_3 => rfl

/-- The frames that call `run_one`: what is behind the first entry of the
queue stays there. -/
theorem step_behind {f : Frame π V ε σ} {rest : Stack π V ε σ} (hstack : s.stack = f :: rest)
    (hf : Loops s.coros f) (e : Entry) (q : List Entry) :
    EventLoop.step poll (s.setQueue (e :: q)) () =
      (EventLoop.step poll (s.setQueue [e]) ()).map fun l => l.setQueue q := by
  have hrun : ∀ l, (((s.setQueue (e :: l)).below rest).enter f).runOne =
      some (((((((s.below rest).enter f).setQueue []).enter (.runOne e)).resume
        e.coro)).setQueue l) :=
    fun l => runOne_setQueue ((s.below rest).enter f) e l
  cases f with
  | runForever =>
      simp only [EventLoop.step, State.setQueue_stack, hstack, hrun, Option.getD_some,
        Option.map_some]
      rfl
  | awaitLoop c child next =>
      have hc : ∀ l, ¬ (((s.setQueue (e :: l)).below rest).coros child).Complete := fun _ => hf
      simp only [EventLoop.step, State.setQueue_stack, hstack, awaitLoopStep_of_incomplete (hc _),
        hrun, Option.getD_some, Option.map_some]
      rfl
  | runOne | push | exec | recWait | recReturn => exact hf.elim

/-- `run_one` has found the queue empty. -/
theorem queue_of_step_empty {f : Frame π V ε σ} {rest : Stack π V ε σ}
    (hstack : s.stack = f :: rest) (hf : Loops s.coros f) (hq : s.queue = []) {l : State π V ε σ}
    (hs : EventLoop.step poll s () = some l) : l.queue = [] := by
  have hrun : ((s.below rest).enter f).runOne = none := runOne_eq_none.2 hq
  cases f with
  | runForever =>
      simp only [EventLoop.step, hstack, hrun, Option.getD_none, Option.some.injEq] at hs
      subst hs
      exact hq
  | awaitLoop c child next =>
      have hc : ¬ ((s.below rest).coros child).Complete := hf
      simp only [EventLoop.step, hstack, awaitLoopStep_of_incomplete hc, hrun, Option.getD_none,
        Option.some.injEq] at hs
      subst hs
      exact hq
  | runOne | push | exec | recWait | recReturn => exact hf.elim

end

/-! ### The machine with a FIFO -/

section

variable {poll : π → σ → Poll π V ε × σ} {s : State π V ε σ} {address : ℕ → Addr}
  {capacity : ℕ} {w : σ} {ts : List (Body π V ε σ)} {e : Entry}

/-- What comes out of the queue is what went in. -/
theorem State.entry_ptr (h : AddressesApart address s) (hlt : e.coro < s.created)
    (he : (s.coros e.coro).allocated = true) : s.entry address (e.ptr address) = some e := by
  have hat : s.coroAt address (address e.coro) = some e.coro := by
    unfold State.coroAt
    cases hfind : (List.range s.created).find? fun c =>
        (s.coros c).allocated && address c == address e.coro with
    | none =>
        rw [List.find?_eq_none] at hfind
        exact absurd (hfind e.coro (List.mem_range.2 hlt)) (by simp [he])
    | some c =>
        have hc := List.find?_some hfind
        rw [Bool.and_eq_true, beq_iff_eq] at hc
        have hmem := List.mem_range.1 (List.mem_of_find?_eq_some hfind)
        rw [(h e.coro hlt he).2 c hmem hc.1 hc.2]
  obtain ⟨c, owning⟩ := e
  rw [State.entry, Entry.ptr, hat]
  cases owning <;> rfl

/-- A coroutine that is queued or about to be queued is there. -/
theorem entry_allocated (h : Workers.Reached poll capacity w ts s) (hout : s.outcome = .running)
    (he : e ∈ s.queue ∨ ∃ rest, s.stack = .push e :: rest) :
    e.coro < s.created ∧ (s.coros e.coro).allocated = true := by
  obtain ⟨n, u, -, hrep, hdefined⟩ := h
  obtain ⟨hleaves, -⟩ := hdefined (by simp [hout])
  cases hrep with
  | returned _ _ _ ho | terminated _ _ ho | undefined _ ho => simp [hout] at ho
  | @running t st hstack hagrees _ =>
      have hpush : .push e ∈ t.holders st := by
        refine Workers.push_mem_holders.2 (he.imp (fun hq => hagrees.queue ▸ hq) ?_)
        rintro ⟨rest, hrest⟩
        cases hrest ▸ hstack with
        | push _ _ => exact List.mem_cons_self
      have hkept : Workers.Kept t st := by
        simpa [Workers.single, Workers.State.Kept] using hleaves.lives.kept
      have hshows := hagrees.coros e.coro
      have hlt : t.coros e.coro ≠ .absent → e.coro < s.created :=
        fun hne => hagrees.created ▸ hkept.lt_created hne
      rcases hkept.alive _ hpush with ⟨b, hb⟩ | ⟨y, hy, -⟩
      · exact ⟨hlt (by simp [hb]), by rw [hshows.start_iff.1 hb]; rfl⟩
      · exact ⟨hlt (by simp [hy]), by rw [hshows.recWait_iff.1 hy]; rfl⟩

theorem running_of_stack (h : Workers.Reached poll capacity w ts s) (hstack : s.stack ≠ []) :
    s.outcome = .running := by
  obtain ⟨n, u, -, hrep, -⟩ := h
  cases hrep with
  | running _ _ hout => exact hout
  | returned hnil | terminated hnil | undefined hnil => exact absurd hnil hstack

/-- The calls of the queue. -/
theorem RingLoop.call_cases {m : RingLoop π V ε σ} {c : Call coroStateDeleter}
    (h : m.call address = some c) :
    (∃ e todo, m.todo = e :: todo ∧ c = .push (e.ptr address)) ∨
      m.todo = [] ∧ (∃ e rest, m.loop.stack = .push e :: rest ∧ c = .push (e.ptr address)) ∨
      m.todo = [] ∧ c = .pop ∧ ∃ f rest, m.loop.stack = f :: rest ∧ Loops m.loop.coros f := by
  unfold RingLoop.call at h
  split at h
  case h_1 e todo htodo =>
    cases h
    exact .inl ⟨e, todo, htodo, rfl⟩
  case h_2 e rest htodo hstack =>
    cases h
    exact .inr (.inl ⟨htodo, e, rest, hstack, rfl⟩)
  case h_3 rest htodo hstack =>
    cases h
    exact .inr (.inr ⟨htodo, rfl, _, rest, hstack, trivial⟩)
  case h_4 c child next rest htodo hstack =>
    split at h
    case h_1 => cases h
    case h_2 hchild =>
      cases h
      exact .inr (.inr ⟨htodo, rfl, _, rest, hstack, fun ⟨r, hr⟩ => hchild r hr⟩)
  case h_5 => cases h

/-- The ring holds the entries `q`. A call that is in progress has done
nothing yet. -/
structure OnRing (address : ℕ → Addr) (capacity : ℕ) (m : RingLoop π V ε σ) (s : State π V ε σ)
    (q : List Entry) : Prop where
  loop : m.loop = s.setQueue []
  queue : s.queue = q ++ m.todo
  bound : s.capacity = capacity
  todo : m.todo = [] ∨ s.outcome = .running ∧ s.queue.length ≤ capacity - 1
  ring : m.ring.pc () = .idle ∧ Solo capacity () m.ring (q.map (Entry.ptr address)) ∨
    ∃ c, m.call address = some c ∧
      Serving capacity () m.ring (q.map (Entry.ptr address)) c

variable {m m' : RingLoop π V ε σ} {q : List Entry} {ring : Ring} {c : Call coroStateDeleter}

theorem OnRing.setQueue_nil (h : OnRing address capacity m s q) : m.loop.setQueue [] = m.loop := by
  rw [h.loop]
  rfl

theorem OnRing.queue_eq (h : OnRing address capacity m s q) (htodo : m.todo = []) :
    s.queue = q := by
  rw [h.queue, htodo, List.append_nil]

/-- Between two calls. -/
theorem OnRing.solo (h : OnRing address capacity m s q) (hidle : m.ring.pc () = .idle) :
    Solo capacity () m.ring (q.map (Entry.ptr address)) := by
  rcases h.ring with ⟨-, hsolo⟩ | ⟨c, -, hserving⟩
  · exact hsolo
  · exact absurd hidle hserving.not_idle

/-- Inside a call. -/
theorem OnRing.serving (h : OnRing address capacity m s q) (hbusy : m.ring.pc () ≠ .idle) :
    ∃ c, m.call address = some c ∧ Serving capacity () m.ring (q.map (Entry.ptr address)) c :=
  h.ring.resolve_left fun hidle => hbusy hidle.1

/-- A call of the queue begins. -/
theorem OnRing.call (h : OnRing address capacity m s q) (hcap : 2 ≤ capacity)
    (hreached : Workers.Reached poll capacity w ts s) (hapart : AddressesApart address m.loop)
    (hc : m.call address = some c) (hidle : m.ring.pc () = .idle) :
    OnRing address capacity { m with ring := m.ring.setPc () c.start } s q := by
  have hallocated : ∀ e : Entry, e ∈ s.queue ∨ (∃ rest, s.stack = .push e :: rest) →
      s.outcome = .running → (e.ptr address).ptr ≠ 0 := by
    intro e he hout
    obtain ⟨hlt, halloc⟩ := entry_allocated hreached hout he
    rw [h.loop] at hapart
    exact (hapart e.coro hlt halloc).1
  have hstack : m.loop.stack = s.stack := by rw [h.loop]; rfl
  refine ⟨h.loop, h.queue, h.bound, h.todo, .inr ⟨c, hc, (h.solo hidle).call hcap hidle ?_⟩⟩
  intro x hx
  rcases RingLoop.call_cases hc with ⟨e, todo, htodo, rfl⟩ | ⟨-, e, rest, hpush, rfl⟩ |
    ⟨-, rfl, -⟩
  · obtain rfl : e.ptr address = x := by simpa using hx
    refine hallocated e (.inl ?_) (h.todo.resolve_left (by simp [htodo])).1
    rw [h.queue, htodo]
    exact List.mem_append_right _ List.mem_cons_self
  · obtain rfl : e.ptr address = x := by simpa using hx
    rw [hstack] at hpush
    exact hallocated e (.inr ⟨rest, hpush⟩) (running_of_stack hreached (by simp [hpush]))
  · simp at hx

theorem setQueue_self (h : s.queue = q) : s.setQueue q = s := by
  subst h
  rfl

/-- `push` has returned. -/
theorem push_entry {x : List (UniquePtr coroStateDeleter)}
    (hpush : Fifo.push (capacity - 1) (q.map (Entry.ptr address)) (e.ptr address) = some x) :
    Fifo.push (capacity - 1) q e = some (q ++ [e]) ∧ x = (q ++ [e]).map (Entry.ptr address) := by
  have hroom : q.length < capacity - 1 := by
    refine Nat.lt_of_not_le fun hfull => ?_
    rw [Fifo.push_of_ge (by simpa using hfull)] at hpush
    cases hpush
  exact ⟨Fifo.push_of_lt hroom e, by simpa using Fifo.push_eq hpush⟩

/-- The next call is a `push`, and there is no room. -/
def RingLoop.Full (address : ℕ → Addr) (capacity : ℕ) (m : RingLoop π V ε σ) (q : List Entry) :
    Prop :=
  (∃ x, m.call address = some (.push x)) ∧ q.length + 1 = capacity

/-- What a step to `m'` is in the machine with a FIFO: nothing, or one
step. Unless the queue is full there is a limit to the steps that are
nothing, other than compare-exchanges that fail spuriously. -/
def Follows (poll : π → σ → Poll π V ε × σ) (address : ℕ → Addr) (capacity : ℕ)
    (m : RingLoop π V ε σ) (spurious : Bool) (m' : RingLoop π V ε σ) (s : State π V ε σ)
    (q : List Entry) : Prop :=
  (∃ q', OnRing address capacity m' s q' ∧
      (m'.work < m.work + spurious.toNat ∨ m.Full address capacity q)) ∨
    ∃ s' q', EventLoop.step poll s () = some s' ∧ OnRing address capacity m' s' q' ∧
      m'.work < m.work + 5

theorem work_idle (h : m.ring.pc () = .idle) : m.work = 5 * m.todo.length + 4 := by
  rw [RingLoop.work, if_pos h]

theorem work_busy (h : m.ring.pc () ≠ .idle) :
    m.work = 5 * m.todo.length + (m.ring.pc ()).rank m.ring.counter := by
  rw [RingLoop.work, if_neg h]

/-- The thread has taken a step of the machine with a FIFO, and is in no
call. -/
theorem OnRing.stepped (h : OnRing address capacity m s q) {spurious : Bool} {l : State π V ε σ}
    {q' : List Entry} (htodo : m.todo = [])
    (hs : EventLoop.step poll s () = some (l.setQueue q')) (hempty : l = l.setQueue [])
    (hsolo : Solo capacity () ring (q'.map (Entry.ptr address))) (hidle : ring.pc () = .idle) :
    Follows poll address capacity m spurious { m with loop := l, ring := ring } s q := by
  refine .inr ⟨l.setQueue q', q', hs, ⟨hempty, by simp [htodo],
    (capacity_step (step_trans hs)).trans h.bound, .inl htodo, .inl ⟨hidle, hsolo⟩⟩, ?_⟩
  rw [work_idle hidle, htodo, List.length_nil]
  omega

/-- `pop` has returned, and `run_one` goes on. -/
theorem OnRing.popped (h : OnRing address capacity m s q) {spurious advanced : Bool}
    (hreached : Workers.Reached poll capacity w ts s) (hapart : AddressesApart address m.loop)
    (htodo : m.todo = []) {f : Frame π V ε σ} {rest : Stack π V ε σ}
    (hf : m.loop.stack = f :: rest) (hloops : Loops m.loop.coros f)
    {r : Option (UniquePtr coroStateDeleter)} {x : List (UniquePtr coroStateDeleter)}
    (hreplay : replayEvent (capacity - 1) (q.map (Entry.ptr address)) (.popped advanced r) = some x)
    (hsolo : Solo capacity () ring x) (hidle : ring.pc () = .idle)
    (hm : m.returned poll address ring (.popped advanced r) = some m') :
    Follows poll address capacity m spurious m' s q := by
  have hq : s.queue = q := h.queue_eq htodo
  cases q with
  | nil =>
      obtain ⟨rfl, rfl⟩ : r = none ∧ [] = x := by simpa [replayEvent] using hreplay
      obtain ⟨l, hl, rfl⟩ : ∃ l, EventLoop.step poll m.loop () = some l ∧
          { m with loop := l, ring := ring } = m' := by
        simpa [RingLoop.returned] using hm
      have hempty : l = l.setQueue [] :=
        (setQueue_self (queue_of_step_empty hf hloops (by rw [h.loop]; rfl) hl)).symm
      have hs : EventLoop.step poll s () = some (l.setQueue []) := by
        rw [← hempty, ← hl, h.loop, setQueue_self hq]
      exact h.stepped htodo hs hempty hsolo hidle
  | cons e q =>
      obtain ⟨rfl, rfl⟩ : r = some (e.ptr address) ∧ q.map (Entry.ptr address) = x := by
        simpa [replayEvent] using hreplay
      have hentry : m.loop.entry address (e.ptr address) = some e := by
        have hstack : s.stack ≠ [] := by
          have hsame : m.loop.stack = s.stack := by rw [h.loop]; rfl
          simp [← hsame, hf]
        obtain ⟨hlt, hallocated⟩ := entry_allocated hreached (running_of_stack hreached hstack)
          (.inl (hq ▸ List.mem_cons_self))
        rw [h.loop] at hapart ⊢
        exact State.entry_ptr hapart hlt hallocated
      obtain ⟨l, hl, rfl⟩ : ∃ l, EventLoop.step poll (m.loop.setQueue [e]) () = some l ∧
          { m with loop := l, ring := ring } = m' := by
        simpa [RingLoop.returned, hentry] using hm
      have hbehind : ∀ y, EventLoop.step poll (m.loop.setQueue (e :: y)) () =
          some (l.setQueue y) := fun y => by
        rw [step_behind hf hloops, hl, Option.map_some]
      refine h.stepped htodo ?_ (Option.some.inj (hl.symm.trans (hbehind []))) hsolo hidle
      rw [← hbehind q, h.loop, ← setQueue_self hq]
      rfl

/-- A call of the queue returns. -/
theorem OnRing.returned (h : OnRing address capacity m s q) {spurious : Bool}
    (hreached : Workers.Reached poll capacity w ts s) (hapart : AddressesApart address m.loop)
    (hc : m.call address = some c) (hbusy : m.ring.pc () ≠ .idle)
    {ev : Ringbuf.Event coroStateDeleter} {x : List (UniquePtr coroStateDeleter)}
    (hev : ev.call = c)
    (hreplay : replayEvent (capacity - 1) (q.map (Entry.ptr address)) ev = some x)
    (hsolo : Solo capacity () ring x) (hidle : ring.pc () = .idle)
    (hm : m.returned poll address ring ev = some m') :
    Follows poll address capacity m spurious m' s q := by
  rcases RingLoop.call_cases hc with ⟨e, todo, htodo, rfl⟩ | ⟨htodo, e, rest, hpush, rfl⟩ |
    ⟨htodo, rfl, f, rest, hf, hloops⟩
  -- one of the tasks
  · cases ev with
    | tryPushed | popped => cases hev
    | pushed y =>
        obtain rfl : y = e.ptr address := by simpa [Ringbuf.Event.call] using hev
        obtain ⟨-, rfl⟩ := push_entry hreplay
        obtain rfl : { m with todo := todo, ring := ring } = m' := by
          simpa [RingLoop.returned, htodo] using hm
        refine .inl ⟨q ++ [e], ⟨h.loop, ?_, h.bound, ?_, .inl ⟨hidle, hsolo⟩⟩, .inl ?_⟩
        · rw [h.queue, htodo, List.append_assoc, List.singleton_append]
        · exact .inr (h.todo.resolve_left (by simp [htodo]))
        · rw [work_idle hidle, work_busy hbusy, htodo, List.length_cons]
          show 5 * todo.length + 4 < _
          omega
  -- a `push` of the loop
  · cases ev with
    | tryPushed | popped => cases hev
    | pushed y =>
        obtain rfl : y = e.ptr address := by simpa [Ringbuf.Event.call] using hev
        obtain ⟨hroom, rfl⟩ := push_entry hreplay
        obtain rfl : { m with loop := m.loop.below rest, ring := ring } = m' := by
          simpa [RingLoop.returned, htodo, hpush] using hm
        have hq : s.queue = q := h.queue_eq htodo
        rw [← h.bound, ← hq] at hroom
        rw [h.loop] at hpush
        have hs : EventLoop.step poll s () =
            some ((m.loop.below rest).setQueue (s.queue ++ [e])) := by
          have hroom' : Fifo.push ((s.below rest).capacity - 1) (s.below rest).queue e =
              some (s.queue ++ [e]) := hroom
          have hstack : s.stack = .push e :: rest := hpush
          simp only [EventLoop.step, hstack, hroom', h.loop]
          rfl
        have hempty : m.loop.below rest = (m.loop.below rest).setQueue [] := by
          rw [h.loop]
          rfl
        exact h.stepped htodo hs hempty (hq ▸ hsolo) hidle
  -- `run_one`
  · cases ev with
    | tryPushed | pushed => cases hev
    | popped advanced r => exact h.popped hreached hapart htodo hf hloops hreplay hsolo hidle hm

/-- Every step of the thread. -/
theorem OnRing.step (h : OnRing address capacity m s q) (hcap : 2 ≤ capacity)
    (hcap32 : capacity < 2 ^ 32) (hreached : Workers.Reached poll capacity w ts s)
    (hapart : AddressesApart address m.loop) {spurious : Bool}
    (hm : RingLoop.step poll address m spurious = some m') :
    Follows poll address capacity m spurious m' s q := by
  unfold RingLoop.step at hm
  split at hm
  case isTrue hidle =>
    split at hm
    case h_1 c hc =>
      obtain rfl : { m with ring := m.ring.setPc () c.start } = m' := by
        simpa [Ringbuf.step, hidle] using hm
      refine .inl ⟨q, h.call hcap hreached hapart hc hidle, .inl ?_⟩
      have hrank := Ringbuf.Pc.rank_le_three m.ring.counter c.start
      rw [work_idle hidle, work_busy (by simpa using c.start_ne_idle)]
      simp only [Ringbuf.setPc_pc, Function.update_self, Ringbuf.setPc_counter]
      omega
    case h_2 hnone =>
      have hlocal := fun y => (RingLoop.step_of_call_none poll hnone y).2
      have htodo := (RingLoop.step_of_call_none poll hnone q).1
      obtain ⟨l, hl, rfl⟩ := Option.map_eq_some_iff.1 hm
      have hq : s.queue = q := h.queue_eq htodo
      have hs : EventLoop.step poll s () = some (l.setQueue q) := by
        have hsame : s = m.loop.setQueue q := by
          rw [h.loop, ← hq]
          rfl
        rw [hsame, hlocal, hl, Option.map_some]
      have hempty : l = l.setQueue [] := by
        refine Option.some.inj ?_
        rw [← hl, ← h.setQueue_nil, hlocal, hl, Option.map_some]
      exact h.stepped htodo hs hempty (h.solo hidle) hidle
  case isFalse hbusy =>
    obtain ⟨c, hc, hserving⟩ := h.serving hbusy
    obtain ⟨ring, hring, hm⟩ := Option.bind_eq_some_iff.1 hm
    rcases hserving.exec hcap hcap32 hring with hgoes | ⟨ev, x, hev, hcall, hreplay, hsolo, hidle⟩
    · rw [if_neg hgoes.not_idle, Option.some.injEq] at hm
      subst hm
      refine .inl ⟨q, ⟨h.loop, h.queue, h.bound, h.todo, .inr ⟨c, hc, hgoes⟩⟩, ?_⟩
      cases hserving with
      | running hsolo _ =>
          left
          obtain ⟨hle, hlt⟩ := Ringbuf.exec_progress hsolo hcap32 hring
          rw [work_busy hbusy, work_busy hgoes.not_idle]
          cases spurious with
          | false =>
              have hlt := hlt rfl
              simp only [Bool.toNat_false]
              omega
          | true =>
              simp only [Bool.toNat_true]
              omega
      | full _ hfull _ => exact .inr ⟨⟨_, hc⟩, by simpa using hfull⟩
    · rw [if_pos hidle, hev, List.getLast?_append, List.getLast?_singleton, Option.some_or,
        Option.bind_some] at hm
      exact h.returned hreached hapart hc hbusy hcall hreplay hsolo hidle hm

/-- There is a next step as long as there are tasks to push or frames on
the stack. -/
theorem OnRing.possible (h : OnRing address capacity m s q) (hcap : 2 ≤ capacity)
    (hcap32 : capacity < 2 ^ 32) (hgoes : m.todo ≠ [] ∨ m.loop.stack ≠ []) (spurious : Bool) :
    ∃ m', RingLoop.step poll address m spurious = some m' := by
  have hloop : m.todo = [] → ∀ y, ∃ l, EventLoop.step poll (m.loop.setQueue y) () = some l :=
    fun htodo y => step_ne_none poll (hgoes.resolve_left (not_not_intro htodo))
  unfold RingLoop.step
  split
  case isTrue hidle =>
    split
    case h_1 c hc => exact ⟨_, by simp only [Ringbuf.step, hidle, if_pos, Option.map_some]; rfl⟩
    case h_2 hnone =>
      have htodo := (RingLoop.step_of_call_none poll hnone []).1
      obtain ⟨l, hl⟩ := hloop htodo []
      rw [h.setQueue_nil] at hl
      exact ⟨_, by rw [hl, Option.map_some]⟩
  case isFalse hbusy =>
    obtain ⟨c, hc, hserving⟩ := h.serving hbusy
    obtain ⟨ring, hring⟩ := hserving.possible spurious
    rw [hring, Option.bind_some]
    rcases hserving.exec hcap hcap32 hring with hgoes | ⟨ev, x, hev, hcall, -, -, hidle⟩
    · exact ⟨_, if_neg hgoes.not_idle⟩
    · rw [if_pos hidle, hev, List.getLast?_append, List.getLast?_singleton, Option.some_or,
        Option.bind_some]
      rcases RingLoop.call_cases hc with ⟨e, todo, htodo, rfl⟩ | ⟨htodo, e, rest, hpush, rfl⟩ |
        ⟨htodo, rfl, -⟩
      · cases ev with
        | tryPushed | popped => cases hcall
        | pushed y => exact ⟨_, by simp only [RingLoop.returned, htodo]; rfl⟩
      · cases ev with
        | tryPushed | popped => cases hcall
        | pushed y => exact ⟨_, by simp only [RingLoop.returned, htodo]; rfl⟩
      · cases ev with
        | tryPushed | pushed => cases hcall
        | popped advanced r =>
            cases r with
            | none =>
                obtain ⟨l, hl⟩ := hloop htodo []
                rw [h.setQueue_nil] at hl
                exact ⟨_, by rw [RingLoop.returned, hl]; rfl⟩
            | some x =>
                cases hentry : m.loop.entry address x with
                | none => exact ⟨_, by rw [RingLoop.returned, hentry]⟩
                | some e =>
                    obtain ⟨l, hl⟩ := hloop htodo [e]
                    exact ⟨_, by simp only [RingLoop.returned, hentry, hl]; rfl⟩

/-! ### Whole runs -/

variable {s₀ : State π V ε σ}

theorem OnRing.init (h₀ : parallelExpected capacity w ts = some s₀) (hcap : 2 ≤ capacity) :
    OnRing address capacity (RingLoop.init capacity s₀) s₀ [] := by
  obtain ⟨q, hq, rfl⟩ := Option.map_eq_some_iff.1 h₀
  refine ⟨rfl, rfl, rfl, .inr ⟨rfl, ?_⟩, .inl ⟨rfl, Ringbuf.solo_init hcap ()⟩⟩
  exact Fifo.length_of_pushes hq (Nat.zero_le _)

variable {fails : List Bool}

theorem OnRing.reached (hcap : 2 ≤ capacity) (hcap32 : capacity < 2 ^ 32)
    (h₀ : parallelExpected capacity w ts = some s₀)
    (hapart : Along (RingLoop.step poll address) (fun m _ _ => AddressesApart address m.loop)
      (RingLoop.init capacity s₀) fails)
    (hrun : run (RingLoop.step poll address) (RingLoop.init capacity s₀) fails = some m) :
    ∃ bs s q, run (EventLoop.step poll) s₀ bs = some s ∧ OnRing address capacity m s q := by
  refine run_invariant_of_along (I := fun m => ∃ bs s q,
    run (EventLoop.step poll) s₀ bs = some s ∧ OnRing address capacity m s q) ?_ hapart
    ⟨[], s₀, [], rfl, .init h₀ hcap⟩ hrun
  rintro m spurious m' ⟨bs, s, q, hbs, h⟩ hm hapart
  rcases h.step hcap hcap32 (Workers.reached h₀ hbs) hapart hm with
    ⟨q', h', -⟩ | ⟨s', q', hs, h', -⟩
  · exact ⟨bs, s, q', hbs, h'⟩
  · exact ⟨bs ++ [()], s', q', run_trans hbs (by simp [hs]), h'⟩

/-- `parallel_expected` on the ring buffer, whatever compare-exchanges
fail spuriously: what the thread has done so far it has done on a FIFO as
well, and between two calls the slots hold what the FIFO does, less the
tasks that are yet to be pushed. -/
theorem parallel_expected_on_ring (poll : π → σ → Poll π V ε × σ) (address : ℕ → Addr)
    (hcap : 2 ≤ capacity) (hcap32 : capacity < 2 ^ 32)
    (h₀ : parallelExpected capacity w ts = some s₀)
    (hapart : Along (RingLoop.step poll address) (fun m _ _ => AddressesApart address m.loop)
      (RingLoop.init capacity s₀) fails)
    (hrun : run (RingLoop.step poll address) (RingLoop.init capacity s₀) fails = some m) :
    (∃ bs s q, run (EventLoop.step poll) s₀ bs = some s ∧ m.loop = s.setQueue [] ∧
      s.queue = q ++ m.todo ∧ (m.ring.pc () = .idle →
        Rest capacity m.ring.counter m.ring.nodes (q.map (Entry.ptr address)))) ∧
      (m.todo ≠ [] ∨ m.loop.stack ≠ [] →
        ∀ spurious, ∃ m', RingLoop.step poll address m spurious = some m') := by
  obtain ⟨bs, s, q, hbs, h⟩ := OnRing.reached hcap hcap32 h₀ hapart hrun
  refine ⟨⟨bs, s, q, hbs, h.loop, h.queue, fun hidle => ?_⟩, h.possible hcap hcap32⟩
  simpa [hidle, Ringbuf.Phase] using (h.solo hidle).phase

/-- A task that awaits two children, one after the other. -/
def awaitTwice : List (Body (ℕ × ℕ) ℕ String Unit) :=
  [.await (.coReturn 1) fun _ => .await (.coReturn 2) fun r =>
    match r with | .ok v => .coReturn (v + 1) | .error e => .throw e]

/-- The second child is where the first was. -/
def reused (c : ℕ) : Addr := if c = 0 then 16 else 32

theorem awaitTwice_on_ring : ∃ (s₀ : State (ℕ × ℕ) ℕ String Unit) (m : RingLoop _ _ _ _),
    parallelExpected 2 () awaitTwice = some s₀ ∧
      Along (RingLoop.step (countdown ℕ String) reused) (fun m _ _ => AddressesApart reused m.loop)
        (RingLoop.init 2 s₀) (false :: true :: List.replicate 31 false) ∧
      run (RingLoop.step (countdown ℕ String) reused) (RingLoop.init 2 s₀)
        (false :: true :: List.replicate 31 false) = some m ∧
      m.ring.pc () = .idle ∧ RingLoop.step (countdown ℕ String) reused m false = none ∧
      m.loop.outcome = .returned :=
  ⟨_, _, rfl, by decide, rfl, rfl, rfl, rfl⟩

theorem parallel_expected_on_ring_awaitTwice :
    ∃ (s₀ : State (ℕ × ℕ) ℕ String Unit) (m : RingLoop _ _ _ _) (bs : List Unit)
      (s : State (ℕ × ℕ) ℕ String Unit) (q : List Entry),
      parallelExpected 2 () awaitTwice = some s₀ ∧ run (step (countdown ℕ String)) s₀ bs = some s ∧
        m.loop = s.setQueue [] ∧ m.loop.outcome = .returned ∧
        Rest 2 m.ring.counter m.ring.nodes (q.map (Entry.ptr reused)) := by
  obtain ⟨s₀, m, h₀, hapart, hrun, hidle, -, hout⟩ := awaitTwice_on_ring
  obtain ⟨⟨bs, s, q, hbs, hloop, -, hrest⟩, -⟩ := parallel_expected_on_ring (countdown ℕ String)
    reused (by decide) (by decide) h₀ hapart hrun
  exact ⟨s₀, m, bs, s, q, h₀, hbs, hloop, hout, hrest hidle⟩

variable {value : π → Except ε V} {failures : π → ℕ}

/-- A loop with room for its tasks has room for every push. -/
theorem OnRing.not_full (h : OnRing address capacity m s q) (hcap : 2 ≤ capacity)
    (hroom : HasRoom value ts s) : ¬ m.Full address capacity q := by
  rintro ⟨⟨x, hx⟩, hfull⟩
  rcases RingLoop.call_cases hx with ⟨e, todo, htodo, -⟩ | ⟨htodo, e, rest, hpush, -⟩ | ⟨-, hpop, -⟩
  · have hbound := (h.todo.resolve_left (by simp [htodo])).2
    rw [h.queue, htodo, List.length_append, List.length_cons] at hbound
    omega
  · refine hroom.not_spins ⟨e, rest, ?_, ?_⟩
    · rw [← hpush, h.loop]
      rfl
    · rw [h.bound, h.queue, htodo, List.append_nil]
      omega
  · cases hpop

/-- `s` is a state of the run of the thread on a FIFO, which takes `n`
steps in all. -/
structure RingLoop.Bounded (poll : π → σ → Poll π V ε × σ) (value : π → Except ε V)
    (ts : List (Body π V ε σ)) (s₀ : State π V ε σ) (n : ℕ) (m : RingLoop π V ε σ)
    (s : State π V ε σ) (k : ℕ) : Prop where
  room : HasRoom value ts s
  worth : ∃ bs, run (EventLoop.step poll) s₀ bs = some s ∧ m.work + 5 * (n - bs.length) = k

/-- Each step costs something, unless it is a compare-exchange that fails
spuriously. -/
theorem RingLoop.Bounded.step {n k : ℕ} {spurious : Bool}
    (h : RingLoop.Bounded poll value ts s₀ n m s k) (hon : OnRing address capacity m s q)
    (hpoll : Answers poll value) (hcap : 2 ≤ capacity)
    (hn : ∀ bs s, run (EventLoop.step poll) s₀ bs = some s → bs.length ≤ n)
    (hm : Follows poll address capacity m spurious m' s q) :
    ∃ s' q' k', OnRing address capacity m' s' q' ∧
      RingLoop.Bounded poll value ts s₀ n m' s' k' ∧ k' + 1 ≤ k + spurious.toNat := by
  obtain ⟨hroom, bs, hbs, rfl⟩ := h
  rcases hm with ⟨q', h', hless | hfull⟩ | ⟨s', q', hs, h', hless⟩
  · exact ⟨s, q', _, h', ⟨hroom, bs, hbs, rfl⟩, by omega⟩
  · exact absurd hfull (hon.not_full hcap hroom)
  · have hbs' : run (EventLoop.step poll) s₀ (bs ++ [()]) = some s' :=
      run_trans hbs (by simp [hs])
    refine ⟨s', q', _, h', ⟨hroom.step hpoll hs, bs ++ [()], hbs', rfl⟩, ?_⟩
    have hlength := hn _ _ hbs'
    rw [List.length_append, List.length_singleton] at hlength ⊢
    omega

theorem sum_toNat (fails : List Bool) : (fails.map Bool.toNat).sum = fails.count true := by
  induction fails with
  | nil => rfl
  | cons f fails ih => cases f <;> simp [ih, Nat.add_comm]

/-- A loop that has room for its tasks completes them on its ring buffer.
The number of steps is bounded, but for the compare-exchanges that fail
spuriously, and where there is no next step `run_forever` has returned
with the results of direct style, or an awaited child has ended with an
exception and the process is terminated. -/
theorem parallel_expected_completes_on_ring (hpoll : Settles poll value failures)
    (address : ℕ → Addr) (hcap : 2 ≤ capacity) (hcap32 : capacity < 2 ^ 32)
    (h₀ : parallelExpected capacity w ts = some s₀) :
    ∃ n, ∀ fails m, Along (RingLoop.step poll address)
        (fun m _ _ => AddressesApart address m.loop) (RingLoop.init capacity s₀) fails →
      run (RingLoop.step poll address) (RingLoop.init capacity s₀) fails = some m →
      fails.count false ≤ n ∧
        ((∀ spurious, ∃ m', RingLoop.step poll address m spurious = some m') ∨
          m.todo = [] ∧ (m.loop.outcome = .returned ∧ (∀ t ∈ ts, t.ChildrenReturn value) ∧
              (∀ i (hi : i < ts.length), m.loop.expectedValue i = some (ts[i].eval value)) ∨
            m.loop.outcome = .terminated ∧ ¬ ∀ t ∈ ts, t.ChildrenReturn value)) := by
  have hroom₀ : HasRoom value ts s₀ := hasRoom_parallelExpected h₀
  have hrooms : ∀ {bs s}, run (EventLoop.step poll) s₀ bs = some s → HasRoom value ts s :=
    fun hbs => run_invariant (fun _ _ _ h hs => h.step hpoll.toAnswers hs) hroom₀ hbs
  obtain ⟨cs, u, hcs, hend⟩ := hroom₀.ends hpoll
  have hstop : EventLoop.step poll u () = none := by
    have hout : u.outcome ≠ .running := by
      rcases hend with ⟨hout, -⟩ | ⟨hout, -⟩ <;> simp [hout]
    rw [EventLoop.step, (hrooms hcs).stack_eq_nil hout]
  have hn : ∀ bs s, run (EventLoop.step poll) s₀ bs = some s → bs.length ≤ cs.length :=
    fun _ _ hbs => length_le_of_end hcs hstop hbs
  refine ⟨(RingLoop.init capacity s₀).work + 5 * cs.length, fun fails m hapart hrun => ?_⟩
  obtain ⟨k', ⟨s, q, hon, hbounded⟩, hlength⟩ := run_worth (I := fun m k => ∃ s q,
      OnRing address capacity m s q ∧ RingLoop.Bounded poll value ts s₀ cs.length m s k)
    (fun m k spurious m' h hm hapart => by
      obtain ⟨s, q, hon, hbounded⟩ := h
      obtain ⟨bs, hbs, -⟩ := hbounded.worth
      obtain ⟨s', q', k', hon', hbounded', hless⟩ := hbounded.step hon hpoll.toAnswers hcap hn
        (hon.step hcap hcap32 (Workers.reached h₀ hbs) hapart hm)
      exact ⟨k', ⟨s', q', hon', hbounded'⟩, hless⟩)
    hapart ⟨s₀, [], .init h₀ hcap, hroom₀, [], rfl, rfl⟩ hrun
  refine ⟨?_, ?_⟩
  · rw [sum_toNat, ← List.count_false_add_count_true] at hlength
    omega
  · by_cases hgoes : m.todo ≠ [] ∨ m.loop.stack ≠ []
    · exact .inl (hon.possible hcap hcap32 hgoes)
    · rw [not_or, not_ne_iff, not_ne_iff, hon.loop] at hgoes
      rw [hon.loop]
      exact .inr ⟨hgoes.1, hbounded.room.ended hgoes.2⟩

theorem parallel_expected_completes_on_ring_awaitTwice :
    ∃ (s₀ : State (ℕ × ℕ) ℕ String Unit) (m : RingLoop _ _ _ _),
      parallelExpected 2 () awaitTwice = some s₀ ∧
        run (RingLoop.step (countdown ℕ String) reused) (RingLoop.init 2 s₀)
          (false :: true :: List.replicate 31 false) = some m ∧
        m.loop.expectedValue 0 = some (.ok 3) := by
  obtain ⟨s₀, m, h₀, hapart, hrun, -, hstop, hout⟩ := awaitTwice_on_ring
  obtain ⟨n, hn⟩ := parallel_expected_completes_on_ring countdown_settles reused (by decide)
    (by decide) h₀
  obtain ⟨-, hend⟩ := hn _ m hapart hrun
  refine ⟨s₀, m, h₀, hrun, ?_⟩
  rcases hend with hgoes | ⟨-, ⟨-, -, hresults⟩ | ⟨hterminated, -⟩⟩
  · obtain ⟨m', hm'⟩ := hgoes false
    simp [hstop] at hm'
  · exact hresults 0 (by decide)
  · simp [hout] at hterminated

end

end JowiAsio.EventLoop

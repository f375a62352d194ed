import Mathlib.Data.List.Basic
import Mathlib.Tactic.Common

/-!
`InfiniteAwaiter` (`awaitable.cc`), awaited through its own
`await_suspend` and through `LoopAwaitable`.

A poller is given by what its calls return: the outcome of each poll, in
order, and of `poll_block` where it has one. An await records the calls
it makes, so that what it has acquired can be read off afterwards. Both
ways poll once before they suspend. `LoopAwaitable` goes on polling until
a poll succeeds. `await_suspend` does the same for a poller without
`poll_block`, calls `poll_block` for one that returns a value, and for
one that returns `void` calls nothing, so there the coroutine goes on
with nothing acquired.
-/

namespace JowiAsio.Awaitables

/-! ### Pollers -/

/-- `ValueType` of a poller. -/
inductive ValueType
  | void
  | value (α : Type)

namespace ValueType

/-- What an acquisition delivers. -/
abbrev Val : ValueType → Type
  | void => Unit
  | value α => α

/-- `ResultType`: a `bool`, or an `optional` of the value. -/
abbrev Result : ValueType → Type
  | void => Bool
  | value α => Option α

/-- `static_cast<bool>` of a result. -/
def isReady : (V : ValueType) → V.Result → Bool
  | void, res => res
  | value _, res => res.isSome

/-- What a poll with this result has acquired. -/
def acquired : (V : ValueType) → V.Result → Option V.Val
  | void, res => if res then some () else none
  | value _, res => res

/-- `await_resume`; `none` is the exception that an empty `optional`
throws. -/
def awaitResume : (V : ValueType) → V.Result → Option V.Val
  | void, _ => some ()
  | value _, res => res

/-- The result before the first poll, which nothing reads. -/
def noResult : (V : ValueType) → V.Result
  | void => false
  | value _ => none

end ValueType

/-- The outcome of the `n`-th poll, and that of `poll_block` if the poller
has it: `some none` never returns. -/
structure Poller (V : ValueType) where
  poll : ℕ → V.Result
  pollBlock : Option (Option V.Val)

/-- A call that has returned. -/
inductive Call (V : ValueType)
  | polled (res : V.Result)
  | blocked (v : V.Val)

def Call.acquired {V : ValueType} : Call V → Option V.Val
  | .polled res => V.acquired res
  | .blocked v => some v

/-! ### The two ways to await -/

structure InfiniteAwaiter (V : ValueType) where
  res : V.Result
  calls : List (Call V)

variable {V : ValueType}

namespace InfiniteAwaiter

def init (V : ValueType) : InfiniteAwaiter V := ⟨V.noResult, []⟩

def awaitReady (p : Poller V) (a : InfiniteAwaiter V) : Bool × InfiniteAwaiter V :=
  let res := p.poll a.calls.length
  (V.isReady res, ⟨res, a.calls ++ [.polled res]⟩)

/-- The loop `while (!await_ready())`, for at most `fuel` polls. -/
def pollLoop (p : Poller V) : ℕ → InfiniteAwaiter V → Option (InfiniteAwaiter V)
  | 0, _ => none
  | fuel + 1, a =>
      match awaitReady p a with
      | (true, a') => some a'
      | (false, a') => pollLoop p fuel a'

/-- `await_suspend` of a poller with `poll_block`: the result takes the
value that it returns, and where there is no value it is not called. -/
def emplaceBlocking : {V : ValueType} → Option V.Val → InfiniteAwaiter V →
    Option (InfiniteAwaiter V)
  | .void, _, a => some a
  | .value _, ret, a => ret.map fun v => ⟨some v, a.calls ++ [.blocked v]⟩

def awaitSuspend (p : Poller V) (fuel : ℕ) (a : InfiniteAwaiter V) :
    Option (InfiniteAwaiter V) :=
  match p.pollBlock with
  | some ret => emplaceBlocking ret a
  | none => pollLoop p fuel a

/-- `co_await` of the awaiter itself, up to `await_resume`. -/
def coAwait (p : Poller V) (fuel : ℕ) : Option (InfiniteAwaiter V) :=
  match awaitReady p (init V) with
  | (true, a) => some a
  | (false, a) => awaitSuspend p fuel a

end InfiniteAwaiter

namespace LoopAwaitable

/-- Each `__rec_wait` polls once and after a failure pushes the next one,
so together they are a loop of polls. -/
def recWait (p : Poller V) (fuel : ℕ) (a : InfiniteAwaiter V) : Option (InfiniteAwaiter V) :=
  InfiniteAwaiter.pollLoop p fuel a

/-- `co_await` of the awaiter in a `BasicTask`, up to `await_resume`. -/
def coAwait (p : Poller V) (fuel : ℕ) : Option (InfiniteAwaiter V) :=
  match InfiniteAwaiter.awaitReady p (.init V) with
  | (true, a) => some a
  | (false, a) => recWait p fuel a

end LoopAwaitable

/-! ### What an await has to do -/

/-- One call has acquired, the last one, and `await_resume` delivers what
it has acquired. -/
def InfiniteAwaiter.Acquired (a : InfiniteAwaiter V) : Prop :=
  ∃ failed call v, a.calls = failed ++ [call] ∧ (∀ c ∈ failed, Call.acquired c = none) ∧
    call.acquired = some v ∧ V.awaitResume a.res = some v

/-- Both ways go on only after they have acquired, and do go on when some
poll succeeds and `poll_block`, if there is one, returns. -/
structure Agrees (p : Poller V) : Prop where
  own : ∀ fuel a, InfiniteAwaiter.coAwait p fuel = some a → a.Acquired
  deferred : ∀ fuel a, LoopAwaitable.coAwait p fuel = some a → a.Acquired
  own_returns : (∃ n, V.isReady (p.poll n) = true) → (∀ ret, p.pollBlock = some ret → ret.isSome) →
    ∃ fuel a, InfiniteAwaiter.coAwait p fuel = some a
  deferred_returns : (∃ n, V.isReady (p.poll n) = true) →
    ∃ fuel a, LoopAwaitable.coAwait p fuel = some a

/-! ### The polling loop -/

namespace ValueType

theorem acquired_eq_none {res : V.Result} (h : V.isReady res = false) : V.acquired res = none := by
  cases V with
  | void =>
      obtain rfl : res = false := h
      rfl
  | value α =>
      cases res with
      | none => rfl
      | some v => simp [isReady] at h

/-- After a successful poll `await_resume` delivers what it acquired. -/
theorem awaitResume_of_ready {res : V.Result} (h : V.isReady res = true) :
    ∃ v, V.acquired res = some v ∧ V.awaitResume res = some v := by
  cases V with
  | void =>
      obtain rfl : res = true := h
      exact ⟨(), rfl, rfl⟩
  | value α =>
      obtain ⟨v, hv⟩ := Option.isSome_iff_exists.1 h
      exact ⟨v, hv, hv⟩

end ValueType

/-- Nothing has been acquired so far. -/
def InfiniteAwaiter.Waiting (a : InfiniteAwaiter V) : Prop :=
  ∀ c ∈ a.calls, Call.acquired c = none

namespace InfiniteAwaiter

variable {p : Poller V} {a a' : InfiniteAwaiter V} {fuel : ℕ}

theorem waiting_init : (init V).Waiting := fun _ hc => absurd hc List.not_mem_nil

theorem Waiting.ready (h : a.Waiting) (hready : awaitReady p a = (true, a')) : a'.Acquired := by
  simp only [awaitReady, Prod.mk.injEq] at hready
  obtain ⟨hready, rfl⟩ := hready
  obtain ⟨v, hv, hres⟩ := ValueType.awaitResume_of_ready hready
  exact ⟨a.calls, _, v, rfl, h, hv, hres⟩

theorem Waiting.notReady (h : a.Waiting) (hready : awaitReady p a = (false, a')) : a'.Waiting := by
  simp only [awaitReady, Prod.mk.injEq] at hready
  obtain ⟨hready, rfl⟩ := hready
  intro c hc
  rcases List.mem_append.1 hc with hc | hc
  · exact h c hc
  · rw [List.mem_singleton.1 hc]
    exact ValueType.acquired_eq_none hready

theorem Waiting.not_acquired (h : a.Waiting) : ¬a.Acquired := by
  rintro ⟨failed, call, v, hcalls, -, hv, -⟩
  simp [h call (by simp [hcalls])] at hv

theorem Waiting.pollLoop (h : a.Waiting) (hloop : pollLoop p fuel a = some a') :
    a'.Acquired := by
  induction fuel generalizing a with
  | zero => simp [InfiniteAwaiter.pollLoop] at hloop
  | succ fuel ih =>
      rw [InfiniteAwaiter.pollLoop] at hloop
      split at hloop
      next b hready =>
        rw [← Option.some.inj hloop]
        exact h.ready hready
      next b hready => exact ih (h.notReady hready) hloop

/-- The loop ends at the first poll from here that succeeds. -/
theorem pollLoop_returns {n : ℕ} (hn : V.isReady (p.poll n) = true) (hlen : a.calls.length ≤ n) :
    ∃ fuel a', InfiniteAwaiter.pollLoop p fuel a = some a' := by
  obtain ⟨k, rfl⟩ := Nat.exists_eq_add_of_le hlen
  induction k generalizing a with
  | zero =>
      obtain ⟨b, hready⟩ : ∃ b, awaitReady p a = (true, b) := ⟨_, Prod.ext hn rfl⟩
      exact ⟨1, b, by simp [InfiniteAwaiter.pollLoop, hready]⟩
  | succ k ih =>
      cases hready : awaitReady p a with
      | mk r b =>
          cases r with
          | true => exact ⟨1, b, by simp [InfiniteAwaiter.pollLoop, hready]⟩
          | false =>
              have hb : b.calls.length = a.calls.length + 1 := by
                simp only [awaitReady, Prod.mk.injEq] at hready
                rw [← hready.2, List.length_append, List.length_singleton]
              have hnext : b.calls.length + k = a.calls.length + (k + 1) := by omega
              obtain ⟨fuel, a', hloop⟩ := ih (a := b) (by rw [hnext, hn]) (by omega)
              exact ⟨fuel + 1, a', by simpa [InfiniteAwaiter.pollLoop, hready] using hloop⟩

end InfiniteAwaiter

/-! ### When both ways agree -/

section

variable {p : Poller V} {a : InfiniteAwaiter V} {fuel : ℕ}

theorem LoopAwaitable.acquired (h : LoopAwaitable.coAwait p fuel = some a) : a.Acquired := by
  rw [LoopAwaitable.coAwait] at h
  split at h
  next b hready =>
    rw [← Option.some.inj h]
    exact InfiniteAwaiter.waiting_init.ready hready
  next b hready => exact (InfiniteAwaiter.waiting_init.notReady hready).pollLoop h

theorem LoopAwaitable.returns {n : ℕ} (hn : V.isReady (p.poll n) = true) :
    ∃ fuel a, LoopAwaitable.coAwait p fuel = some a := by
  obtain ⟨fuel, a, h⟩ := InfiniteAwaiter.pollLoop_returns (p := p) (a := .init V) hn (Nat.zero_le n)
  cases fuel with
  | zero => simp [InfiniteAwaiter.pollLoop] at h
  | succ fuel => exact ⟨fuel, a, h⟩

/-- Without `poll_block` both ways are the same loop. -/
theorem coAwait_of_no_pollBlock (h : p.pollBlock = none) (fuel : ℕ) :
    InfiniteAwaiter.coAwait p fuel = LoopAwaitable.coAwait p fuel := by
  simp only [InfiniteAwaiter.coAwait, LoopAwaitable.coAwait, InfiniteAwaiter.awaitSuspend, h,
    LoopAwaitable.recWait]

/-- After a first poll that succeeds neither way suspends. -/
theorem coAwait_of_ready (h : V.isReady (p.poll 0) = true) (fuel : ℕ) :
    InfiniteAwaiter.coAwait p fuel = LoopAwaitable.coAwait p fuel := by
  obtain ⟨b, hready⟩ : ∃ b, InfiniteAwaiter.awaitReady p (.init V) = (true, b) :=
    ⟨_, Prod.ext h rfl⟩
  simp only [InfiniteAwaiter.coAwait, LoopAwaitable.coAwait, hready]

theorem InfiniteAwaiter.returns {n : ℕ} (hn : V.isReady (p.poll n) = true)
    (hblock : ∀ ret, p.pollBlock = some ret → ret.isSome) :
    ∃ fuel a, InfiniteAwaiter.coAwait p fuel = some a := by
  cases hp : p.pollBlock with
  | none =>
      obtain ⟨fuel, a, h⟩ := LoopAwaitable.returns hn
      exact ⟨fuel, a, by rw [coAwait_of_no_pollBlock hp, h]⟩
  | some ret =>
      refine ⟨0, ?_⟩
      obtain ⟨v, rfl⟩ := Option.isSome_iff_exists.1 (hblock ret hp)
      cases hready : awaitReady p (init V) with
      | mk r b =>
          simp only [coAwait, hready, awaitSuspend, hp]
          cases r with
          | true => exact ⟨b, rfl⟩
          | false => cases V <;> exact ⟨_, rfl⟩

/-- A poller of values that has `poll_block` waits in it. -/
theorem acquired_of_value {α : Type} {p : Poller (.value α)} {a : InfiniteAwaiter (.value α)}
    {ret : Option α} (hp : p.pollBlock = some ret)
    (h : InfiniteAwaiter.coAwait p fuel = some a) : a.Acquired := by
  rw [InfiniteAwaiter.coAwait] at h
  split at h
  next b hready =>
    rw [← Option.some.inj h]
    exact InfiniteAwaiter.waiting_init.ready hready
  next b hready =>
    rw [InfiniteAwaiter.awaitSuspend, hp] at h
    obtain ⟨v, -, rfl⟩ := Option.map_eq_some_iff.1 h
    exact ⟨b.calls, .blocked v, v, rfl, InfiniteAwaiter.waiting_init.notReady hready, rfl, rfl⟩

/-- A poller of `void` that has `poll_block` goes on after its first poll. -/
theorem not_acquired_of_void {p : Poller .void} {ret : Option Unit} (hp : p.pollBlock = some ret)
    (hpoll : p.poll 0 = false) (fuel : ℕ) :
    ∃ a, InfiniteAwaiter.coAwait p fuel = some a ∧ ¬a.Acquired := by
  obtain ⟨b, hready⟩ : ∃ b, InfiniteAwaiter.awaitReady p (.init .void) = (false, b) :=
    ⟨_, Prod.ext hpoll rfl⟩
  refine ⟨b, ?_, (InfiniteAwaiter.waiting_init.notReady hready).not_acquired⟩
  simp only [InfiniteAwaiter.coAwait, hready, InfiniteAwaiter.awaitSuspend, hp,
    InfiniteAwaiter.emplaceBlocking]

end

/-- The two ways agree if and only if the poller returns a value, or has
no `poll_block`, or its first poll succeeds. -/
theorem awaits_agree_iff (p : Poller V) :
    Agrees p ↔ V ≠ .void ∨ p.pollBlock = none ∨ V.isReady (p.poll 0) = true := by
  constructor
  · intro h
    by_contra hcond
    simp only [not_or, not_not, Bool.not_eq_true] at hcond
    obtain ⟨rfl, hblock, hpoll⟩ := hcond
    obtain ⟨ret, hp⟩ := Option.ne_none_iff_exists'.1 hblock
    obtain ⟨a, ha, hnot⟩ := not_acquired_of_void hp hpoll 0
    exact hnot (h.own 0 a ha)
  · intro hcond
    refine ⟨fun fuel a h => ?_, fun fuel a h => LoopAwaitable.acquired h,
      fun ⟨n, hn⟩ hblock => InfiniteAwaiter.returns hn hblock,
      fun ⟨n, hn⟩ => LoopAwaitable.returns hn⟩
    cases hp : p.pollBlock with
    | none => exact LoopAwaitable.acquired (coAwait_of_no_pollBlock hp fuel ▸ h)
    | some ret =>
        rcases hcond with hvalue | hnone | hready
        · cases V with
          | void => exact absurd rfl hvalue
          | value α => exact acquired_of_value hp h
        · simp [hp] at hnone
        · exact LoopAwaitable.acquired (coAwait_of_ready hready fuel ▸ h)

/-! ### The pollers of `awaitables.cc` that return `void` -/

/-- `permits n` is the number of permits that the `n`-th poll finds; the
blocking call returns when it has got one. -/
def SemaAcquirePoller (permits : ℕ → ℕ) : Poller .void :=
  ⟨fun n => decide (0 < permits n), some (some ())⟩

/-- `now n` is the time of the `n`-th poll; the blocking call sleeps
until `endTp`. -/
def SleepPoller (now : ℕ → ℕ) (endTp : ℕ) : Poller .void :=
  ⟨fun n => decide (endTp ≤ now n), some (some ())⟩

/-- With no permit left, or before the deadline, the coroutine goes on
after one poll that failed. -/
theorem awaits_agree_noPermit :
    InfiniteAwaiter.coAwait (SemaAcquirePoller fun _ => 0) 5 = some ⟨false, [.polled false]⟩ ∧
      InfiniteAwaiter.coAwait (SleepPoller id 5) 5 = some ⟨false, [.polled false]⟩ ∧
      ¬Agrees (SemaAcquirePoller fun _ => 0) ∧ ¬Agrees (SleepPoller id 5) := by
  have hgoesOn : ∀ {p : Poller .void},
      InfiniteAwaiter.coAwait p 5 = some ⟨false, [.polled false]⟩ → ¬Agrees p := by
    intro p hp h
    obtain ⟨failed, call, v, hcalls, -, hv, -⟩ := h.own 5 _ hp
    have hcall := List.mem_append_right failed (List.mem_singleton_self call)
    rw [← hcalls, List.mem_singleton] at hcall
    rw [hcall] at hv
    exact absurd hv (by simp [Call.acquired, ValueType.acquired])
  exact ⟨rfl, rfl, hgoesOn rfl, hgoesOn rfl⟩

end JowiAsio.Awaitables

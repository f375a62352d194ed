import JowiAsio.Awaitables.InfiniteAwaiter
import Mathlib.Data.Int.Notation
import Mathlib.Logic.Function.Iterate

/-!
`TimedAwaiter` (`awaitable.cc`), awaited through its own `await_suspend`
and through `LoopAwaitable`.

A round of an await polls, puts the outcome in place of the one before,
and only then reads the clock. The two ways to await run their rounds
differently: `await_suspend` in a loop on the thread that awaits,
`LoopAwaitable` by one `__rec_wait` a round, between other tasks of the
loop. Nothing is assumed of the outcomes and of the readings, which need
not even increase.
-/

namespace JowiAsio.Awaitables

/-- What the rounds of an await meet: the outcome of the `n`-th poll and
the reading of the clock after it. -/
structure Rounds (V : ValueType) where
  poll : ℕ → V.Result
  now : ℕ → ℤ

/-- The awaiter, with the outcomes of the polls of the present await. -/
structure TimedAwaiter (V : ValueType) where
  endTp : ℤ
  res : V.Result
  polls : List V.Result

variable {V : ValueType}

/-! ### The two ways to await -/

namespace TimedAwaiter

/-- The constructor, called at `now`. -/
def make (V : ValueType) (now dur : ℤ) : TimedAwaiter V := ⟨now + dur, V.noResult, []⟩

def setTimeout (now dur : ℤ) (a : TimedAwaiter V) : TimedAwaiter V := { a with endTp := now + dur }

/-- The awaiter at the begin of an await, with what an earlier one left. -/
def fresh (a : TimedAwaiter V) : TimedAwaiter V := { a with polls := [] }

def awaitReady (p : Rounds V) (a : TimedAwaiter V) : Bool × TimedAwaiter V :=
  let res := p.poll a.polls.length
  let isOvertime := decide (a.endTp ≤ p.now a.polls.length)
  (V.isReady res || isOvertime, { a with res := res, polls := a.polls ++ [res] })

/-- The loop `while (!await_ready())`, for at most `fuel` rounds. -/
def awaitSuspend (p : Rounds V) : ℕ → TimedAwaiter V → Option (TimedAwaiter V)
  | 0, _ => none
  | fuel + 1, a =>
      match awaitReady p a with
      | (true, a') => some a'
      | (false, a') => awaitSuspend p fuel a'

def awaitResume (a : TimedAwaiter V) : V.Result := a.res

/-- `co_await` of the awaiter itself, up to `await_resume`. -/
def coAwait (p : Rounds V) (fuel : ℕ) (a : TimedAwaiter V) : Option (TimedAwaiter V) :=
  match awaitReady p a.fresh with
  | (true, a') => some a'
  | (false, a') => awaitSuspend p fuel a'

end TimedAwaiter

/-- The coroutine that awaits in a `BasicTask`: it waits for a
`__rec_wait` in the queue of the loop, or it has gone on. -/
inductive Waiter (V : ValueType)
  | queued (a : TimedAwaiter V)
  | resumed (a : TimedAwaiter V)

namespace LoopAwaitable

def wait : Bool × TimedAwaiter V → Waiter V
  | (true, a) => .resumed a
  | (false, a) => .queued a

/-- The loop runs the `__rec_wait`, which resumes the coroutine or pushes
the next one. -/
def recWaitRun (p : Rounds V) : Waiter V → Waiter V
  | .queued a => wait (a.awaitReady p)
  | .resumed a => .resumed a

/-- `co_await` of the awaiter in a `BasicTask`, up to `await_resume`, when
the loop runs at most `runs` of its `__rec_wait`s. -/
def coAwaitTimed (p : Rounds V) (runs : ℕ) (a : TimedAwaiter V) : Option (TimedAwaiter V) :=
  match (recWaitRun p)^[runs] (wait (a.fresh.awaitReady p)) with
  | .resumed a' => some a'
  | .queued _ => none

end LoopAwaitable

/-! ### What an await has to do -/

namespace Rounds

/-- The poll succeeds, or the clock read after it is at or past the
deadline. -/
def Stops (p : Rounds V) (endTp : ℤ) (n : ℕ) : Prop :=
  V.isReady (p.poll n) = true ∨ endTp ≤ p.now n

def FirstStop (p : Rounds V) (endTp : ℤ) (n : ℕ) : Prop :=
  p.Stops endTp n ∧ ∀ m < n, ¬p.Stops endTp m

end Rounds

/-- The await ends after the first round that stops and with its outcome.
Of its polls only the last one may have succeeded, and the result says
whether it has. -/
structure Honours (p : Rounds V) (a : TimedAwaiter V)
    (coAwait : ℕ → Option (TimedAwaiter V)) : Prop where
  returns : ∀ n, p.FirstStop a.endTp n → ∃ a', coAwait n = some a'
  stops : ∀ fuel a', coAwait fuel = some a' → ∃ n ≤ fuel, p.FirstStop a.endTp n ∧
    a'.polls = (List.range (n + 1)).map p.poll ∧ a'.awaitResume = p.poll n
  delivers : ∀ fuel a', coAwait fuel = some a' →
    (V.isReady a'.awaitResume = true ↔ a'.polls.countP V.isReady = 1)
  noPollAfter : ∀ fuel a', coAwait fuel = some a' →
    ∀ res ∈ a'.polls.dropLast, V.isReady res = false
  late : ∀ fuel a' n, coAwait fuel = some a' → p.FirstStop a.endTp n →
    a.endTp ≤ p.now n → V.isReady (p.poll n) = true → V.isReady a'.awaitResume = true

/-! ### Rounds -/

namespace TimedAwaiter

variable {p : Rounds V} {a a' b : TimedAwaiter V} {fuel n : ℕ}

/-- `n` rounds of the present await are over. -/
def After (p : Rounds V) (n : ℕ) (a : TimedAwaiter V) : Prop :=
  a.polls = (List.range n).map p.poll

theorem after_fresh : a.fresh.After p 0 := rfl

theorem After.length (h : a.After p n) : a.polls.length = n := by
  rw [h, List.length_map, List.length_range]

theorem After.awaitReady_fst (h : a.After p n) :
    (awaitReady p a).1 = true ↔ p.Stops a.endTp n := by
  simp [awaitReady, Rounds.Stops, h.length]

theorem After.awaitReady_snd (h : a.After p n) :
    awaitReady p a = ((awaitReady p a).1, b) → b.After p (n + 1) ∧ b.res = p.poll n ∧
      b.endTp = a.endTp := by
  intro hb
  obtain rfl : (awaitReady p a).2 = b := congrArg Prod.snd hb
  refine ⟨?_, ?_, rfl⟩
  · simp only [awaitReady, After, h.length]
    rw [h, List.range_succ, List.map_append, List.map_singleton]
  · simp only [awaitReady, h.length]

/-- A round that stops, and one that does not. -/
theorem After.round (h : a.After p n) :
    (p.Stops a.endTp n ∧ ∃ b, awaitReady p a = (true, b) ∧ b.After p (n + 1) ∧
        b.res = p.poll n ∧ b.endTp = a.endTp) ∨
      (¬p.Stops a.endTp n ∧ ∃ b, awaitReady p a = (false, b) ∧ b.After p (n + 1) ∧
        b.endTp = a.endTp) := by
  cases hready : awaitReady p a with
  | mk ready b =>
      have hfst := h.awaitReady_fst
      have hsnd := h.awaitReady_snd (b := b) (by rw [hready])
      rw [hready] at hfst
      cases ready with
      | true => exact .inl ⟨hfst.1 rfl, b, rfl, hsnd⟩
      | false => exact .inr ⟨fun hstop => by simpa using hfst.2 hstop, b, rfl, hsnd.1, hsnd.2.2⟩

/-- From `n` rounds on, the loop ends with the first round that stops. -/
theorem awaitSuspend_some (h : a.After p n) (hbefore : ∀ m < n, ¬p.Stops a.endTp m)
    (hloop : awaitSuspend p fuel a = some a') :
    ∃ k < n + fuel, p.FirstStop a.endTp k ∧ a'.After p (k + 1) ∧ a'.res = p.poll k := by
  induction fuel generalizing a n with
  | zero => simp [awaitSuspend] at hloop
  | succ fuel ih =>
      rw [awaitSuspend] at hloop
      rcases h.round with ⟨hstop, b, hready, hafter, hres, -⟩ | ⟨hstop, b, hready, hafter, hend⟩
      · rw [hready] at hloop
        obtain rfl := Option.some.inj hloop
        exact ⟨n, by omega, ⟨hstop, hbefore⟩, hafter, hres⟩
      · rw [hready] at hloop
        have hbefore' : ∀ m < n + 1, ¬p.Stops b.endTp m := by
          intro m hm
          rw [hend]
          rcases Nat.lt_succ_iff_lt_or_eq.1 hm with hm | rfl
          · exact hbefore m hm
          · exact hstop
        obtain ⟨k, hk, hfirst, hrest⟩ := ih hafter hbefore' hloop
        exact ⟨k, by omega, hend ▸ hfirst, hrest⟩

/-- The loop does end when a later round stops. -/
theorem awaitSuspend_returns (h : a.After p n) (hstop : p.Stops a.endTp (n + fuel)) :
    ∃ a', awaitSuspend p (fuel + 1) a = some a' := by
  induction fuel generalizing a n with
  | zero =>
      rcases h.round with ⟨-, b, hready, -⟩ | ⟨hnot, -⟩
      · exact ⟨b, by rw [awaitSuspend, hready]⟩
      · exact absurd hstop hnot
  | succ fuel ih =>
      rcases h.round with ⟨-, b, hready, -⟩ | ⟨-, b, hready, hafter, hend⟩
      · exact ⟨b, by rw [awaitSuspend, hready]⟩
      · rw [awaitSuspend, hready]
        refine ih hafter ?_
        rw [hend, Nat.add_right_comm]
        exact hstop

end TimedAwaiter

/-- The `__rec_wait`s make the rounds of the loop. -/
theorem LoopAwaitable.iterate_recWaitRun (p : Rounds V) (runs : ℕ) (a a' : TimedAwaiter V) :
    (recWaitRun p)^[runs] (.queued a) = .resumed a' ↔
      TimedAwaiter.awaitSuspend p runs a = some a' := by
  have hresumed : ∀ k b, (recWaitRun p)^[k] (.resumed b) = .resumed b :=
    fun k b => Function.iterate_fixed rfl k
  induction runs generalizing a with
  | zero => simp [TimedAwaiter.awaitSuspend]
  | succ runs ih =>
      rw [Function.iterate_succ_apply, recWaitRun, TimedAwaiter.awaitSuspend]
      cases hready : a.awaitReady p with
      | mk ready b =>
          cases ready with
          | true => simp only [wait, hresumed, Waiter.resumed.injEq, Option.some.injEq]
          | false => exact ih b

/-- Both ways go through the same rounds. -/
theorem LoopAwaitable.coAwaitTimed_eq (p : Rounds V) (runs : ℕ) (a : TimedAwaiter V) :
    coAwaitTimed p runs a = a.coAwait p runs := by
  rw [coAwaitTimed, TimedAwaiter.coAwait]
  cases hready : a.fresh.awaitReady p with
  | mk ready b =>
      cases ready with
      | true => simp only [wait, Function.iterate_fixed (f := recWaitRun p) (x := .resumed b) rfl]
      | false =>
          ext a'
          have hiff := iterate_recWaitRun p runs b a'
          cases hw : (recWaitRun p)^[runs] (.queued b) with
          | queued c =>
              rw [hw] at hiff
              simpa [wait, hw] using hiff
          | resumed c =>
              rw [hw] at hiff
              simpa [wait, hw] using hiff

/-! ### The await -/

namespace TimedAwaiter

variable {p : Rounds V} {a a' : TimedAwaiter V} {fuel n : ℕ}

theorem coAwait_some (h : coAwait p fuel a = some a') :
    ∃ n ≤ fuel, p.FirstStop a.endTp n ∧ a'.After p (n + 1) ∧ a'.res = p.poll n := by
  rw [coAwait] at h
  rcases (after_fresh (p := p) (a := a)).round with
    ⟨hstop, b, hready, hafter, hres, -⟩ | ⟨hstop, b, hready, hafter, hend⟩
  · rw [hready] at h
    obtain rfl := Option.some.inj h
    exact ⟨0, Nat.zero_le _, ⟨hstop, fun m hm => absurd hm (Nat.not_lt_zero m)⟩, hafter, hres⟩
  · rw [hready] at h
    have hbefore : ∀ m < 1, ¬p.Stops b.endTp m := by
      intro m hm
      obtain rfl : m = 0 := by omega
      exact hend ▸ hstop
    obtain ⟨k, hk, hfirst, hrest⟩ := awaitSuspend_some hafter hbefore h
    exact ⟨k, by omega, hend ▸ hfirst, hrest⟩

theorem coAwait_returns (h : p.FirstStop a.endTp n) : ∃ a', coAwait p n a = some a' := by
  rw [coAwait]
  rcases (after_fresh (p := p) (a := a)).round with
    ⟨-, b, hready, -⟩ | ⟨hstop, b, hready, hafter, hend⟩
  · exact ⟨b, by rw [hready]⟩
  · rw [hready]
    cases n with
    | zero => exact absurd h.1 hstop
    | succ k =>
        refine awaitSuspend_returns hafter ?_
        rw [hend, Nat.add_comm]
        exact h.1

/-- Of the polls up to the first round that stops, only the last one may
have succeeded. -/
theorem isReady_of_lt (h : p.FirstStop a.endTp n) {m : ℕ} (hm : m < n) :
    V.isReady (p.poll m) = false := by
  cases hready : V.isReady (p.poll m) with
  | false => rfl
  | true => exact absurd (.inl hready) (h.2 m hm)

theorem countP_polls (h : p.FirstStop a.endTp n) (hafter : a'.After p (n + 1)) :
    a'.polls.countP V.isReady = if V.isReady (p.poll n) = true then 1 else 0 := by
  rw [hafter, List.range_succ, List.map_append, List.countP_append, List.map_singleton,
    List.countP_singleton, List.countP_eq_zero.2, Nat.zero_add]
  intro res hres
  obtain ⟨m, hm, rfl⟩ := List.mem_map.1 hres
  simp [isReady_of_lt h (List.mem_range.1 hm)]

theorem coAwait_honours (p : Rounds V) (a : TimedAwaiter V) :
    Honours p a fun fuel => coAwait p fuel a := by
  refine ⟨fun n => coAwait_returns, ?_, ?_, ?_, ?_⟩
  · intro fuel a' h
    exact coAwait_some h
  · intro fuel a' h
    obtain ⟨n, -, hfirst, hafter, hres⟩ := coAwait_some h
    rw [countP_polls hfirst hafter, awaitResume, hres]
    by_cases hready : V.isReady (p.poll n) = true
    · rw [if_pos hready]
      exact iff_of_true hready rfl
    · rw [if_neg hready]
      exact iff_of_false hready Nat.zero_ne_one
  · intro fuel a' h res hmem
    obtain ⟨n, -, hfirst, hafter, -⟩ := coAwait_some h
    rw [hafter, List.range_succ, List.map_append, List.map_singleton, List.dropLast_concat] at hmem
    obtain ⟨m, hm, rfl⟩ := List.mem_map.1 hmem
    exact isReady_of_lt hfirst (List.mem_range.1 hm)
  · intro fuel a' n h hn _ hready
    obtain ⟨k, -, hk, -, hres⟩ := coAwait_some h
    -- the first round that stops is unique
    have hkn : k = n := by
      rcases Nat.lt_trichotomy k n with hlt | rfl | hlt
      · exact absurd hk.1 (hn.2 k hlt)
      · rfl
      · exact absurd hn.1 (hk.2 n hlt)
    rw [awaitResume, hres, hkn]
    exact hready

end TimedAwaiter

/-- Both ways to await a `TimedAwaiter` honour its deadline and deliver
what the last round has acquired. -/
theorem timedAwaiter_honours (p : Rounds V) (a : TimedAwaiter V) :
    Honours p a (fun fuel => a.coAwait p fuel) ∧
      Honours p a (fun runs => LoopAwaitable.coAwaitTimed p runs a) := by
  refine ⟨TimedAwaiter.coAwait_honours p a, ?_⟩
  simp only [LoopAwaitable.coAwaitTimed_eq]
  exact TimedAwaiter.coAwait_honours p a

/-- The third poll succeeds in the round in which the deadline passes. -/
example : LoopAwaitable.coAwaitTimed ⟨fun n => decide (n = 2), Int.ofNat⟩ 5
    (TimedAwaiter.setTimeout 0 2 (.make .void 0 9)) = some ⟨2, true, [false, false, true]⟩ := rfl

end JowiAsio.Awaitables

import JowiAsio.Ringbuf.Transitions

/-!
The slot indices of the ring buffer stay in range exactly when it has at
least two slots.

With two slots or more both hard-coded guesses of the operations are
values the checked computation could also have produced, so every counter
value a compare-exchange installs is below the capacity, and the index an
operation uses is the one its compare-exchange has just confirmed
(`IndexInv`). With a single slot the guess `(0, 0) → (1, 0)` already
leaves the range.
-/

namespace JowiAsio.Ringbuf

open Lib TaggedPtr

variable {D : DeleterSize} {Tid : Type} [DecidableEq Tid]

/-- Both halves of a counter value are slots of a ring of `n`. -/
def PointerType.Below (p : PointerType) (n : ℕ) : Prop := p.push < n ∧ p.pop < n

/-- The locals of a thread only name slots of a ring of `n`. -/
def Pc.Below (n : ℕ) : Pc D → Prop
  | .idle => True
  | .push _ e d | .tryPush _ e d | .pop e d => e.Below n ∧ d.Below n
  | .store _ _ i | .take i => i < n

/-- Both halves of the counter are smaller than `capacity()`, and so is
the index of every slot a thread is about to access. -/
def InRange (s : State Tid D) : Prop :=
  s.counter.push < s.capacity ∧ s.counter.pop < s.capacity ∧
    ∀ t i, (s.pc t).access = some i → i < s.capacity

structure IndexInv (n : ℕ) (s : State Tid D) : Prop where
  size : s.nodes.length = n
  counter : s.counter.Below n
  locals : ∀ t, (s.pc t).Below n

theorem advance_lt {n : ℕ} (hn : 0 < n) (x : ℕ) : advance n x < n := Nat.mod_lt _ hn

/-- Below the capacity no `uint32_t` addition wraps. -/
theorem advance_eq_next {n x : ℕ} (hn : n < 2 ^ 32) (hx : x < n) :
    advance n x = Cyclic.next n x := by
  rw [advance, Nat.mod_eq_of_lt (by omega : x + 1 < 2 ^ 32), Cyclic.next]

theorem pushGuess_below {n : ℕ} (hn : 2 ≤ n) :
    pushGuess.1.Below n ∧ pushGuess.2.Below n := by
  simp only [pushGuess, PointerType.Below]
  omega

theorem popGuess_below {n : ℕ} (hn : 2 ≤ n) :
    popGuess.1.Below n ∧ popGuess.2.Below n := by
  simp only [popGuess, PointerType.Below]
  omega

theorem pushRetry_below {n : ℕ} {e : PointerType} (hn : 2 ≤ n) (he : e.Below n) :
    (pushRetry n e).1.Below n ∧ (pushRetry n e).2.Below n := by
  dsimp only [pushRetry]
  split_ifs
  · exact pushGuess_below hn
  · exact ⟨he, advance_lt (by omega) _, he.2⟩

theorem tryPushRetry_below {n : ℕ} {e e' d' : PointerType} (he : e.Below n)
    (h : tryPushRetry n e = some (e', d')) : e'.Below n ∧ d'.Below n := by
  simp only [tryPushRetry, Option.ite_none_left_eq_some, Option.some.injEq,
    Prod.mk.injEq] at h
  obtain ⟨-, rfl, rfl⟩ := h
  exact ⟨he, advance_lt (Nat.zero_lt_of_lt he.1) _, he.2⟩

theorem popRetry_below {n : ℕ} {e e' d' : PointerType} (he : e.Below n)
    (h : popRetry n e = some (e', d')) : e'.Below n ∧ d'.Below n := by
  simp only [popRetry, Option.ite_none_left_eq_some, Option.some.injEq,
    Prod.mk.injEq] at h
  obtain ⟨-, rfl, rfl⟩ := h
  exact ⟨he, he.1, advance_lt (Nat.zero_lt_of_lt he.1) _⟩

theorem start_below {n : ℕ} (hn : 2 ≤ n) (c : Call D) : c.start.Below n := by
  cases c with
  | push x => exact pushGuess_below hn
  | tryPush x => exact pushGuess_below hn
  | pop => exact popGuess_below hn

/-- Updating the locals of one thread. -/
theorem locals_update {n : ℕ} {pc : Tid → Pc D} (h : ∀ t, (pc t).Below n) {t : Tid}
    {p : Pc D} (hp : p.Below n) (u : Tid) : (Function.update pc t p u).Below n := by
  rcases eq_or_ne u t with rfl | hne
  · rwa [Function.update_self]
  · rw [Function.update_of_ne hne]
    exact h u

omit [DecidableEq Tid] in
theorem indexInv_init {n : ℕ} (hn : 2 ≤ n) : IndexInv n (init Tid D n) where
  size := List.length_replicate
  counter := by simp only [init, PointerType.Below]; omega
  locals _ := trivial

theorem indexInv_step {n : ℕ} (hn : 2 ≤ n) (s : State Tid D) (a : Label Tid D)
    (s' : State Tid D) (h : IndexInv n s) (hs : step s a = some s') : IndexInv n s' := by
  obtain ⟨hsize, hcounter, hlocals⟩ := h
  have hcap : s.capacity = n := hsize
  cases step_trans hs with
  | call hpc => exact ⟨hsize, hcounter, locals_update hlocals (start_below hn _)⟩
  | @pushClaim t x e d hpc hc =>
      obtain ⟨he, hd⟩ : e.Below n ∧ d.Below n := by simpa [hpc, Pc.Below] using hlocals t
      exact ⟨hsize, hd, locals_update hlocals he.1⟩
  | pushRetry hpc hf =>
      refine ⟨hsize, hcounter, locals_update hlocals ?_⟩
      rw [hcap]
      exact pushRetry_below hn hcounter
  | @tryPushClaim t x e d hpc hc =>
      obtain ⟨he, hd⟩ : e.Below n ∧ d.Below n := by simpa [hpc, Pc.Below] using hlocals t
      exact ⟨hsize, hd, locals_update hlocals he.1⟩
  | tryPushFull hpc hf hr => exact ⟨hsize, hcounter, locals_update hlocals trivial⟩
  | tryPushRetry hpc hf hr =>
      rw [hcap] at hr
      exact ⟨hsize, hcounter, locals_update hlocals (tryPushRetry_below hcounter hr)⟩
  | store hpc hn' =>
      exact ⟨by simpa using hsize, hcounter, locals_update hlocals trivial⟩
  | storeRetry hpc hn' hf => exact ⟨hsize, hcounter, hlocals⟩
  | @popClaim t e d hpc hc =>
      obtain ⟨he, hd⟩ : e.Below n ∧ d.Below n := by simpa [hpc, Pc.Below] using hlocals t
      exact ⟨hsize, hd, locals_update hlocals he.2⟩
  | popEmpty hpc hf hr => exact ⟨hsize, hcounter, locals_update hlocals trivial⟩
  | popRetry hpc hf hr =>
      rw [hcap] at hr
      exact ⟨hsize, hcounter, locals_update hlocals (popRetry_below hcounter hr)⟩
  | take hpc hn' =>
      exact ⟨by simpa using hsize, hcounter, locals_update hlocals trivial⟩

omit [DecidableEq Tid] in
theorem IndexInv.inRange {n : ℕ} {s : State Tid D} (h : IndexInv n s) : InRange s := by
  obtain ⟨hsize, hcounter, hlocals⟩ := h
  rw [InRange, State.capacity, hsize]
  refine ⟨hcounter.1, hcounter.2, fun t i hi => ?_⟩
  have ht := hlocals t
  cases hpc : s.pc t <;> simp_all [Pc.access, Pc.Below]

/-- The run that leaves the range of a queue of one slot: one `push`
whose guess succeeds. -/
theorem one_slot_leaves_range (t : Tid) (x : UniquePtr D) :
    ∃ s', run step (init Tid D 1) [.call t (.push x), .exec t false] = some s' ∧
      s'.counter.push = s'.capacity := by
  refine ⟨((init Tid D 1).setCounter ⟨1, 0⟩).setPc t (.store x .push 0), ?_, rfl⟩
  simp [run, step, init, State.setPc, State.setCounter, Call.start, pushGuess, casWeak]

/-- For every `max_size` of at least one, all slot indices stay in range
in every reachable state if and only if there are at least two slots. -/
theorem slot_indices_in_range_iff [Inhabited Tid] (n : ℕ) (hn : 1 ≤ n) :
    (∀ as (s : State Tid D), run step (init Tid D n) as = some s → InRange s) ↔ 2 ≤ n := by
  constructor
  · intro h
    by_contra hlt
    obtain rfl : n = 1 := by omega
    obtain ⟨s', hrun, heq⟩ :=
      one_slot_leaves_range (D := D) (default : Tid) ⟨0, 0⟩
    have := (h _ s' hrun).1
    omega
  · intro hn2 as s hrun
    exact (run_invariant (indexInv_step hn2) (indexInv_init hn2) hrun).inRange

/-- Two slots are enough, and one is not. -/
theorem slot_indices_in_range_iff_two :
    (∀ as (s : State (Fin 3) ⟨1, by decide⟩),
      run step (init (Fin 3) ⟨1, by decide⟩ 2) as = some s → InRange s) ∧
    ¬ ∀ as (s : State (Fin 3) ⟨1, by decide⟩),
      run step (init (Fin 3) ⟨1, by decide⟩ 1) as = some s → InRange s :=
  ⟨(slot_indices_in_range_iff 2 (by decide)).2 (Nat.le_refl 2),
    fun h => absurd ((slot_indices_in_range_iff 1 (Nat.le_refl 1)).1 h) (by decide)⟩

/-- With one slot, a `push`, a `pop` and a `push` that run one after the
other leave the range, and the last one is about to access slot 1. -/
theorem slot_indices_leave_range :
    ¬ ∀ n, 1 ≤ n → ∀ as (s : State Unit ⟨1, by decide⟩),
      run step (init Unit ⟨1, by decide⟩ n) as = some s → InRange s := by
  intro h
  have hrange := h 1 (le_refl 1)
    [.call () (.push ⟨8, 0⟩), .exec () false, .exec () false,
      .call () .pop, .exec () false, .exec () false,
      .call () (.push ⟨16, 0⟩), .exec () false, .exec () false] _ rfl
  exact absurd (hrange.2.2 () 1 rfl) (by decide)

end JowiAsio.Ringbuf

import JowiAsio.Ringbuf.Contents

/-!
The ring buffer used by one thread is a bounded FIFO.

`Solo n t s q` relates a state in which only thread `t` is inside a call
to the abstract FIFO contents `q`. Between calls the window of the counter
holds exactly `q` (`Rest`). Inside a call the abstract contents change at
the step that returns, so a claimed slot is still missing from `q` before
the store and still counted in `q` before the removal (`Phase`).

`solo_step` is the simulation of one step and `solo_run` of a whole run;
`exec_progress` says that a call always moves on unless a weak
compare-exchange fails spuriously.
-/

namespace JowiAsio.Ringbuf

open Lib TaggedPtr
open Lib.Cyclic (next dist dist_lt dist_eq_zero dist_next_right dist_next_left
  next_eq_iff_dist next_lt)

variable {D : DeleterSize} {Tid : Type}

/-- The counter and the slots between two calls. -/
structure Rest (n : ℕ) (c : PointerType) (nodes : List Word) (q : List (UniquePtr D)) :
    Prop where
  slots : Holds n c.pop nodes q
  window : dist n c.pop c.push = q.length
  below : c.Below n

/-- What is known at each point of a call. The compare-exchange on the
counter only succeeds on the value its `d_point` was computed for. -/
def Phase (n : ℕ) (c : PointerType) (nodes : List Word) (q : List (UniquePtr D)) :
    Pc D → Prop
  | .idle => Rest n c nodes q
  | .push x e d =>
      Rest n c nodes q ∧ x.ptr ≠ 0 ∧ q.length + 1 < n ∧
        (c = e → d = ⟨next n e.push, e.pop⟩)
  | .tryPush x e d =>
      Rest n c nodes q ∧ x.ptr ≠ 0 ∧
        (c = e → q.length + 1 < n ∧ d = ⟨next n e.push, e.pop⟩)
  | .store x _ i =>
      x.ptr ≠ 0 ∧ q.length + 1 < n ∧ Holds n c.pop nodes q ∧ i < n ∧
        dist n c.pop i = q.length ∧ dist n c.pop c.push = q.length + 1 ∧ c.Below n
  | .pop e d =>
      Rest n c nodes q ∧ (c = e → q ≠ [] ∧ d = ⟨e.push, next n e.pop⟩)
  | .take i =>
      ∃ y q', q = y :: q' ∧ q'.length + 1 < n ∧ Holds n i nodes q ∧ i < n ∧
        c.pop = next n i ∧ dist n c.pop c.push = q'.length ∧ c.Below n

structure Solo (n : ℕ) (t : Tid) (s : State Tid D) (q : List (UniquePtr D)) : Prop where
  others : ∀ u, u ≠ t → s.pc u = .idle
  nonnull : ∀ x ∈ q, x.ptr ≠ 0
  phase : Phase n s.counter s.nodes q (s.pc t)

/-- A step either returns nothing and leaves the abstract contents alone,
or returns an event the abstract FIFO agrees with. -/
def Emits (n : ℕ) (s s' : State Tid D) (q q' : List (UniquePtr D)) : Prop :=
  (s'.history = s.history ∧ q' = q) ∨
    ∃ ev, s'.history = s.history ++ [ev] ∧ replayEvent (n - 1) q ev = some q'

/-! ### The full and the empty test -/

section

variable {n : ℕ} {c : PointerType} {nodes : List Word} {q : List (UniquePtr D)}

theorem Rest.length (h : Rest n c nodes q) : nodes.length = n := h.slots.1

theorem Rest.advance_push (h : Rest n c nodes q) (hn : n < 2 ^ 32) :
    advance n c.push = next n c.push := advance_eq_next hn h.below.1

theorem Rest.advance_pop (h : Rest n c nodes q) (hn : n < 2 ^ 32) :
    advance n c.pop = next n c.pop := advance_eq_next hn h.below.2

theorem Rest.full_iff (h : Rest n c nodes q) :
    next n c.push = c.pop ↔ q.length + 1 = n := by
  rw [next_eq_iff_dist h.below.2 h.below.1, h.window]

theorem Rest.empty_iff (h : Rest n c nodes q) : c.push = c.pop ↔ q = [] := by
  rw [eq_comm, ← dist_eq_zero h.below.2, h.window, List.length_eq_zero_iff]

theorem Rest.room (h : Rest n c nodes q) : q.length < n :=
  h.window ▸ dist_lt h.below.2 h.below.1

/-- Claiming the slot behind the last element. -/
theorem Rest.claim_push {x : UniquePtr D} {kind : PushKind} (h : Rest n c nodes q)
    (hx : x.ptr ≠ 0) (hroom : q.length + 1 < n) :
    Phase n ⟨next n c.push, c.pop⟩ nodes q (.store x kind c.push) := by
  have hne : next n c.push ≠ c.pop := fun e => by
    have := h.full_iff.1 e
    omega
  have hlen : dist n c.pop (next n c.push) = q.length + 1 := by
    rw [dist_next_right h.below.2 h.below.1 hne, h.window]
  exact ⟨hx, hroom, h.slots, h.below.1, h.window, hlen,
    next_lt (by omega), h.below.2⟩

/-- Claiming the slot of the first element. -/
theorem Rest.claim_pop (h : Rest n c nodes q) (hq : q ≠ []) :
    Phase n ⟨c.push, next n c.pop⟩ nodes q (.take c.pop) := by
  obtain ⟨y, q', rfl⟩ := List.exists_cons_of_ne_nil hq
  have hne : c.pop ≠ c.push := fun e => hq (h.empty_iff.1 e.symm)
  have hstep := dist_next_left h.below.2 h.below.1 hne
  have hwin := h.window
  have hroom := h.room
  simp only [List.length_cons] at hwin hroom
  exact ⟨y, q', rfl, hroom, h.slots, h.below.2, rfl, by dsimp only; omega,
    h.below.1, next_lt (by omega)⟩

end

/-! ### The first guess and the loop bodies -/

section

variable {n : ℕ} {c : PointerType} {nodes : List Word} {q : List (UniquePtr D)}

/-- The hard-coded guesses are what the checked computation would give. -/
theorem Rest.start (h : Rest n c nodes q) (hn : 2 ≤ n) {call : Call D}
    (hnull : ∀ x, call = .push x ∨ call = .tryPush x → x.ptr ≠ 0)
    (hroom : ∀ x, call = .push x → q.length + 1 < n) :
    Phase n c nodes q call.start := by
  have hnext : next n 0 = 1 := Nat.mod_eq_of_lt (by omega)
  cases call with
  | push x =>
      exact ⟨h, hnull x (.inl rfl), hroom x rfl, fun _ => by simp [pushGuess, hnext]⟩
  | tryPush x =>
      refine ⟨h, hnull x (.inr rfl), ?_⟩
      rintro rfl
      have hempty : q = [] := h.empty_iff.1 rfl
      exact ⟨by simp [hempty]; omega, by simp [pushGuess, hnext]⟩
  | pop =>
      refine ⟨h, ?_⟩
      rintro rfl
      have hne : q ≠ [] := fun e => by simpa [popGuess] using h.empty_iff.2 e
      exact ⟨hne, by simp [popGuess, hnext]⟩

theorem Rest.pushRetry (h : Rest n c nodes q) (hn : n < 2 ^ 32)
    (hroom : q.length + 1 < n) : pushRetry n c = (c, ⟨next n c.push, c.pop⟩) := by
  have hne : next n c.push ≠ c.pop := fun e => by
    have := h.full_iff.1 e
    omega
  simp only [Ringbuf.pushRetry, h.advance_push hn, if_neg hne]

theorem Rest.tryPushRetry_none (h : Rest n c nodes q) (hn : n < 2 ^ 32)
    (hr : tryPushRetry n c = none) : q.length + 1 = n := by
  simpa [Ringbuf.tryPushRetry, h.advance_push hn, h.full_iff] using hr

theorem Rest.tryPushRetry_some (h : Rest n c nodes q) (hn : n < 2 ^ 32)
    {e d : PointerType} (hr : tryPushRetry n c = some (e, d)) :
    q.length + 1 < n ∧ e = c ∧ d = ⟨next n c.push, c.pop⟩ := by
  have hroom := h.room
  simp only [Ringbuf.tryPushRetry, h.advance_push hn, h.full_iff,
    Option.ite_none_left_eq_some, Option.some.injEq, Prod.mk.injEq] at hr
  obtain ⟨hfull, rfl, rfl⟩ := hr
  exact ⟨by omega, rfl, rfl⟩

theorem Rest.popRetry_none (h : Rest n c nodes q) (hr : popRetry n c = none) : q = [] := by
  simpa [Ringbuf.popRetry, h.empty_iff] using hr

theorem Rest.popRetry_some (h : Rest n c nodes q) (hn : n < 2 ^ 32)
    {e d : PointerType} (hr : popRetry n c = some (e, d)) :
    q ≠ [] ∧ e = c ∧ d = ⟨c.push, next n c.pop⟩ := by
  simp only [Ringbuf.popRetry, h.advance_pop hn, h.empty_iff,
    Option.ite_none_left_eq_some, Option.some.injEq, Prod.mk.injEq] at hr
  obtain ⟨hne, rfl, rfl⟩ := hr
  exact ⟨hne, rfl, rfl⟩

end

/-! ### One step -/

def Label.thread : Label Tid D → Tid
  | .call t _ | .exec t _ => t

/-- A call passes a non-null pointer. -/
def Label.NonNull : Label Tid D → Prop
  | .call _ (.push x) | .call _ (.tryPush x) => x.ptr ≠ 0
  | _ => True

variable [DecidableEq Tid]

/-- `Solo` after a step of thread `t` that leaves its locals at `p`. -/
theorem Solo.move {n : ℕ} {t : Tid} {s s' : State Tid D} {q q' : List (UniquePtr D)}
    {p : Pc D} (h : Solo n t s q) (hpc : s'.pc = Function.update s.pc t p)
    (hq : ∀ x ∈ q', x.ptr ≠ 0) (hp : Phase n s'.counter s'.nodes q' p) :
    Solo n t s' q' where
  others u hu := by
    rw [hpc, Function.update_of_ne hu]
    exact h.others u hu
  nonnull := hq
  phase := by
    rw [hpc, Function.update_self]
    exact hp

theorem solo_step {n : ℕ} (hn : 2 ≤ n) (hn32 : n < 2 ^ 32) {t : Tid} {s s' : State Tid D}
    {q : List (UniquePtr D)} {a : Label Tid D} (h : Solo n t s q) (ht : a.thread = t)
    (hnull : a.NonNull) (hroom : ∀ x, a = .call t (.push x) → q.length + 1 < n)
    (hs : step s a = some s') : ∃ q', Solo n t s' q' ∧ Emits n s s' q q' := by
  have hphase := h.phase
  cases step_trans hs with
  | @call t' c hpc =>
      obtain rfl : t' = t := ht
      rw [hpc] at hphase
      refine ⟨q, h.move rfl h.nonnull (hphase.start hn ?_ ?_), .inl ⟨rfl, rfl⟩⟩
      · rintro x (rfl | rfl) <;> exact hnull
      · rintro x rfl
        exact hroom x rfl
  | @pushClaim t' x e d hpc hc =>
      obtain rfl : t' = t := ht
      rw [hpc] at hphase
      obtain ⟨hrest, hx, hlt, hd⟩ := hphase
      -- the guess, too, is the next counter when it is the counter
      obtain rfl := hd hc
      subst hc
      exact ⟨q, h.move rfl h.nonnull (hrest.claim_push hx hlt), .inl ⟨rfl, rfl⟩⟩
  | @pushRetry t' f x e d hpc hf =>
      obtain rfl : t' = t := ht
      rw [hpc] at hphase
      obtain ⟨hrest, hx, hlt, -⟩ := hphase
      refine ⟨q, h.move rfl h.nonnull ?_, .inl ⟨rfl, rfl⟩⟩
      rw [State.capacity, hrest.length, hrest.pushRetry hn32 hlt]
      exact ⟨hrest, hx, hlt, fun _ => rfl⟩
  | @tryPushClaim t' x e d hpc hc =>
      obtain rfl : t' = t := ht
      rw [hpc] at hphase
      obtain ⟨hrest, hx, hd⟩ := hphase
      obtain ⟨hlt, rfl⟩ := hd hc
      subst hc
      exact ⟨q, h.move rfl h.nonnull (hrest.claim_push hx hlt), .inl ⟨rfl, rfl⟩⟩
  | @tryPushFull t' f x e d hpc hf hr =>
      obtain rfl : t' = t := ht
      rw [hpc] at hphase
      obtain ⟨hrest, hx, -⟩ := hphase
      rw [State.capacity, hrest.length] at hr
      have hfull := hrest.tryPushRetry_none hn32 hr
      refine ⟨q, h.move rfl h.nonnull hrest, .inr ⟨_, rfl, ?_⟩⟩
      simp [replayEvent, Fifo.push_of_ge (show n - 1 ≤ q.length by omega)]
  | @tryPushRetry t' f x e d e' d' hpc hf hr =>
      obtain rfl : t' = t := ht
      rw [hpc] at hphase
      obtain ⟨hrest, hx, -⟩ := hphase
      rw [State.capacity, hrest.length] at hr
      obtain ⟨hlt, rfl, rfl⟩ := hrest.tryPushRetry_some hn32 hr
      exact ⟨q, h.move rfl h.nonnull ⟨hrest, hx, fun _ => ⟨hlt, rfl⟩⟩, .inl ⟨rfl, rfl⟩⟩
  | @store t' x kind i hpc hslot =>
      obtain rfl : t' = t := ht
      rw [hpc] at hphase
      obtain ⟨hx, hlt, hholds, hi, hd, hwin, hbelow⟩ := hphase
      have hnonnull : ∀ y ∈ q ++ [x], y.ptr ≠ 0 := by
        intro y hy
        rcases List.mem_append.1 hy with hy | hy
        · exact h.nonnull y hy
        · rw [List.mem_singleton.1 hy]
          exact hx
      have hpush : Fifo.push (n - 1) q x = some (q ++ [x]) := Fifo.push_of_lt (by omega) x
      -- the element is in the abstract queue from the store on
      refine ⟨q ++ [x], h.move rfl hnonnull
        ⟨hholds.store hbelow.2 hi hd x, by simpa using hwin, hbelow⟩, .inr ⟨_, rfl, ?_⟩⟩
      cases kind <;> simp [PushKind.returned, replayEvent, hpush]
  | storeRetry hpc hslot hf => exact ⟨q, h, .inl ⟨rfl, rfl⟩⟩
  | @popClaim t' e d hpc hc =>
      obtain rfl : t' = t := ht
      rw [hpc] at hphase
      obtain ⟨hrest, hd⟩ := hphase
      obtain ⟨hne, rfl⟩ := hd hc
      subst hc
      exact ⟨q, h.move rfl h.nonnull (hrest.claim_pop hne), .inl ⟨rfl, rfl⟩⟩
  | @popEmpty t' f e d hpc hf hr =>
      obtain rfl : t' = t := ht
      rw [hpc] at hphase
      obtain ⟨hrest, -⟩ := hphase
      rw [State.capacity, hrest.length] at hr
      obtain rfl := hrest.popRetry_none hr
      exact ⟨[], h.move rfl h.nonnull hrest, .inr ⟨_, rfl, by simp [replayEvent]⟩⟩
  | @popRetry t' f e d e' d' hpc hf hr =>
      obtain rfl : t' = t := ht
      rw [hpc] at hphase
      obtain ⟨hrest, -⟩ := hphase
      rw [State.capacity, hrest.length] at hr
      obtain ⟨hne, rfl, rfl⟩ := hrest.popRetry_some hn32 hr
      exact ⟨q, h.move rfl h.nonnull ⟨hrest, fun _ => ⟨hne, rfl⟩⟩, .inl ⟨rfl, rfl⟩⟩
  | @take t' f i w hpc hslot =>
      obtain rfl : t' = t := ht
      rw [hpc] at hphase
      obtain ⟨y, q', rfl, hlt, hholds, hi, hpop, hwin, hbelow⟩ := hphase
      have hw : w = y.word := by
        rw [hholds.first hi, Option.some.injEq] at hslot
        exact hslot.symm
      have hslots : Holds n s.counter.pop (s.nodes.set i null) q' :=
        hpop ▸ hholds.take hi hlt
      refine ⟨q', h.move rfl (fun x hx => h.nonnull x (List.mem_cons_of_mem _ hx))
        ⟨hslots, hwin, hbelow⟩, .inr ⟨_, rfl, ?_⟩⟩
      rw [hw, nodeLoad_word (h.nonnull y List.mem_cons_self)]
      simp [replayEvent]

omit [DecidableEq Tid] in
theorem solo_init {n : ℕ} (hn : 2 ≤ n) (t : Tid) :
    Solo n t (init Tid D n) ([] : List (UniquePtr D)) where
  others _ _ := rfl
  nonnull _ hx := absurd hx List.not_mem_nil
  phase := ⟨holds_replicate n 0, rfl, by simp only [init, PointerType.Below]; omega⟩

/-! ### A call returns -/

/-- How many successful attempts a call still needs at most, when the
counter holds `c`. -/
def Pc.rank (c : PointerType) : Pc D → ℕ
  | .idle => 0
  | .store _ _ _ | .take _ => 1
  | .push _ e _ | .tryPush _ e _ | .pop e _ => if c = e then 2 else 3

theorem Pc.rank_le_three (c : PointerType) (p : Pc D) : p.rank c ≤ 3 := by
  cases p <;> grind [Pc.rank]

theorem Pc.eq_idle_of_rank {c : PointerType} {p : Pc D} (h : p.rank c ≤ 0) : p = .idle := by
  cases p <;> grind [Pc.rank]

/-- Inside a call the next step is possible. -/
theorem exec_possible {n : ℕ} {t : Tid} {s : State Tid D} {q : List (UniquePtr D)}
    (h : Solo n t s q) (hpc : s.pc t ≠ .idle) (f : Bool) :
    ∃ s', step s (.exec t f) = some s' := by
  have hphase := h.phase
  cases hp : s.pc t with
  | idle => exact absurd hp hpc
  | push x e d =>
      simp only [step, hp]
      split_ifs <;> exact ⟨_, rfl⟩
  | tryPush x e d =>
      simp only [step, hp]
      split_ifs
      · exact ⟨_, rfl⟩
      · split <;> exact ⟨_, rfl⟩
  | store x kind i =>
      rw [hp] at hphase
      obtain ⟨-, -, hholds, hi, -, -, -⟩ := hphase
      simp only [step, hp, hholds.2 i hi, Option.map_some]
      exact ⟨_, rfl⟩
  | pop e d =>
      simp only [step, hp]
      split_ifs
      · exact ⟨_, rfl⟩
      · split <;> exact ⟨_, rfl⟩
  | take i =>
      rw [hp] at hphase
      obtain ⟨y, q', -, -, hholds, hi, -, -, -⟩ := hphase
      simp only [step, hp, hholds.2 i hi, Option.map_some]
      exact ⟨_, rfl⟩

/-- A step of a call never moves away from its end, and moves towards it
unless it fails spuriously. -/
theorem exec_progress {n : ℕ} {t : Tid} {s s' : State Tid D} {q : List (UniquePtr D)}
    {f : Bool} (h : Solo n t s q) (hn32 : n < 2 ^ 32) (hs : step s (.exec t f) = some s') :
    (s'.pc t).rank s'.counter ≤ (s.pc t).rank s.counter ∧
      (f = false → (s'.pc t).rank s'.counter < (s.pc t).rank s.counter) := by
  have hphase := h.phase
  cases step_trans hs with
  | pushClaim hpc hc | tryPushClaim hpc hc | popClaim hpc hc => simp [hpc, Pc.rank, hc]
  | @pushRetry _ _ x e d hpc hf =>
      rw [hpc] at hphase
      obtain ⟨hrest, -, hlt, -⟩ := hphase
      simp only [setPc_pc, setPc_counter, Function.update_self, State.capacity, hrest.length,
        hrest.pushRetry hn32 hlt, hpc, Pc.rank]
      cases f
      · simp_all
      · simp only [if_true]
        split_ifs <;> simp
  | tryPushFull hpc hf hr | popEmpty hpc hf hr =>
      simp only [ret_pc, Function.update_self, hpc, Pc.rank]
      split_ifs <;> omega
  | @tryPushRetry _ _ x e d e' d' hpc hf hr =>
      rw [hpc] at hphase
      rw [State.capacity, hphase.1.length] at hr
      obtain ⟨-, rfl, rfl⟩ := hphase.1.tryPushRetry_some hn32 hr
      simp only [setPc_pc, setPc_counter, Function.update_self, hpc, Pc.rank]
      cases f
      · simp_all
      · simp only [if_true]
        split_ifs <;> simp
  | @store _ x kind i hpc hslot => simp [hpc, Pc.rank]
  | @storeRetry _ f x kind i w hpc hslot hf =>
      rw [hpc] at hphase
      obtain ⟨-, -, hholds, hi, hd, -, -⟩ := hphase
      -- the slot is free, so only a spurious failure leads here
      rw [hholds.slot_free hi hd, Option.some.injEq] at hslot
      simp [hf hslot.symm]
  | @popRetry _ _ e d e' d' hpc hf hr =>
      rw [hpc] at hphase
      rw [State.capacity, hphase.1.length] at hr
      obtain ⟨-, rfl, rfl⟩ := hphase.1.popRetry_some hn32 hr
      simp only [setPc_pc, setPc_counter, Function.update_self, hpc, Pc.rank]
      cases f
      · simp_all
      · simp only [if_true]
        split_ifs <;> simp
  | @take _ _ i w hpc hslot => simp [hpc, Pc.rank]

/-- However the spurious failures fall, the call has returned after as
many attempts that do not fail spuriously as its rank. -/
theorem call_returns {n : ℕ} (hn : 2 ≤ n) (hn32 : n < 2 ^ 32) {t : Tid} {s : State Tid D}
    {q : List (UniquePtr D)} (h : Solo n t s q) (fails : List Bool)
    (hfails : (s.pc t).rank s.counter ≤ fails.count false) :
    ∃ k ≤ fails.length, ∃ s', run step s ((fails.take k).map (.exec t)) = some s' ∧
      s'.pc t = .idle := by
  induction fails generalizing s q with
  | nil =>
      exact ⟨0, le_refl 0, s, rfl, Pc.eq_idle_of_rank hfails⟩
  | cons f fails ih =>
      by_cases hidle : s.pc t = .idle
      · exact ⟨0, by simp, s, rfl, hidle⟩
      · obtain ⟨s₁, hs₁⟩ := exec_possible h hidle f
        obtain ⟨hle, hlt⟩ := exec_progress h hn32 hs₁
        obtain ⟨q₁, h₁, -⟩ := solo_step (a := .exec t f) hn hn32 h rfl trivial (by simp) hs₁
        have hrank : (s₁.pc t).rank s₁.counter ≤ fails.count false := by
          cases f with
          | false =>
              have := hlt rfl
              rw [List.count_cons_self] at hfails
              omega
          | true =>
              rw [List.count_cons_of_ne (by decide)] at hfails
              omega
        obtain ⟨k, hk, s', hrun, hret⟩ := ih h₁ hrank
        refine ⟨k + 1, by simpa using hk, s', ?_, hret⟩
        rw [List.take_succ_cons, List.map_cons, run_cons, hs₁, Option.bind_some]
        exact hrun

/-! ### A whole run -/

/-- A step of a single-threaded run: it is thread `t`'s, it passes no null
pointer, and a `push` is only called while the abstract FIFO has room. -/
def Admissible (n : ℕ) (t : Tid) (s : State Tid D) (a : Label Tid D) (_ : State Tid D) : Prop :=
  a.thread = t ∧ a.NonNull ∧
    ∀ x, a = .call t (.push x) → ∃ q, replay (n - 1) s.history = some q ∧ q.length < n - 1

/-- The state of the ring buffer agrees with the abstract contents `q`. -/
structure AgreesWith (n : ℕ) (t : Tid) (s : State Tid D) (q : List (UniquePtr D)) : Prop where
  /-- The results so far are those of a FIFO of at most `n - 1` elements. -/
  replayed : replay (n - 1) s.history = some q
  bounded : q.length ≤ n - 1
  /-- Between calls the window of the counter holds exactly `q`. -/
  at_rest : s.pc t = .idle → Rest n s.counter s.nodes q
  /-- `push` never finds the ring full. -/
  push_has_room : ∀ x e d, s.pc t = .push x e d → q.length < n - 1
  /-- A store never finds its slot occupied. -/
  store_finds_null : ∀ x kind i, s.pc t = .store x kind i → s.nodes[i]? = some null
  /-- Three attempts that do not fail spuriously complete any call. -/
  returns : ∀ fails : List Bool, 3 ≤ fails.count false →
    ∃ k ≤ fails.length, ∃ s', run step s ((fails.take k).map (.exec t)) = some s' ∧
      s'.pc t = .idle

omit [DecidableEq Tid] in
theorem Solo.length_lt {n : ℕ} {t : Tid} {s : State Tid D} {q : List (UniquePtr D)}
    (h : Solo n t s q) : q.length < n := by
  have hphase := h.phase
  cases hpc : s.pc t <;> rw [hpc] at hphase
  case idle => exact hphase.room
  case push => exact hphase.1.room
  case tryPush => exact hphase.1.room
  case store => have := hphase.2.1; omega
  case pop => exact hphase.1.room
  case take =>
    obtain ⟨y, q', rfl, hlt, -⟩ := hphase
    simpa using hlt

theorem Solo.agreesWith {n : ℕ} (hn : 2 ≤ n) (hn32 : n < 2 ^ 32) {t : Tid} {s : State Tid D}
    {q : List (UniquePtr D)} (h : Solo n t s q) (hq : replay (n - 1) s.history = some q) :
    AgreesWith n t s q where
  replayed := hq
  bounded := by have := h.length_lt; omega
  at_rest hpc := by simpa [hpc, Phase] using h.phase
  push_has_room x e d hpc := by
    have hphase := h.phase
    rw [hpc] at hphase
    have := hphase.2.2.1
    omega
  store_finds_null x kind i hpc := by
    have hphase := h.phase
    rw [hpc] at hphase
    obtain ⟨-, -, hholds, hi, hd, -, -⟩ := hphase
    exact hholds.slot_free hi hd
  returns fails hfails :=
    call_returns hn hn32 h fails (le_trans (Pc.rank_le_three _ _) hfails)

omit [DecidableEq Tid] in
theorem replay_emits {n : ℕ} {s s' : State Tid D} {q q' : List (UniquePtr D)}
    (h : Emits n s s' q q') (hq : replay (n - 1) s.history = some q) :
    replay (n - 1) s'.history = some q' := by
  rcases h with ⟨hh, rfl⟩ | ⟨ev, hh, hev⟩
  · rw [hh, hq]
  · rw [hh, replay_append hq, hev]

/-- The ring buffer of `max_size = n` refines a FIFO of at most `n - 1`
elements in every single-threaded run, whatever weak compare-exchanges
fail spuriously. -/
theorem single_thread_refines_fifo {n : ℕ} (hn : 2 ≤ n) (hn32 : n < 2 ^ 32) (t : Tid)
    {as : List (Label Tid D)} {s : State Tid D}
    (hadm : Along step (Admissible n t) (init Tid D n) as)
    (hrun : run step (init Tid D n) as = some s) : ∃ q, AgreesWith n t s q := by
  have hinv : ∃ q, Solo n t s q ∧ replay (n - 1) s.history = some q := by
    refine run_invariant_of_along
      (I := fun s => ∃ q, Solo n t s q ∧ replay (n - 1) s.history = some q)
      ?_ hadm ⟨[], solo_init hn t, rfl⟩ hrun
    rintro s₁ a s₂ ⟨q, hsolo, hq⟩ hs ⟨ht, hnull, hroom⟩
    have hroom' : ∀ x, a = .call t (.push x) → q.length + 1 < n := by
      intro x hx
      obtain ⟨q', hq', hlt⟩ := hroom x hx
      rw [hq, Option.some.injEq] at hq'
      subst hq'
      omega
    obtain ⟨q', hsolo', hemits⟩ := solo_step hn hn32 hsolo ht hnull hroom' hs
    exact ⟨q', hsolo', replay_emits hemits hq⟩
  obtain ⟨q, hsolo, hq⟩ := hinv
  exact ⟨q, hsolo.agreesWith hn hn32 hq⟩

/-- Two slots, a `push` whose first attempt fails spuriously, a `try_push`
on the full queue and two `pop`s. -/
theorem single_thread_refines_fifo_two :
    ∃ s q, run step (init Unit ⟨1, by decide⟩ 2)
        [.call () (.push ⟨8, 1⟩), .exec () true, .exec () false, .exec () false,
          .call () (.tryPush ⟨16, 0⟩), .exec () false,
          .call () .pop, .exec () false, .exec () false,
          .call () .pop, .exec () false] = some s ∧
      s.history = [.pushed ⟨8, 1⟩, .tryPushed ⟨16, 0⟩ (some ⟨16, 0⟩),
        .popped true (some ⟨8, 1⟩), .popped false none] ∧
      AgreesWith 2 () s q := by
  have hadm : Along step (Admissible 2 ()) (init Unit ⟨1, by decide⟩ 2)
      [.call () (.push ⟨8, 1⟩), .exec () true, .exec () false, .exec () false,
        .call () (.tryPush ⟨16, 0⟩), .exec () false,
        .call () .pop, .exec () false, .exec () false,
        .call () .pop, .exec () false] := by
    have hexec {s : State Unit ⟨1, by decide⟩} {f : Bool} {s'} :
        Admissible 2 () s (.exec () f) s' := ⟨rfl, trivial, by simp⟩
    have hpop {s : State Unit ⟨1, by decide⟩} {s'} :
        Admissible 2 () s (.call () .pop) s' := ⟨rfl, trivial, by simp⟩
    refine (along_cons rfl).2 ⟨⟨rfl, (by decide : (8 : Addr) ≠ 0), fun _ _ =>
      ⟨[], rfl, by decide⟩⟩, ?_⟩
    refine (along_cons rfl).2 ⟨hexec, (along_cons rfl).2 ⟨hexec, (along_cons rfl).2 ⟨hexec, ?_⟩⟩⟩
    refine (along_cons rfl).2 ⟨⟨rfl, (by decide : (16 : Addr) ≠ 0), by simp⟩, ?_⟩
    refine (along_cons rfl).2 ⟨hexec, (along_cons rfl).2 ⟨hpop, (along_cons rfl).2 ⟨hexec, ?_⟩⟩⟩
    exact (along_cons rfl).2 ⟨hexec, (along_cons rfl).2 ⟨hpop, (along_cons rfl).2
      ⟨hexec, trivial⟩⟩⟩
  obtain ⟨q, hq⟩ := single_thread_refines_fifo (by decide) (by decide) () hadm rfl
  exact ⟨_, q, rfl, rfl, hq⟩

end JowiAsio.Ringbuf

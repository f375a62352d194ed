import Mathlib.Data.Nat.Fib.Basic
import JowiAsio.EventLoop.Completion

/-!
`parallel` (`executor.cc`), and `fib` (`basic_task.cc`) run by it.

`parallel` does what `parallel_expected` does until `run_forever` has
returned, and then reads the tasks with `EmptyResult::get_result`, from
left to right: it returns the values of all of them, or throws the
exception of the first one that has ended with one.
-/

namespace JowiAsio.EventLoop

open Lib

variable {π V ε σ : Type}

/-- `std::tuple{EmptyResult::get_result(ts)...}` for the tasks `cs`. It is
undefined when a promise is read that is empty. -/
def State.getResults (s : State π V ε σ) : List ℕ → Option (Except ε (List V))
  | [] => some (.ok [])
  | c :: cs =>
      match s.expectedValue c with
      | none => none
      | some (.error e) => some (.error e)
      | some (.ok v) => (s.getResults cs).map (Except.map (v :: ·))

/-- `fib(beg)` in `uint64_t` arithmetic. -/
def fib : ℕ → Body π (BitVec 64) ε σ
  | 0 | 1 => .coReturn 1
  | beg + 2 => .await (fib (beg + 1)) fun
      | .error e => .throw e
      | .ok a => .await (fib beg) fun
          | .error e => .throw e
          | .ok b => .coReturn (a + b)

section

variable {poll : π → σ → Poll π V ε × σ} {value : π → Except ε V} {failures : π → ℕ}
  {s s₀ : State π V ε σ} {ts : List (Body π V ε σ)}

/-- The results read from left to right are those that direct style reads
from left to right. -/
theorem getResults_eq {cs : List ℕ} {bs : List (Body π V ε σ)}
    (h : List.Forall₂ (fun c b => s.expectedValue c = some (b.eval value)) cs bs) :
    s.getResults cs = some (bs.mapM (Body.eval value)) := by
  induction h with
  | nil => rfl
  | @cons c b cs bs hc hrest ih =>
      rw [State.getResults, hc, List.mapM_cons]
      cases b.eval value with
      | error e => rfl
      | ok v =>
          rw [ih]
          cases List.mapM (Body.eval value) bs <;> rfl

theorem HasRoom.getResults (hpoll : Settles poll value failures) (h : HasRoom value ts s₀)
    (hreturn : ∀ t ∈ ts, t.ChildrenReturn value) :
    ∃ as s, run (EventLoop.step poll) s₀ as = some s ∧ s.outcome = .returned ∧
      (∀ i < ts.length, (s.coros i).Complete) ∧
      s.getResults (List.range ts.length) = some (ts.mapM (Body.eval value)) := by
  obtain ⟨as, s, hrun, ⟨hout, -, hresults⟩ | ⟨-, hnot⟩⟩ := h.ends hpoll
  case inr => exact absurd hreturn hnot
  refine ⟨as, s, hrun, hout, fun i hi => ?_, getResults_eq ?_⟩
  · have hi' := hresults i hi
    unfold State.expectedValue at hi'
    split at hi'
    · exact ⟨_, ‹_›⟩
    · cases hi'
  · rw [List.forall₂_iff_get]
    refine ⟨List.length_range, fun i _ hi => ?_⟩
    simpa using hresults i hi

/-- `parallel` on a loop that has room for its tasks: when no awaited child
ends with an exception, all tasks are run to their ends, and the result is
what evaluating them in direct style, one after the other, gives: all
values, or the first exception. -/
theorem parallel_results (hpoll : Settles poll value failures) {capacity : ℕ} {w : σ}
    (h₀ : parallelExpected capacity w ts = some s₀) (hreturn : ∀ t ∈ ts, t.ChildrenReturn value) :
    ∃ as s, run (step poll) s₀ as = some s ∧ s.outcome = .returned ∧
      (∀ i < ts.length, (s.coros i).Complete) ∧
      s.getResults (List.range ts.length) = some (ts.mapM (Body.eval value)) :=
  (hasRoom_parallelExpected h₀).getResults hpoll hreturn

end

/-- The second task throws, and so does the third. -/
def twoThrow : List (Body (ℕ × ℕ) ℕ String Unit) :=
  [.poll (1, 5) fun r => match r with | .ok v => .coReturn v | .error e => .throw e,
    .throw "first", .throw "second"]

theorem parallel_results_twoThrow : ∃ s₀ : State (ℕ × ℕ) ℕ String Unit,
    parallelExpected 4 () twoThrow = some s₀ ∧
      ∃ as s, run (step (countdown ℕ String)) s₀ as = some s ∧
        s.getResults [0, 1, 2] = some (.error "first") := by
  obtain ⟨s₀, h₀⟩ : ∃ s₀ : State (ℕ × ℕ) ℕ String Unit,
      parallelExpected 4 () twoThrow = some s₀ := ⟨_, rfl⟩
  obtain ⟨as, s, hrun, -, -, hresults⟩ := parallel_results countdown_settles h₀
    (by simp [twoThrow, Body.ChildrenReturn])
  exact ⟨s₀, h₀, as, s, hrun, hresults⟩

/-! ### `fib` -/

section

variable (value : π → Except ε (BitVec 64))

theorem fib_eval (n : ℕ) :
    (fib n : Body π (BitVec 64) ε σ).eval value = .ok (BitVec.ofNat 64 (Nat.fib (n + 1))) := by
  induction n using fib.induct with
  | case1 | case2 => rfl
  | case3 n ih ih' =>
      have hfib : Nat.fib (n + 2 + 1) = Nat.fib (n + 1 + 1) + Nat.fib (n + 1) := by
        rw [Nat.fib_add_two (n := n + 1), Nat.add_comm]
      rw [hfib, BitVec.ofNat_add]
      simp [fib, Body.eval, ih, ih']

theorem fib_childrenReturn (n : ℕ) :
    (fib n : Body π (BitVec 64) ε σ).ChildrenReturn value := by
  induction n using fib.induct with
  | case1 | case2 => trivial
  | case3 n ih ih' => simp [fib, Body.ChildrenReturn, fib_eval, ih, ih']

theorem fib_mapM (ns : List ℕ) :
    (ns.map fib).mapM (Body.eval (σ := σ) value) =
      .ok (ns.map fun n => BitVec.ofNat 64 (Nat.fib (n + 1))) := by
  induction ns with
  | nil => rfl
  | cons n ns ih =>
      rw [List.map_cons, List.mapM_cons, fib_eval, ih]
      rfl

end

/-- `parallel(fib(n₁), .., fib(nₖ))` returns the Fibonacci numbers with
`fib(0) = fib(1) = 1`, modulo `2 ^ 64`. -/
theorem parallel_fib {poll : π → σ → Poll π (BitVec 64) ε × σ}
    {value : π → Except ε (BitVec 64)} {failures : π → ℕ} (hpoll : Settles poll value failures)
    {capacity : ℕ} {w : σ} {ns : List ℕ} {s₀ : State π (BitVec 64) ε σ}
    (h₀ : parallelExpected capacity w (ns.map fib) = some s₀) :
    ∃ as s, run (step poll) s₀ as = some s ∧ s.outcome = .returned ∧
      s.getResults (List.range ns.length) =
        some (.ok (ns.map fun n => BitVec.ofNat 64 (Nat.fib (n + 1)))) := by
  have hreturn : ∀ t ∈ ns.map fib, (t : Body π (BitVec 64) ε σ).ChildrenReturn value := by
    intro t ht
    obtain ⟨n, -, rfl⟩ := List.mem_map.1 ht
    exact fib_childrenReturn value n
  obtain ⟨as, s, hrun, hout, -, hresults⟩ :=
    (hasRoom_parallelExpected h₀).getResults hpoll hreturn
  rw [List.length_map] at hresults
  exact ⟨as, s, hrun, hout, hresults.trans (congrArg some (fib_mapM value ns))⟩

theorem parallel_fib_two : ∃ s₀ : State (ℕ × BitVec 64) (BitVec 64) String Unit,
    parallelExpected 3 () ([5, 10].map fib) = some s₀ ∧
      ∃ as s, run (step (countdown (BitVec 64) String)) s₀ as = some s ∧
        s.getResults [0, 1] = some (.ok [8, 89]) := by
  obtain ⟨s₀, h₀⟩ : ∃ s₀ : State (ℕ × BitVec 64) (BitVec 64) String Unit,
      parallelExpected 3 () ([5, 10].map fib) = some s₀ := ⟨_, rfl⟩
  obtain ⟨as, s, hrun, -, hresults⟩ := parallel_fib countdown_settles h₀
  exact ⟨s₀, h₀, as, s, hrun, hresults⟩

end JowiAsio.EventLoop

import JowiAsio.Lib.Potential
import JowiAsio.Ringbuf.Linearizable

/-!
The calls on the ring buffer do not deadlock.

A push that has claimed its slot may find it occupied, and then
`blocking_store` spins. As long as no pop claims a slot before its push
has stored, it is a pop that has claimed the slot on the lap before, and
has not emptied it yet, that such a push waits for (`Queued.store_free`).
So the calls in progress can finish each other: first the pops that have
claimed a slot, then the pushes that have, and then the rest, one by one.
What remains are the pushes on a full queue, which wait for a new pop.
-/

namespace JowiAsio.Ringbuf

open Lib TaggedPtr
open Lib.Cyclic (InWindow next)

variable {D : DeleterSize} {Tid : Type} [Fintype Tid] {n : ℕ} {s s' : State Tid D}
  {q : List (UniquePtr D)}

omit [Fintype Tid] in
/-- A push does not move the push index. -/
def Full (s : State Tid D) : Prop := advance s.capacity s.counter.push = s.counter.pop

omit [Fintype Tid] in
/-- No call is in progress but pushes on a full queue. -/
def Settled (s : State Tid D) : Prop :=
  ∀ t, s.pc t = .idle ∨ (∃ x e d, s.pc t = .push x e d) ∧ Full s

omit [Fintype Tid] in
/-- A step of a call in progress that does not fail spuriously. -/
def Label.Attempts : Label Tid D → Prop
  | .exec _ spurious => spurious = false
  | .call _ _ => False

/-- What a thread that stands at `p` has yet to do. A claim makes the
compare-exchanges of all other threads fail once more, so a thread that
has not claimed a slot yet counts for `N` more. -/
def Pc.work (N : ℕ) (c : PointerType) (p : Pc D) : ℕ :=
  match p with
  | .push _ _ _ | .tryPush _ _ _ | .pop _ _ => N + p.rank c
  | .idle | .store _ _ _ | .take _ => p.rank c

def State.remaining (s : State Tid D) : ℕ :=
  ∑ t, (s.pc t).work (Fintype.card Tid) s.counter

/-! ### Which slots are free -/

omit [Fintype Tid] in
theorem storesAt_store {t : Tid} {x : UniquePtr D} {k : PushKind} {i : ℕ}
    (hpc : s.pc t = .store x k i) : (s.pc t).storesAt i = 1 := by
  simp [hpc, Pc.storesAt]

/-- The slot that a push has claimed is free, unless a pop has yet to empty
it. -/
theorem Queued.store_free [DecidableEq Tid] (h : Queued n s q) {t : Tid} {x : UniquePtr D}
    {k : PushKind} {i : ℕ} (hpc : s.pc t = .store x k i) (htake : ∀ u, s.pc u ≠ .take i) :
    s.nodes[i]? = some null := by
  have hi : i < n := by simpa [hpc, Pc.Below] using h.wf.index.locals t
  have hbal := h.balanced i hi
  have hnone : ∑ u, (s.pc u).takesAt i = 0 := by
    refine sum_eq_zero_of (Pc.takesAt i) s.pc fun u => ?_
    by_contra hne
    exact htake u (takesAt_ne_zero.1 hne)
  have hone : 1 ≤ ∑ u, (s.pc u).storesAt i :=
    storesAt_store hpc ▸ Finset.single_le_sum (f := fun u => (s.pc u).storesAt i)
      (fun _ _ => Nat.zero_le _) (Finset.mem_univ t)
  have hwin : windowed n s.counter i ≤ 1 := by
    unfold windowed
    split_ifs <;> simp
  have hocc : occupied s.nodes i = 0 := by omega
  unfold occupied at hocc
  split_ifs at hocc with hnull
  exact hnull

omit [Fintype Tid] in
/-- A call in progress can always take its next step. -/
theorem Wf.exec_possible [DecidableEq Tid] (h : Wf n s) {t : Tid} (hpc : s.pc t ≠ .idle)
    (f : Bool) : ∃ s', step s (.exec t f) = some s' := by
  have hlocals := h.index.locals t
  have hsize : s.nodes.length = n := h.index.size
  cases hp : s.pc t with
  | idle => exact absurd hp hpc
  | push x e d =>
      simp only [step, hp]
      split_ifs <;> exact ⟨_, rfl⟩
  | tryPush x e d | pop e d =>
      simp only [step, hp]
      split_ifs
      · exact ⟨_, rfl⟩
      · split <;> exact ⟨_, rfl⟩
  | store x kind i | take i =>
      rw [hp] at hlocals
      have hi : i < s.nodes.length := hsize ▸ hlocals
      simp only [step, hp, List.getElem?_eq_getElem hi, Option.map_some]
      exact ⟨_, rfl⟩

/-! ### What a step leaves to do -/

theorem work_le_succ (N : ℕ) (c c' : PointerType) (p : Pc D) : p.work N c' ≤ p.work N c + 1 := by
  cases p <;> grind [Pc.work, Pc.rank]

variable [DecidableEq Tid]

/-- A thread gets on and the counter stays. -/
theorem remaining_local {t : Tid} {p : Pc D} (hpc : s'.pc = Function.update s.pc t p)
    (hcounter : s'.counter = s.counter)
    (hp : p.work (Fintype.card Tid) s.counter < (s.pc t).work (Fintype.card Tid) s.counter) :
    s'.remaining < s.remaining := by
  have hsum := sum_update_add (Pc.work (Fintype.card Tid) s.counter) s.pc t p
  rw [State.remaining, State.remaining, hpc, hcounter]
  omega

/-- A thread claims a slot, which makes up for the attempts that it spoils. -/
theorem remaining_claim {t : Tid} {p : Pc D} (hpc : s'.pc = Function.update s.pc t p)
    (hp : p.work (Fintype.card Tid) s'.counter = 1)
    (hold : Fintype.card Tid + 2 ≤ (s.pc t).work (Fintype.card Tid) s'.counter) :
    s'.remaining < s.remaining := by
  have hsum := sum_update_add (Pc.work (Fintype.card Tid) s'.counter) s.pc t p
  have hle : ∑ u, (s.pc u).work (Fintype.card Tid) s'.counter ≤
      s.remaining + Fintype.card Tid := by
    calc ∑ u, (s.pc u).work (Fintype.card Tid) s'.counter
        ≤ ∑ u, ((s.pc u).work (Fintype.card Tid) s.counter + 1) :=
          Finset.sum_le_sum fun u _ => work_le_succ _ _ _ _
      _ = s.remaining + Fintype.card Tid := by
          rw [Finset.sum_add_distrib, Finset.sum_const_nat fun _ _ => rfl, Finset.card_univ,
            Nat.mul_one, State.remaining]
  rw [State.remaining, hpc]
  omega

/-- A thread gets on with an attempt that does not fail spuriously, unless
its slot is occupied or it pushes on a full queue. -/
theorem remaining_exec {t : Tid} (hs : step s (.exec t false) = some s')
    (hfree : ∀ x k i, s.pc t = .store x k i → s.nodes[i]? = some null)
    (hroom : ∀ x e d, s.pc t = .push x e d → ¬ Full s) : s'.remaining < s.remaining := by
  cases step_trans hs with
  | pushClaim hpc hc | tryPushClaim hpc hc | popClaim hpc hc =>
      refine remaining_claim rfl rfl ?_
      simp only [hpc, Pc.work, Pc.rank]
      split_ifs <;> omega
  | @pushRetry _ _ x e d hpc hf =>
      have hretry : (pushRetry s.capacity s.counter).1 = s.counter := by
        unfold pushRetry
        exact congrArg Prod.fst (if_neg (hroom x e d hpc))
      have hne : s.counter ≠ e := fun he => Bool.false_ne_true (hf he)
      refine remaining_local rfl rfl ?_
      simp [hpc, Pc.work, Pc.rank, hretry, hne]
  | tryPushFull hpc hf hr | popEmpty hpc hf hr =>
      refine remaining_local rfl rfl ?_
      simp only [hpc, Pc.work, Pc.rank]
      split_ifs <;> omega
  | @tryPushRetry _ _ x e d e' d' hpc hf hr =>
      have hne : s.counter ≠ e := fun he => Bool.false_ne_true (hf he)
      have he' : s.counter = e' := by
        simp only [Ringbuf.tryPushRetry, Option.ite_none_left_eq_some, Option.some.injEq,
          Prod.mk.injEq] at hr
        exact hr.2.1
      refine remaining_local rfl rfl ?_
      simp [hpc, Pc.work, Pc.rank, ← he', hne]
  | @popRetry _ _ e d e' d' hpc hf hr =>
      have hne : s.counter ≠ e := fun he => Bool.false_ne_true (hf he)
      have he' : s.counter = e' := by
        simp only [Ringbuf.popRetry, Option.ite_none_left_eq_some, Option.some.injEq,
          Prod.mk.injEq] at hr
        exact hr.2.1
      refine remaining_local rfl rfl ?_
      simp [hpc, Pc.work, Pc.rank, ← he', hne]
  | store hpc hslot | take hpc hslot =>
      refine remaining_local rfl rfl ?_
      simp [hpc, Pc.work, Pc.rank]
  | @storeRetry _ _ x kind i w hpc hslot hf =>
      rw [hfree x kind i hpc, Option.some.injEq] at hslot
      exact absurd (hf hslot.symm) Bool.false_ne_true

/-! ### Finishing the calls -/

/-- As long as the queue is not settled, some thread gets on. -/
theorem Queued.gets_on (h : Queued n s q) (hdone : ¬ Settled s) :
    ∃ t s', step s (.exec t false) = some s' ∧ ClaimsStored s (.exec t false) s' ∧
      s'.remaining < s.remaining := by
  by_cases htake : ∃ t i, s.pc t = .take i
  · obtain ⟨t, i, hpc⟩ := htake
    obtain ⟨s', hs⟩ := h.wf.exec_possible (t := t) (by simp [hpc]) false
    exact ⟨t, s', hs, by simp [ClaimsStored, ClaimStored, hpc],
      remaining_exec hs (by simp [hpc]) (by simp [hpc])⟩
  push Not at htake
  by_cases hstore : ∃ t x k i, s.pc t = .store x k i
  · obtain ⟨t, x, k, i, hpc⟩ := hstore
    obtain ⟨s', hs⟩ := h.wf.exec_possible (t := t) (by simp [hpc]) false
    exact ⟨t, s', hs, by simp [ClaimsStored, ClaimStored, hpc], remaining_exec hs
      (fun y l j hj => h.store_free hj fun u => htake u j) (by simp [hpc])⟩
  push Not at hstore
  -- no slot is claimed, so every pop may claim
  have hclaims : ∀ p, ClaimStored s p := by
    rintro (_ | _ | _ | _ | ⟨e, d⟩ | _)
    case pop =>
      intro _ u
      by_contra hne
      obtain ⟨x, k, hu⟩ := storesAt_ne_zero.1 hne
      exact hstore u x k e.pop hu
    all_goals trivial
  simp only [Settled, not_forall, not_or] at hdone
  obtain ⟨t, hidle, hpush⟩ := hdone
  obtain ⟨s', hs⟩ := h.wf.exec_possible hidle false
  exact ⟨t, s', hs, hclaims (s.pc t), remaining_exec hs
    (fun x k i hpc => absurd hpc (hstore t x k i))
    fun x e d hpc hfull => hpush ⟨⟨x, e, d, hpc⟩, hfull⟩⟩

theorem queued_of_run (hn : 2 ≤ n) (hn32 : n < 2 ^ 32) {as : List (Label Tid D)}
    (hnull : ∀ a ∈ as, a.NonNull) (hC : Along step ClaimsStored (init Tid D n) as)
    (hrun : run step (init Tid D n) as = some s) : ∃ q, Queued n s q := by
  have hC' := along_and.2 ⟨along_of_labels hnull (init Tid D n), hC⟩
  refine run_invariant_of_along (I := fun u => ∃ q, Queued n u q) (fun u a v hu hv hc => ?_) hC'
    ⟨[], queued_init hn⟩ hrun
  obtain ⟨q, hq⟩ := hu
  obtain ⟨q', hq', -⟩ := queued_step hn hn32 hq hv hc
  exact ⟨q', hq'⟩

/-- The concurrent calls do not deadlock as long as no pop claims a slot
whose push has not stored yet: a push whose slot is occupied waits for a
pop that has claimed it, and from every state some schedule of the calls in
progress, which keeps to the condition, finishes all of them but pushes on
a full queue. -/
theorem calls_can_finish (hn : 2 ≤ n) (hn32 : n < 2 ^ 32) {as : List (Label Tid D)}
    (hnull : ∀ a ∈ as, a.NonNull) (hC : Along step ClaimsStored (init Tid D n) as)
    (hrun : run step (init Tid D n) as = some s) :
    (∀ t x k i, s.pc t = .store x k i → s.nodes[i]? ≠ some null → ∃ u, s.pc u = .take i) ∧
      ∃ bs s', (∀ b ∈ bs, b.Attempts) ∧ run step s bs = some s' ∧
        Along step ClaimsStored s bs ∧ Settled s' := by
  obtain ⟨q, hq⟩ := queued_of_run hn hn32 hnull hC hrun
  constructor
  · intro t x k i hpc hslot
    by_contra hnone
    push Not at hnone
    exact hslot (hq.store_free hpc hnone)
  · obtain ⟨bs, s', hbs, hC', -, hdone⟩ := exists_run_to
      (I := fun u => ∃ q, Queued n u q) (Φ := State.remaining)
      (C := fun u a v => a.Attempts ∧ ClaimsStored u a v)
      (fun u hu hdone => by
        obtain ⟨q, hq⟩ := hu
        obtain ⟨t, v, hv, hc, hlt⟩ := hq.gets_on hdone
        obtain ⟨q', hq', -⟩ := queued_step hn hn32 hq hv ⟨trivial, hc⟩
        exact ⟨.exec t false, v, hv, ⟨rfl, hc⟩, ⟨q', hq'⟩, hlt⟩) ⟨q, hq⟩
    obtain ⟨hattempts, hclaims⟩ := along_and.1 hC'
    exact ⟨bs, s', labels_of_along hbs hattempts, hbs, hclaims, hdone⟩

/-- A queue of two slots on its second lap: the first pop has claimed slot
0 and not emptied it, and the third push waits for it there. -/
def lapAhead (t u v : Tid) (x y z : UniquePtr D) : List (Label Tid D) :=
  .call t (.push x) :: List.replicate 2 (.exec t false) ++ [.call u .pop, .exec u false] ++
    .call t (.push y) :: List.replicate 3 (.exec t false) ++ [.call v .pop, .exec v false,
    .exec v false] ++ .call t (.push z) :: List.replicate 2 (.exec t false)

theorem calls_can_finish_lapAhead :
    ∃ s : State (Fin 3) ⟨1, by decide⟩,
      run step (init _ _ 2) (lapAhead 0 1 2 ⟨8, 1⟩ ⟨16, 2⟩ ⟨24, 3⟩) = some s ∧
        s.pc 0 = .store ⟨24, 3⟩ .push 0 ∧ s.nodes[0]? ≠ some null ∧ (∃ u, s.pc u = .take 0) ∧
        ∃ bs s', (∀ b ∈ bs, b.Attempts) ∧ run step s bs = some s' ∧ Settled s' := by
  obtain ⟨s, hrun, hpc, hslot⟩ : ∃ s : State (Fin 3) ⟨1, by decide⟩,
      run step (init _ _ 2) (lapAhead 0 1 2 ⟨8, 1⟩ ⟨16, 2⟩ ⟨24, 3⟩) = some s ∧
        s.pc 0 = .store ⟨24, 3⟩ .push 0 ∧ s.nodes[0]? ≠ some null := by
    refine ⟨_, rfl, rfl, ?_⟩
    decide
  obtain ⟨hwaits, bs, s', hattempts, hbs, -, hdone⟩ := calls_can_finish (by decide) (by decide)
    (by simp [lapAhead, Label.NonNull]) (by decide) hrun
  exact ⟨s, hrun, hpc, hslot, hwaits 0 ⟨24, 3⟩ .push 0 hpc hslot, bs, s', hattempts, hbs, hdone⟩

end JowiAsio.Ringbuf

import JowiAsio.Lib.Counting
import JowiAsio.Lib.Potential
import JowiAsio.LockFreeQueue.Acyclic

/-!
The queue is lock-free.

The loops of `push` and `__pop` end only when a compare-exchange succeeds,
and a thread may fail any number of times. But a `push` that fails has gone
on to a node that was linked later, and a pop that fails has seen a removal
by another thread, of which there are no more than pushes. The potential
charges each thread for what is left of its call and pays, with each node
that can still be removed, for the pops that its removal makes fail.

So the steps of a run are bounded by the calls that have returned, however
the threads are scheduled, and without new calls all pending ones return.
-/

namespace JowiAsio.LockFreeQueue

open Lib

variable {Tid α : Type}

/-- The steps a run in which `h` calls have returned can have, with `n`
threads. -/
def stepBound (n h : ℕ) : ℕ := (h + n + 1) * (2 * n + 5) + (h + n) * (h + n + 7)

/-- The steps the pending calls can take, with `n` threads, when there are
`m` nodes. -/
def pendingBound (n m : ℕ) : ℕ := m * (2 * n + 5) + n * (m + 8)

/-- The step does not begin a call. -/
def Label.isExec : Label Tid α → Prop
  | .call _ _ => False
  | .exec _ => True

/-- What `clear` still has to do when `__pop` has returned a node. -/
def Popper.again : Popper → ℕ
  | .pop => 0
  | .clear => 6

/-- What is left of a call, when no other thread removes a node and there
are at most `N` nodes. -/
def charge (N : ℕ) (s : State Tid α) : Pc → ℕ
  | .idle => 0
  | .loadTail _ => N + 4
  | .linkCas _ tail => N - s.rank tail + 3
  | .storeTail _ => 2
  | .addSize _ => 1
  | .loadHead _ => 6
  | .resetTail _ => 1
  | .loadNext _ headNext => if s.next 0 = some headNext then 5 else 7
  | .headCas _ headNext _ => if s.next 0 = some headNext then 4 else 6
  | .subSize k _ => k.again + 2
  | .resetNext k _ => k.again + 1
  | .loadSize => 1

section

variable [Fintype Tid]

/-- Each node that can still be removed pays for the pops that its removal
makes fail, and for the next round of a `clear`. -/
def potential (N : ℕ) (s : State Tid α) : ℕ :=
  (N - s.removed.length) * (2 * Fintype.card Tid + 5) + ∑ t, charge N s (s.pc t)

end

/-- Every node but `__head` holds a value. -/
def Valued (s : State Tid α) : Prop := ∀ n, 0 < n → n < s.allocated → s.value n ≠ none

structure Progressing (s : State Tid α) : Prop where
  inv : Inv s
  ranked : Ranked s
  valued : Valued s

/-! ### The parts of the potential -/

section

variable {s s' : State Tid α} {N : ℕ}

theorem charge_le (p : Pc) : charge N s p ≤ N + 8 := by
  cases p with
  | subSize k n | resetNext k n =>
      have hagain : k.again ≤ 6 := by cases k <;> simp [Popper.again]
      simp only [charge]
      omega
  | loadNext k n | headCas k n o =>
      simp only [charge]
      split_ifs <;> omega
  | _ =>
      simp only [charge]
      omega

theorem charge_congr (hnext : s'.next 0 = s.next 0) (hlinked : s'.linked = s.linked) (p : Pc) :
    charge N s' p = charge N s p := by
  cases p <;> simp only [charge, State.rank, hnext, hlinked]

@[simp] theorem charge_setPc [DecidableEq Tid] (t : Tid) (p q : Pc) :
    charge N (s.setPc t p) q = charge N s q := charge_congr rfl rfl q

/-- A link makes no pop fail. -/
theorem charge_link_le {a n : ℕ} (hend : s.next a = none) {p : Pc} (hp : Local s p) :
    charge N (s.link a n) p ≤ charge N s p := by
  have hhead : s.next 0 = none ∨ (s.link a n).next 0 = s.next 0 := by
    rcases eq_or_ne a 0 with rfl | hne
    · exact .inl hend
    · exact .inr (Function.update_of_ne hne.symm _ _)
  cases p with
  | linkCas m b => simp only [charge, rank_link_of_known hp.2, le_refl]
  | loadNext k m | headCas k m o =>
      simp only [charge]
      rcases hhead with hhead | hhead
      · rw [hhead]
        split_ifs <;> simp_all
      · rw [hhead]
  | _ => exact le_rfl

/-- A removal makes each pop fail at most once. -/
theorem charge_unlink_le {n : ℕ} {o : Option ℕ} (p : Pc) :
    charge N (s.unlink n o) p ≤ charge N s p + 2 := by
  cases p with
  | loadNext k m | headCas k m o' =>
      simp only [charge]
      split_ifs <;> omega
  | linkCas m b => exact Nat.le_add_right _ _
  | _ => exact Nat.le_add_right _ _

/-- A node is linked once, and `__head` never. -/
theorem Shape.linked_lt (h : Shape s) : s.linked.length < s.allocated := by
  have hsub : s.linked ⊆ List.range' 1 (s.allocated - 1) := by
    intro n hn
    obtain ⟨hpos, hlt⟩ := h.bound n hn
    rw [List.mem_range'_1]
    omega
  have hlen := (List.subperm_of_subset h.nodup hsub).length_le
  have hpos := h.allocated
  rw [List.length_range'] at hlen
  omega

theorem Shape.removed_le (h : Shape s) : s.removed.length ≤ s.linked.length := by
  obtain ⟨l, -, hsub⟩ := h.chain
  exact ((List.sublist_append_left _ _).trans hsub).length_le

variable [Fintype Tid] [DecidableEq Tid]

/-- A step of thread `t` to `p` after which no other thread has more than
`d` more left than before. -/
theorem charges_move {t : Tid} {p : Pc} {c d : ℕ} (hpc : s'.pc = Function.update s.pc t p)
    (hall : ∀ u, charge N s' (s.pc u) ≤ charge N s (s.pc u) + d)
    (hp : charge N s' p + 1 ≤ charge N s' (s.pc t) + c) :
    ∑ u, charge N s' (s'.pc u) + 1 ≤ ∑ u, charge N s (s.pc u) + Fintype.card Tid * d + c := by
  have hsum := sum_update_add (charge N s') s.pc t p
  have hle : ∑ u, charge N s' (s.pc u) ≤ ∑ u, charge N s (s.pc u) + Fintype.card Tid * d := by
    calc ∑ u, charge N s' (s.pc u) ≤ ∑ u, (charge N s (s.pc u) + d) :=
          Finset.sum_le_sum fun u _ => hall u
      _ = ∑ u, charge N s (s.pc u) + Fintype.card Tid * d := by
          rw [Finset.sum_add_distrib, Finset.sum_const_nat fun _ _ => rfl, Finset.card_univ]
  rw [hpc]
  omega

/-- A step that removes no node. -/
theorem potential_move {t : Tid} {p : Pc} {c : ℕ} (hpc : s'.pc = Function.update s.pc t p)
    (hremoved : s'.removed = s.removed)
    (hall : ∀ u, charge N s' (s.pc u) ≤ charge N s (s.pc u))
    (hp : charge N s' p + 1 ≤ charge N s' (s.pc t) + c) :
    potential N s' + 1 ≤ potential N s + c := by
  have hsum := charges_move (d := 0) hpc hall hp
  rw [potential, potential, hremoved]
  omega

/-- A step that leaves the nodes and the pointer to the first one what they
were. -/
theorem potential_quiet {t : Tid} {p : Pc} {c : ℕ} (hpc : s'.pc = Function.update s.pc t p)
    (hnext : s'.next 0 = s.next 0) (hlinked : s'.linked = s.linked)
    (hremoved : s'.removed = s.removed) (hp : charge N s p + 1 ≤ charge N s (s.pc t) + c) :
    potential N s' + 1 ≤ potential N s + c := by
  have hcharge := charge_congr (N := N) hnext hlinked
  refine potential_move hpc hremoved (fun u => (hcharge _).le) ?_
  rw [hcharge, hcharge]
  exact hp

/-- A removal pays for itself. -/
theorem potential_unlink {t : Tid} {k : Popper} {n : ℕ} {o : Option ℕ}
    (hpc : s.pc t = .headCas k n o) (hremoved : s.removed.length < N) :
    potential N ((s.unlink n o).setPc t (.subSize k n)) + 1 ≤ potential N s := by
  have hagain : k.again ≤ 6 := by cases k <;> simp [Popper.again]
  have hpc' : ((s.unlink n o).setPc t (.subSize k n)).pc = Function.update s.pc t (.subSize k n) :=
    rfl
  have hsum := charges_move (N := N) (c := 5) (d := 2) hpc' (fun u => ?_) ?_
  · have hlen : ((s.unlink n o).setPc t (.subSize k n)).removed.length =
        s.removed.length + 1 := by
      simp [State.setPc, State.unlink]
    have hleft : N - s.removed.length = N - (s.removed.length + 1) + 1 := by omega
    rw [potential, potential, hlen, hleft, Nat.succ_mul (N - (s.removed.length + 1))]
    omega
  · rw [charge_setPc]
    exact charge_unlink_le _
  · simp only [hpc, charge]
    split_ifs <;> omega

/-- A step that begins a call pays for the whole call. -/
def Label.cost (N : ℕ) : Label Tid α → ℕ
  | .call _ _ => N + 6
  | .exec _ => 0

theorem potential_begin (h : Progressing s) {t : Tid} {c : Call α} (hpc : s.pc t = .idle)
    (hN : (s.begin t c).allocated ≤ N) :
    potential N (s.begin t c) + 1 ≤ potential N s + (N + 6) := by
  cases c with
  | push v => exact potential_quiet rfl rfl rfl rfl (by simp only [hpc, charge]; omega)
  | pop | clear =>
      have hpos : 0 < N := Nat.lt_of_lt_of_le h.inv.shape.allocated hN
      exact potential_quiet rfl rfl rfl rfl (by simp only [hpc, charge]; omega)
  | size => exact potential_quiet rfl rfl rfl rfl (by simp only [hpc, charge]; omega)

/-- Every step lowers the potential, but for the one that begins a call. -/
theorem potential_step (h : Progressing s) {a : Label Tid α} (hs : step s a = some s')
    (hN : s'.allocated ≤ N) : potential N s' + 1 ≤ potential N s + a.cost N := by
  have hinv := h.inv
  have hlinked : s.linked.length < s.allocated := hinv.shape.linked_lt
  cases step_trans hs with
  | call hpc => exact potential_begin h hpc hN
  | @loadTail t n hpc => exact potential_quiet rfl rfl rfl rfl (by simp only [hpc, charge]; omega)
  | @link t n a hpc ha =>
      have hmove : charge N (s.link a n) (.storeTail n) + 1 ≤
          charge N (s.link a n) (s.pc t) + 0 := by
        rw [hpc]
        simp only [charge]
        omega
      refine potential_move rfl rfl (fun u => ?_) ?_
      · rw [charge_setPc]
        exact charge_link_le ha (hinv.locals u)
      · rw [charge_setPc, charge_setPc]
        exact hmove
  | @linkRetry t n a b hpc ha =>
      -- the next node was linked later
      have hrank := h.ranked a b ha
      have hle := rank_le_length (.inr (hinv.shape.next_linked a b ha))
      have hN' : s.allocated ≤ N := hN
      exact potential_quiet rfl rfl rfl rfl (by simp only [hpc, charge]; omega)
  | storeTail hpc | addSize hpc | resetTail hpc | loadHeadEmpty hpc | loadSize hpc =>
      exact potential_quiet rfl rfl rfl rfl (by simp only [hpc, charge]; omega)
  | loadHead hpc hn =>
      exact potential_quiet rfl rfl rfl rfl (by simp only [hpc, charge, hn, if_true]; omega)
  | loadNext hpc =>
      refine potential_quiet rfl rfl rfl rfl ?_
      simp only [hpc, charge]
      split_ifs <;> omega
  | unlink hpc hn =>
      have hle := hinv.shape.removed_le
      have hN' : s.allocated ≤ N := hN
      exact potential_unlink hpc (by omega)
  | @unlinkRetry t k n m o hpc hm hne =>
      refine potential_quiet rfl rfl rfl rfl ?_
      have hstale : ¬ (some m = some n) := fun e => hne (Option.some.inj e)
      simp only [hpc, charge, hm, if_true, if_neg hstale]
      omega
  | unlinkEmpty hpc hn =>
      refine potential_quiet rfl rfl rfl rfl ?_
      simp only [hpc, charge, hn, reduceCtorEq, if_false]
      omega
  | subSize hpc => exact potential_quiet rfl rfl rfl rfl (by simp only [hpc, charge]; omega)
  | @resetNext t n v hpc hv =>
      have hn : n ∈ s.removed := by simpa [hpc, Local] using hinv.locals t
      have hne : 0 ≠ n := (hinv.shape.ne_zero (hinv.shape.removed_linked hn)).symm
      exact potential_quiet rfl (Function.update_of_ne hne _ _) rfl rfl
        (by simp only [hpc, charge]; omega)
  | @resetNextAgain t n hpc =>
      have hn : n ∈ s.removed := by simpa [hpc, Local] using hinv.locals t
      have hne : 0 ≠ n := (hinv.shape.ne_zero (hinv.shape.removed_linked hn)).symm
      exact potential_quiet rfl (Function.update_of_ne hne _ _) rfl rfl
        (by simp only [hpc, charge, Popper.again]; omega)

end

/-! ### One step -/

theorem progressing_init : Progressing (init Tid α) where
  inv := inv_init
  ranked _ _ h := by simp [init] at h
  valued n hpos hn := absurd hn (by simp only [init]; omega)

section

variable [DecidableEq Tid] {s s' : State Tid α}

theorem valued_step (h : Valued s) {a : Label Tid α} (hs : step s a = some s') : Valued s' := by
  cases step_trans hs with
  | @call t c hpc =>
      cases c with
      | push v =>
          intro n hpos hn
          simp only [State.begin, State.setPc, State.makeNode] at hn ⊢
          rcases eq_or_ne n s.allocated with rfl | hne
          · simp
          · rw [Function.update_of_ne hne]
            exact h n hpos (by omega)
      | pop | clear | size => exact h
  | loadTail | link | linkRetry | storeTail | addSize | loadHead | loadHeadEmpty | resetTail
  | loadNext | unlink | unlinkRetry | unlinkEmpty | subSize | resetNext | resetNextAgain
  | loadSize => exact h

theorem progressing_step (s : State Tid α) (a : Label Tid α) (s' : State Tid α)
    (h : Progressing s) (hs : step s a = some s') : Progressing s' := by
  obtain ⟨hinv, hranked⟩ := ranked_step s a s' ⟨h.inv, h.ranked⟩ hs
  exact ⟨hinv, hranked, valued_step h.valued hs⟩

theorem allocated_mono (s : State Tid α) (a : Label Tid α) (s' : State Tid α)
    (hs : step s a = some s') : s.allocated ≤ s'.allocated := by
  cases step_trans hs with
  | @call t c hpc =>
      cases c with
      | push v => exact Nat.le_succ _
      | pop | clear | size => exact le_refl s.allocated
  | loadTail | link | linkRetry | storeTail | addSize | loadHead | loadHeadEmpty | resetTail
  | loadNext | unlink | unlinkRetry | unlinkEmpty | subSize | resetNext | resetNextAgain
  | loadSize => exact le_refl s.allocated

/-- A call that is in progress can always take its next step. -/
theorem exec_possible (h : Progressing s) {t : Tid} (ht : s.pc t ≠ .idle) :
    ∃ s', step s (.exec t) = some s' := by
  rw [← Option.isSome_iff_exists]
  cases hpc : s.pc t with
  | idle => exact absurd hpc ht
  | linkCas n a => cases ha : s.next a <;> simp [step, hpc, ha]
  | loadHead k => cases hn : s.next 0 <;> simp [step, hpc, hn]
  | headCas k n o =>
      simp only [step, hpc]
      split
      · rfl
      · split <;> rfl
  | resetNext k n =>
      cases k with
      | pop =>
          have hn : n ∈ s.removed := by simpa [hpc, Local] using h.inv.locals t
          obtain ⟨hpos, hlt⟩ := h.inv.shape.bound n (h.inv.shape.removed_linked hn)
          simpa [step, hpc, State.popReturned, State.setNext, Option.isSome_iff_ne_none]
            using h.valued n hpos hlt
      | clear => simp [step, hpc, State.popReturned]
  | loadTail n | storeTail n | addSize n | resetTail k | loadNext k n | subSize k n | loadSize =>
      simp [step, hpc]

end

/-! ### Whole runs -/

/-- The step begins a call. -/
def Label.isCall : Label Tid α → Bool
  | .call _ _ => true
  | .exec _ => false

/-- A thread is busy while it is in a call. -/
def Pc.busy (p : Pc) : ℕ := if p = .idle then 0 else 1

section

variable [Fintype Tid] [DecidableEq Tid] {s s' : State Tid α}

/-- The calls that have begun are those that have returned and those in
progress. -/
def CallsBegun (s : State Tid α) (as : List (Label Tid α)) : Prop :=
  as.countP Label.isCall = s.history.length + ∑ t, (s.pc t).busy

theorem CallsBegun.move {as : List (Label Tid α)} (h : CallsBegun s as) {a : Label Tid α}
    {t : Tid} {p : Pc} (hpc : s'.pc = Function.update s.pc t p)
    (hbusy : s'.history.length + p.busy =
      s.history.length + (s.pc t).busy + if a.isCall then 1 else 0) :
    CallsBegun s' (as ++ [a]) := by
  have hsum := sum_update_add Pc.busy s.pc t p
  rw [CallsBegun] at h ⊢
  rw [List.countP_append, List.countP_singleton, hpc]
  omega

theorem callsBegun_step {as : List (Label Tid α)} (h : CallsBegun s as) {a : Label Tid α}
    (hs : step s a = some s') : CallsBegun s' (as ++ [a]) := by
  cases step_trans hs with
  | @call t c hpc => cases c <;> exact h.move rfl (by rw [hpc]; rfl)
  | addSize hpc | loadSize hpc | resetNext hpc | resetTail hpc =>
      refine h.move rfl ?_
      simp [State.ret, State.addSize, State.setNext, State.setTail, hpc, Pc.busy, Label.isCall]
  | loadTail hpc | link hpc | linkRetry hpc | storeTail hpc | loadHead hpc | loadHeadEmpty hpc
  | loadNext hpc | unlink hpc | unlinkRetry hpc | unlinkEmpty hpc | subSize hpc
  | resetNextAgain hpc => exact h.move rfl (by rw [hpc]; rfl)

omit [DecidableEq Tid] in
theorem CallsBegun.le {as : List (Label Tid α)} (h : CallsBegun s as) :
    as.countP Label.isCall ≤ s.history.length + Fintype.card Tid := by
  have hbusy : ∑ t, (s.pc t).busy ≤ ∑ _ : Tid, 1 :=
    Finset.sum_le_sum fun t _ => by
      rw [Pc.busy]
      split_ifs <;> omega
  rw [Finset.sum_const, Finset.card_univ, Nat.nsmul_eq_mul, Nat.mul_one] at hbusy
  rw [CallsBegun] at h
  omega

omit [Fintype Tid] in
/-- A call begun makes at most one node. -/
theorem allocated_le {as : List (Label Tid α)} {s t : State Tid α} (hrun : run step s as = some t) :
    t.allocated ≤ s.allocated + as.countP Label.isCall := by
  induction as generalizing s with
  | nil =>
      simp only [run_nil, Option.some.injEq] at hrun
      simp [hrun]
  | cons a as ih =>
      rw [run_cons, Option.bind_eq_some_iff] at hrun
      obtain ⟨u, hu, hrest⟩ := hrun
      have hle := ih hrest
      have hone : u.allocated ≤ s.allocated + if a.isCall then 1 else 0 := by
        cases step_trans hu with
        | @call t c hpc =>
            cases c with
            | push v => exact le_refl (s.allocated + 1)
            | pop | clear | size => exact Nat.le_succ _
        | loadTail | link | linkRetry | storeTail | addSize | loadHead | loadHeadEmpty | resetTail
        | loadNext | unlink | unlinkRetry | unlinkEmpty | subSize | resetNext | resetNextAgain
        | loadSize => exact le_refl s.allocated
      rw [List.countP_cons]
      omega

omit [Fintype Tid] [DecidableEq Tid] in
theorem cost_sum (N : ℕ) (as : List (Label Tid α)) :
    (as.map (Label.cost N)).sum = as.countP Label.isCall * (N + 6) := by
  induction as with
  | nil => simp
  | cons a as ih =>
      rw [List.map_cons, List.sum_cons, List.countP_cons, ih]
      cases a with
      | call t c => exact (Nat.add_comm _ _).trans (Nat.succ_mul _ _).symm
      | exec t => exact Nat.zero_add _

/-- Every run pays for its steps with the calls it begins. -/
theorem run_length_le {as : List (Label Tid α)} {s t : State Tid α} (h : Progressing s)
    (hrun : run step s as = some t) :
    as.length ≤ potential t.allocated s + as.countP Label.isCall * (t.allocated + 6) := by
  have hstep : ∀ (u : State Tid α) a v, Progressing u → step u a = some v →
      v.allocated ≤ t.allocated → Progressing v ∧
        potential t.allocated v + 1 ≤ potential t.allocated u + Label.cost t.allocated a :=
    fun u a v hu hs hv => ⟨progressing_step u a v hu hs, potential_step hu hs hv⟩
  have hlen := run_length_add_le hstep (along_le_last allocated_mono hrun) h hrun
  rw [cost_sum] at hlen
  omega

/-- The queue is lock-free: the number of steps of a run is bounded by the
number of calls that have returned and the number of threads. So, however
the threads are scheduled and however often their compare-exchanges fail,
some call returns. -/
theorem queue_lock_free {as : List (Label Tid α)} {s : State Tid α}
    (hrun : run step (init Tid α) as = some s) :
    as.length ≤ stepBound (Fintype.card Tid) s.history.length := by
  have hcalls : as.countP Label.isCall ≤ s.history.length + Fintype.card Tid := by
    have hbegun : CallsBegun s as :=
      run_schedule_invariant (I := CallsBegun) (p := [])
        (fun _ _ _ _ h hs => callsBegun_step h hs) (by simp [CallsBegun, init, Pc.busy]) hrun
    exact hbegun.le
  have halloc : s.allocated ≤ s.history.length + Fintype.card Tid + 1 := by
    have hle := allocated_le hrun
    simp only [init] at hle
    omega
  have hinit : potential s.allocated (init Tid α) = s.allocated * (2 * Fintype.card Tid + 5) := by
    simp [potential, init, charge]
  calc as.length
      ≤ s.allocated * (2 * Fintype.card Tid + 5) +
          as.countP Label.isCall * (s.allocated + 6) := by
        rw [← hinit]
        exact run_length_le progressing_init hrun
    _ ≤ (s.history.length + Fintype.card Tid + 1) * (2 * Fintype.card Tid + 5) +
          (s.history.length + Fintype.card Tid) *
            (s.history.length + Fintype.card Tid + 1 + 6) := by
        gcongr

omit [Fintype Tid] in
/-- Steps that begin no call make no node. -/
theorem allocated_exec {a : Label Tid α} (ha : a.isExec) (hs : step s a = some s') :
    s'.allocated = s.allocated := by
  cases step_trans hs with
  | call => exact ha.elim
  | loadTail | link | linkRetry | storeTail | addSize | loadHead | loadHeadEmpty | resetTail
  | loadNext | unlink | unlinkRetry | unlinkEmpty | subSize | resetNext | resetNextAgain
  | loadSize => rfl

omit [DecidableEq Tid] in
theorem potential_le (s : State Tid α) :
    potential s.allocated s ≤ pendingBound (Fintype.card Tid) s.allocated := by
  have hsum : ∑ t, charge s.allocated s (s.pc t) ≤ Fintype.card Tid * (s.allocated + 8) := by
    calc ∑ t, charge s.allocated s (s.pc t) ≤ ∑ _ : Tid, (s.allocated + 8) :=
          Finset.sum_le_sum fun t _ => charge_le (s.pc t)
      _ = Fintype.card Tid * (s.allocated + 8) := by
          rw [Finset.sum_const_nat fun _ _ => rfl, Finset.card_univ]
  have hleft : (s.allocated - s.removed.length) * (2 * Fintype.card Tid + 5) ≤
      s.allocated * (2 * Fintype.card Tid + 5) := Nat.mul_le_mul_right _ (Nat.sub_le _ _)
  exact Nat.add_le_add hleft hsum

/-- In every reachable state, the steps that the pending calls can still
take are bounded by the number of nodes and of threads, whatever the
schedule, and as long as a call is pending one of them is possible. So all
pending calls return. -/
theorem pending_calls_return {as : List (Label Tid α)} {s : State Tid α}
    (hrun : run step (init Tid α) as = some s) :
    (∀ bs u, (∀ b ∈ bs, Label.isExec b) → run step s bs = some u →
      bs.length ≤ pendingBound (Fintype.card Tid) s.allocated) ∧
      ∃ bs u, (∀ b ∈ bs, Label.isExec b) ∧ run step s bs = some u ∧ ∀ t, u.pc t = .idle := by
  have hs : Progressing s := run_invariant progressing_step progressing_init hrun
  constructor
  · intro bs u hbs hrest
    have hnone : bs.countP Label.isCall = 0 := by
      rw [List.countP_eq_zero]
      intro b hb
      have hexec := hbs b hb
      cases b with
      | call t c => exact hexec.elim
      | exec t => exact Bool.false_ne_true
    have halloc : u.allocated = s.allocated :=
      run_invariant_of_labels (I := fun v => v.allocated = s.allocated) (L := Label.isExec)
        (fun v b w hb hv hw => (allocated_exec hb hw).trans hv) hbs rfl hrest
    have hlen := run_length_le hs hrest
    rw [hnone, Nat.zero_mul, Nat.add_zero, halloc] at hlen
    exact hlen.trans (potential_le s)
  · have hgo : ∀ u : State Tid α, Progressing u ∧ u.allocated = s.allocated →
        ¬ (∀ t, u.pc t = .idle) → ∃ b v, step u b = some v ∧ b.isExec ∧
          (Progressing v ∧ v.allocated = s.allocated) ∧
            potential s.allocated v < potential s.allocated u := by
      intro u hu hbusy
      obtain ⟨t, ht⟩ := not_forall.1 hbusy
      obtain ⟨v, hv⟩ := exec_possible hu.1 ht
      have halloc := (allocated_exec (a := .exec t) trivial hv).trans hu.2
      have hpay := potential_step hu.1 hv halloc.le
      exact ⟨.exec t, v, hv, trivial, ⟨progressing_step u _ v hu.1 hv, halloc⟩, hpay⟩
    obtain ⟨bs, u, hrest, hbs, -, hidle⟩ := exists_run_to hgo ⟨hs, rfl⟩
    exact ⟨bs, u, labels_of_along hrest hbs, hrest, hidle⟩

end

/-- A push and a pop overlap: the pop reads a null pointer before the push
has linked its node. -/
def pushAndPop (t u : Tid) : List (Label Tid ℕ) :=
  [.call t (.push 5), .exec t, .call u .pop, .exec u, .exec t]

theorem queue_lock_free_pushAndPop :
    ∃ s, run step (init (Fin 2) ℕ) (pushAndPop 0 1) = some s ∧ s.history = [] ∧
      5 ≤ stepBound 2 0 := by
  obtain ⟨s, hrun, hhistory⟩ : ∃ s, run step (init (Fin 2) ℕ) (pushAndPop 0 1) = some s ∧
      s.history = [] := ⟨_, rfl, rfl⟩
  have hle := queue_lock_free hrun
  rw [hhistory] at hle
  exact ⟨s, hrun, hhistory, hle⟩

theorem pending_calls_return_pushAndPop :
    ∃ s, run step (init (Fin 2) ℕ) (pushAndPop 0 1) = some s ∧ s.pc 0 = .storeTail 1 ∧
      ∃ bs u, (∀ b ∈ bs, Label.isExec b) ∧ run step s bs = some u ∧ ∀ t, u.pc t = .idle := by
  obtain ⟨s, hrun, hpc⟩ : ∃ s, run step (init (Fin 2) ℕ) (pushAndPop 0 1) = some s ∧
      s.pc 0 = .storeTail 1 := ⟨_, rfl, rfl⟩
  exact ⟨s, hrun, hpc, (pending_calls_return hrun).2⟩

end JowiAsio.LockFreeQueue

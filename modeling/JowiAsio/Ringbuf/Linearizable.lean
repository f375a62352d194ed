import JowiAsio.Lib.Linearization
import JowiAsio.Ringbuf.Conservation

/-!
Concurrent calls on the ring buffer, one after the other.

A push takes effect when it advances the push index, and a pop when it
advances the pop index. This is so as long as no pop claims a slot whose
push has claimed it but not stored yet (`ClaimsStored`): then the pop's
slot is filled, nobody else empties or fills it before the pop comes to
it, and what the pop will return is fixed when it claims the slot.

`Queued n s q` says that `q` are the elements of the window, oldest
first, those included that are still to be stored. Under the condition
every step moves `q` as the abstract FIFO does, so the runs are
linearizable: the calls return what a FIFO of `n - 1` elements returns
when each of them runs at once, at some moment while it is in progress.
-/

namespace JowiAsio.Ringbuf

open Lib TaggedPtr
open Lib.Cyclic (next dist dist_lt dist_inj dist_self dist_eq_zero dist_next_right
  dist_next_left dist_next_self next_eq_iff_dist InWindow next_lt)

variable {D : DeleterSize} {Tid : Type}

section

variable [DecidableEq Tid]

/-- What the condition says of a thread that stands at `p`. -/
def ClaimStored (s : State Tid D) : Pc D → Prop
  | .pop e _ => s.counter = e → ∀ u, (s.pc u).storesAt e.pop = 0
  | _ => True

/-- The condition on a step: a pop does not claim a slot that a push has
claimed and has not stored into. -/
def ClaimsStored (s : State Tid D) : Label Tid D → State Tid D → Prop
  | .exec t false, _ => ClaimStored s (s.pc t)
  | _, _ => True

instance [Fintype Tid] (s : State Tid D) : (p : Pc D) → Decidable (ClaimStored s p)
  | .pop e _ => inferInstanceAs (Decidable (s.counter = e → ∀ u, (s.pc u).storesAt e.pop = 0))
  | .idle | .push _ _ _ | .tryPush _ _ _ | .store _ _ _ | .take _ => isTrue trivial

instance [Fintype Tid] (s : State Tid D) :
    (a : Label Tid D) → (s' : State Tid D) → Decidable (ClaimsStored s a s')
  | .exec t false, _ => inferInstanceAs (Decidable (ClaimStored s (s.pc t)))
  | .exec _ true, _ | .call _ _, _ => isTrue trivial

/-- The call that takes effect at a step, with what it will return. -/
def point (s : State Tid D) : Label Tid D → List (Tid × Event D)
  | .call _ _ => []
  | .exec t spurious =>
      match s.pc t with
      | .push x e d => if (casWeak spurious s.counter e d).ok then [(t, .pushed x)] else []
      | .tryPush x e d =>
          if (casWeak spurious s.counter e d).ok then [(t, .tryPushed x none)]
          else if tryPushRetry s.capacity s.counter = none then [(t, .tryPushed x (some x))]
          else []
      | .pop e d =>
          if (casWeak spurious s.counter e d).ok then
            [(t, .popped true (s.nodes[e.pop]?.bind (nodeLoad D)))]
          else if popRetry s.capacity s.counter = none then [(t, .popped false none)]
          else []
      | _ => []

/-- The call that returns at a step, with what it returns. -/
def returned (s : State Tid D) (a : Label Tid D) : List (Tid × Event D) :=
  ((step s a).map fun s' => s'.history.drop s.history.length).getD [] |>.map (Prod.mk a.thread)

end

/-- What a call will return that has taken effect. -/
def Pc.pending (nodes : List Word) : Pc D → List (Event D)
  | .store x kind _ => [kind.returned x]
  | .take i => [.popped true (nodes[i]?.bind (nodeLoad D))]
  | _ => []

def pending (s : State Tid D) (t : Tid) : List (Event D) := (s.pc t).pending s.nodes

structure Queued [Fintype Tid] (n : ℕ) (s : State Tid D) (q : List (UniquePtr D)) : Prop where
  wf : Wf n s
  balanced : Balanced n s
  nonnull : ∀ x ∈ q, x.ptr ≠ 0
  length : q.length = dist n s.counter.pop s.counter.push
  single : ∀ t u x y k l i, s.pc t = .store x k i → s.pc u = .store y l i → t = u
  storing : ∀ t x k i, s.pc t = .store x k i → q[dist n s.counter.pop i]? = some x
  stored : ∀ i, InWindow n s.counter.pop s.counter.push i → (∀ t x k, s.pc t ≠ .store x k i) →
    i < n → s.nodes[i]? = q[dist n s.counter.pop i]?.map UniquePtr.word

/-! ### Pending stores and takes -/

theorem storesAt_ne_zero {p : Pc D} {i : ℕ} :
    p.storesAt i ≠ 0 ↔ ∃ x k, p = .store x k i := by
  cases p <;> simp [Pc.storesAt]

theorem storesAt_le_one (p : Pc D) (i : ℕ) : p.storesAt i ≤ 1 := by
  cases p with
  | store x k j =>
      simp only [Pc.storesAt]
      split_ifs <;> simp
  | _ => exact Nat.zero_le 1

theorem takesAt_ne_zero {p : Pc D} {i : ℕ} : p.takesAt i ≠ 0 ↔ p = .take i := by
  cases p <;> simp [Pc.takesAt]

section

variable [Fintype Tid] {n : ℕ} {s s' : State Tid D} {q : List (UniquePtr D)}

theorem Queued.stores_le_one (h : Queued n s q) (i : ℕ) : ∑ t, (s.pc t).storesAt i ≤ 1 := by
  refine sum_le_one_of (fun t => storesAt_le_one _ i) fun t u ht hu => ?_
  obtain ⟨x, k, hx⟩ := storesAt_ne_zero.1 ht
  obtain ⟨y, l, hy⟩ := storesAt_ne_zero.1 hu
  exact h.single t u x y k l i hx hy

theorem Queued.inWindow (h : Queued n s q) {t : Tid} {x : UniquePtr D} {k : PushKind} {i : ℕ}
    (hpc : s.pc t = .store x k i) : InWindow n s.counter.pop s.counter.push i := by
  obtain ⟨hlt, -⟩ := List.getElem?_eq_some_iff.1 (h.storing t x k i hpc)
  rw [InWindow, ← h.length]
  exact hlt

/-- A slot that a pop has claimed is filled, and claimed by no other pop. If
it is in the window again, a push is waiting for it to be emptied. -/
theorem Queued.take [DecidableEq Tid] (h : Queued n s q) {t : Tid} {i : ℕ}
    (hpc : s.pc t = .take i) :
    s.nodes[i]? ≠ some null ∧ (∀ u, s.pc u = .take i → u = t) ∧
      (InWindow n s.counter.pop s.counter.push i → ∃ u x k, s.pc u = .store x k i) := by
  have hi : i < n := by simpa [hpc, Pc.Below] using h.wf.index.locals t
  have hbal := h.balanced i hi
  have hst := h.stores_le_one i
  have htk : (s.pc t).takesAt i ≤ ∑ u, (s.pc u).takesAt i :=
    Finset.single_le_sum (f := fun u => (s.pc u).takesAt i) (fun _ _ => Nat.zero_le _)
      (Finset.mem_univ t)
  have hone : (s.pc t).takesAt i = 1 := by simp [hpc, Pc.takesAt]
  -- a slot outside the window has no pending store
  have hwin : ∑ u, (s.pc u).storesAt i ≤ windowed n s.counter i := by
    by_cases hin : InWindow n s.counter.pop s.counter.push i
    · rw [windowed, if_pos hin]
      exact hst
    · rw [sum_eq_zero_of (Pc.storesAt i) s.pc fun u => ?_]
      · exact Nat.zero_le _
      · by_contra hne
        obtain ⟨x, k, hx⟩ := storesAt_ne_zero.1 hne
        exact hin (h.inWindow hx)
  have hocc : occupied s.nodes i ≤ 1 := by
    rw [occupied]
    split_ifs <;> simp
  refine ⟨fun hnull => ?_, fun u hu => ?_, fun hin => ?_⟩
  · have hzero : occupied s.nodes i = 0 := if_pos hnull
    omega
  · have hsum : ∑ u, (s.pc u).takesAt i ≤ 1 := by omega
    exact eq_of_sum_le_one hsum (takesAt_ne_zero.2 hu) (takesAt_ne_zero.2 hpc)
  · have hinw : windowed n s.counter i = 1 := if_pos hin
    obtain ⟨u, -, hu⟩ := Finset.exists_ne_zero_of_sum_ne_zero
      (show ∑ u, (s.pc u).storesAt i ≠ 0 by omega)
    exact ⟨u, storesAt_ne_zero.1 hu⟩

theorem Queued.takesFilled [DecidableEq Tid] (h : Queued n s q) (a : Label Tid D)
    (s' : State Tid D) : TakesFilled s a s' := by
  rintro t f i rfl hpc
  exact (h.take hpc).1

/-! ### What the steps do to the queue -/

variable [DecidableEq Tid]

/-- A step of thread `t` outside the slots and the counter. -/
theorem Queued.locals (h : Queued n s q) (hwf : Wf n s') (hbal : Balanced n s') {t : Tid}
    {p : Pc D} (hpc : s'.pc = Function.update s.pc t p) (hnodes : s'.nodes = s.nodes)
    (hcounter : s'.counter = s.counter) (hold : ∀ x k i, s.pc t ≠ .store x k i)
    (hnew : ∀ x k i, p ≠ .store x k i) : Queued n s' q := by
  have hback : ∀ u x k i, s'.pc u = .store x k i ↔ s.pc u = .store x k i := by
    intro u x k i
    rw [hpc]
    rcases eq_or_ne u t with rfl | hne
    · rw [Function.update_self]
      exact iff_of_false (hnew x k i) (hold x k i)
    · rw [Function.update_of_ne hne]
  refine ⟨hwf, hbal, h.nonnull, ?_, fun u v x y k l i hu hv => ?_, fun u x k i hu => ?_,
    fun i hwin hnone hi => ?_⟩
  · rw [hcounter]
    exact h.length
  · exact h.single u v x y k l i ((hback _ _ _ _).1 hu) ((hback _ _ _ _).1 hv)
  · rw [hcounter]
    exact h.storing u x k i ((hback _ _ _ _).1 hu)
  · rw [hcounter] at hwin ⊢
    rw [hnodes]
    exact h.stored i hwin (fun u x k hu => hnone u x k ((hback _ _ _ _).2 hu)) hi

/-- A push claims the slot behind the window. -/
theorem Queued.claimPush (h : Queued n s q) {t : Tid} {x : UniquePtr D} {kind : PushKind}
    (hwf : Wf n s') (hbal : Balanced n s')
    (hpc : s'.pc = Function.update s.pc t (.store x kind s.counter.push))
    (hnodes : s'.nodes = s.nodes) (hcounter : s'.counter = ⟨next n s.counter.push, s.counter.pop⟩)
    (hroom : next n s.counter.push ≠ s.counter.pop) (hx : x.ptr ≠ 0)
    (hold : ∀ x k i, s.pc t ≠ .store x k i) : Queued n s' (q ++ [x]) := by
  obtain ⟨hpush, hpop⟩ := h.wf.index.counter
  have hlen := h.length
  have hdist := dist_next_right hpop hpush hroom
  -- nobody stores at the slot behind the window
  have hfree : ∀ u y k, s.pc u ≠ .store y k s.counter.push := fun u y k hu =>
    Nat.lt_irrefl _ (h.inWindow hu)
  have hother : ∀ {u}, u ≠ t → s'.pc u = s.pc u := fun hne => by
    rw [hpc, Function.update_of_ne hne]
  have hself : s'.pc t = .store x kind s.counter.push := by rw [hpc, Function.update_self]
  refine ⟨hwf, hbal, fun y hy => ?_, ?_, fun u v y z k l i hu hv => ?_, fun u y k i hu => ?_,
    fun i hwin hnone hi => ?_⟩
  · rcases List.mem_append.1 hy with hy | hy
    · exact h.nonnull y hy
    · exact List.mem_singleton.1 hy ▸ hx
  · rw [hcounter, hdist, List.length_append, hlen]
    rfl
  · rcases eq_or_ne u t with rfl | hut <;> rcases eq_or_ne v u with rfl | hvu
    · rfl
    · rw [hself, Pc.store.injEq] at hu
      rw [hother hvu, ← hu.2.2] at hv
      exact absurd hv (hfree v z l)
    · rfl
    · rw [hother hut] at hu
      rcases eq_or_ne v t with rfl | hvt
      · rw [hself, Pc.store.injEq] at hv
        rw [← hv.2.2] at hu
        exact absurd hu (hfree u y k)
      · rw [hother hvt] at hv
        exact h.single u v y z k l i hu hv
  · rw [hcounter]
    rcases eq_or_ne u t with rfl | hne
    · rw [hself, Pc.store.injEq] at hu
      obtain ⟨rfl, -, rfl⟩ := hu
      rw [← hlen]
      simp
    · rw [hother hne] at hu
      have hold := h.storing u y k i hu
      rw [List.getElem?_append_left (List.getElem?_eq_some_iff.1 hold).1]
      exact hold
  · rw [hcounter] at hwin ⊢
    have hne : i ≠ s.counter.push := by
      rintro rfl
      exact hnone t x kind hself
    have hwin' : InWindow n s.counter.pop s.counter.push i := by
      refine ((Cyclic.inWindow_next_right hpop hpush hi hroom).1 hwin).resolve_right hne
    rw [hnodes, h.stored i hwin' (fun u y k hu => ?_) hi,
      List.getElem?_append_left (by rw [hlen]; exact hwin')]
    have hut : u ≠ t := fun e => hold y k i (e ▸ hu)
    exact hnone u y k ((hother hut).trans hu)

/-- A push stores into the slot it has claimed. -/
theorem Queued.store (h : Queued n s q) {t : Tid} {x : UniquePtr D} {kind : PushKind} {i : ℕ}
    (hwf : Wf n s') (hbal : Balanced n s') (hpc : s.pc t = .store x kind i)
    (hpc' : s'.pc = Function.update s.pc t .idle) (hnodes : s'.nodes = s.nodes.set i x.word)
    (hcounter : s'.counter = s.counter) : Queued n s' q := by
  have hi : i < n := by simpa [hpc, Pc.Below] using h.wf.index.locals t
  have hsize : s.nodes.length = n := h.wf.index.size
  have hback : ∀ {u y k j}, s'.pc u = .store y k j → u ≠ t ∧ s.pc u = .store y k j := by
    intro u y k j hu
    rw [hpc'] at hu
    rcases eq_or_ne u t with rfl | hne
    · simp at hu
    · rw [Function.update_of_ne hne] at hu
      exact ⟨hne, hu⟩
  refine ⟨hwf, hbal, h.nonnull, ?_, fun u v y z k l j hu hv => ?_, fun u y k j hu => ?_,
    fun j hwin hnone hj => ?_⟩
  · rw [hcounter]
    exact h.length
  · exact h.single u v y z k l j (hback hu).2 (hback hv).2
  · rw [hcounter]
    exact h.storing u y k j (hback hu).2
  · rw [hcounter] at hwin ⊢
    rw [hnodes]
    rcases eq_or_ne j i with rfl | hne
    · rw [List.getElem?_set_self (hsize ▸ hj), h.storing t x kind j hpc]
      rfl
    · rw [List.getElem?_set_ne hne.symm]
      refine h.stored j hwin (fun u y k hu => ?_) hj
      have hut : u ≠ t := by
        rintro rfl
        rw [hpc, Pc.store.injEq] at hu
        exact hne hu.2.2.symm
      exact hnone u y k (by rw [hpc', Function.update_of_ne hut, hu])

/-- A pop claims the first slot of the window, whose push has stored. -/
theorem Queued.claimPop (h : Queued n s q) {t : Tid} (hwf : Wf n s') (hbal : Balanced n s')
    (hpc' : s'.pc = Function.update s.pc t (.take s.counter.pop)) (hnodes : s'.nodes = s.nodes)
    (hcounter : s'.counter = ⟨s.counter.push, next n s.counter.pop⟩)
    (hne : s.counter.push ≠ s.counter.pop) (hold : ∀ x k i, s.pc t ≠ .store x k i)
    (hstored : ∀ u x k, s.pc u ≠ .store x k s.counter.pop) :
    ∃ y q', q = y :: q' ∧ s.nodes[s.counter.pop]? = some y.word ∧ Queued n s' q' := by
  obtain ⟨hpush, hpop⟩ := h.wf.index.counter
  have hlen := h.length
  have hdist := dist_next_left hpop hpush hne.symm
  cases q with
  | nil =>
      rw [List.length_nil, eq_comm, dist_eq_zero hpop] at hlen
      exact absurd hlen.symm hne
  | cons y q =>
      have hfirst := h.stored s.counter.pop (Cyclic.inWindow_left hpop hne.symm) hstored hpop
      have hback : ∀ u x k i, s'.pc u = .store x k i ↔ s.pc u = .store x k i := by
        intro u x k i
        rw [hpc']
        rcases eq_or_ne u t with rfl | hut
        · rw [Function.update_self]
          exact iff_of_false (by simp) (hold x k i)
        · rw [Function.update_of_ne hut]
      -- what stands behind the first slot moves up by one
      have hshift : ∀ i < n, i ≠ s.counter.pop →
          (y :: q)[dist n s.counter.pop i]? = q[dist n (next n s.counter.pop) i]? := by
        intro i hi hip
        rw [← dist_next_left hpop hi hip.symm, List.getElem?_cons_succ]
      rw [List.length_cons] at hlen
      refine ⟨y, q, rfl, by simpa using hfirst, hwf, hbal,
        fun x hx => h.nonnull x (List.mem_cons_of_mem y hx), ?_, fun u v x z k l i hu hv => ?_,
        fun u x k i hu => ?_, fun i hwin hnone hi => ?_⟩
      · rw [hcounter]
        simp only
        omega
      · exact h.single u v x z k l i ((hback _ _ _ _).1 hu) ((hback _ _ _ _).1 hv)
      · have hu' := (hback _ _ _ _).1 hu
        have hi : i < n := by simpa [hu', Pc.Below] using h.wf.index.locals u
        have hip : i ≠ s.counter.pop := fun e => hstored u x k (e ▸ hu')
        rw [hcounter, ← hshift i hi hip]
        exact h.storing u x k i hu'
      · rw [hcounter] at hwin ⊢
        obtain ⟨hwin', hip⟩ := (Cyclic.inWindow_next_left hpop hpush hi hne.symm).1 hwin
        rw [hnodes, ← hshift i hi hip]
        exact h.stored i hwin' (fun u x k hu => hnone u x k ((hback _ _ _ _).2 hu)) hi

/-- A pop empties the slot it has claimed. -/
theorem Queued.taken (h : Queued n s q) {t : Tid} {i : ℕ} (hwf : Wf n s') (hbal : Balanced n s')
    (hpc : s.pc t = .take i) (hpc' : s'.pc = Function.update s.pc t .idle)
    (hnodes : s'.nodes = s.nodes.set i null) (hcounter : s'.counter = s.counter) :
    Queued n s' q := by
  have hback : ∀ u x k j, s'.pc u = .store x k j ↔ s.pc u = .store x k j := by
    intro u x k j
    rw [hpc']
    rcases eq_or_ne u t with rfl | hne
    · rw [Function.update_self, hpc]
      exact iff_of_false (by simp) (by simp)
    · rw [Function.update_of_ne hne]
  refine ⟨hwf, hbal, h.nonnull, ?_, fun u v x y k l j hu hv => ?_, fun u x k j hu => ?_,
    fun j hwin hnone hj => ?_⟩
  · rw [hcounter]
    exact h.length
  · exact h.single u v x y k l j ((hback _ _ _ _).1 hu) ((hback _ _ _ _).1 hv)
  · rw [hcounter]
    exact h.storing u x k j ((hback _ _ _ _).1 hu)
  · rw [hcounter] at hwin ⊢
    have hne : i ≠ j := by
      rintro rfl
      obtain ⟨u, x, k, hu⟩ := (h.take hpc).2.2 hwin
      exact hnone u x k ((hback _ _ _ _).2 hu)
    rw [hnodes, List.getElem?_set_ne hne]
    exact h.stored j hwin (fun u x k hu => hnone u x k ((hback _ _ _ _).2 hu)) hj

/-! ### What the calls are answered -/

/-- What a step does to the abstract FIFO and to the answers. -/
structure StepsAs (n : ℕ) (s : State Tid D) (a : Label Tid D) (s' : State Tid D)
    (q q' : List (UniquePtr D)) : Prop where
  legal : ((point s a).map Prod.snd).foldlM (replayEvent (n - 1)) q = some q'
  answers : ∀ t, pending s t ++ byThread t (point s a) =
    byThread t (returned s a) ++ pending s' t

omit [Fintype Tid] in
theorem returned_eq {a : Label Tid D} {evs : List (Event D)} (hs : step s a = some s')
    (hhistory : s'.history = s.history ++ evs) : returned s a = evs.map (Prod.mk a.thread) := by
  simp [returned, hs, hhistory]

omit [Fintype Tid] in
/-- A step of thread `t` from `p` to `p'` that takes effect as `pts` and
returns `rets`. -/
theorem stepsAs {q' : List (UniquePtr D)} {a : Label Tid D} {t : Tid} {p p' : Pc D}
    (pts rets : List (Event D)) (hs : step s a = some s') (hpc : s.pc t = p) (ht : a.thread = t)
    (hpc' : s'.pc = Function.update s.pc t p') (hpoint : point s a = pts.map (Prod.mk t))
    (hhistory : s'.history = s.history ++ rets)
    (hnodes : ∀ u i, u ≠ t → s.pc u = .take i → s'.nodes[i]? = s.nodes[i]?)
    (hlegal : pts.foldlM (replayEvent (n - 1)) q = some q')
    (hself : p.pending s.nodes ++ pts = rets ++ p'.pending s'.nodes) :
    StepsAs n s a s' q q' := by
  refine ⟨?_, fun u => ?_⟩
  · rw [hpoint, List.map_map]
    simpa using hlegal
  rw [hpoint, returned_eq hs hhistory, ht]
  refine answers_of_thread ?_ (fun v hv => ?_) u
  · rw [pending, pending, hpc', Function.update_self, hpc]
    exact hself
  · rw [pending, pending, hpc', Function.update_of_ne hv]
    cases hu : s.pc v with
    | take i => simp only [Pc.pending, hnodes v i hv hu]
    | _ => rfl

omit [Fintype Tid] in
/-- A step that neither takes effect nor returns. -/
theorem stepsAs_quiet {a : Label Tid D} {t : Tid} {p p' : Pc D} (hs : step s a = some s')
    (hpc : s.pc t = p) (ht : a.thread = t) (hpc' : s'.pc = Function.update s.pc t p')
    (hpoint : point s a = []) (hhistory : s'.history = s.history) (hnodes : s'.nodes = s.nodes)
    (hself : p.pending s.nodes = p'.pending s.nodes) : StepsAs n s a s' q q :=
  stepsAs [] [] hs hpc ht hpc' hpoint (by simpa using hhistory)
    (fun _ _ _ _ => by rw [hnodes]) rfl
    (by simpa only [hnodes, List.append_nil, List.nil_append] using hself)

omit [Fintype Tid] in
/-- A call that is answered at once. -/
theorem stepsAs_now {a : Label Tid D} {t : Tid} {p : Pc D} {ev : Event D} (hs : step s a = some s')
    (hpc : s.pc t = p) (ht : a.thread = t) (hpc' : s'.pc = Function.update s.pc t .idle)
    (hpoint : point s a = [(t, ev)]) (hhistory : s'.history = s.history ++ [ev])
    (hnodes : s'.nodes = s.nodes) (hlegal : replayEvent (n - 1) q ev = some q)
    (hself : p.pending s.nodes = []) : StepsAs n s a s' q q :=
  stepsAs [ev] [ev] hs hpc ht hpc' hpoint hhistory
    (fun _ _ _ _ => by rw [hnodes]) (by simpa using hlegal)
    (by rw [hself, List.nil_append]; rfl)

omit [DecidableEq Tid] in
/-- The window is full when the next push index is the pop index. -/
theorem Queued.full_iff (h : Queued n s q) :
    next n s.counter.push = s.counter.pop ↔ q.length + 1 = n := by
  obtain ⟨hpush, hpop⟩ := h.wf.index.counter
  rw [next_eq_iff_dist hpop hpush, h.length]

omit [DecidableEq Tid] in
theorem Queued.push_fits (h : Queued n s q) (hroom : next n s.counter.push ≠ s.counter.pop)
    (x : UniquePtr D) : Fifo.push (n - 1) q x = some (q ++ [x]) := by
  have hlt : q.length < n := h.length ▸ dist_lt h.wf.index.counter.2 h.wf.index.counter.1
  have hne : q.length + 1 ≠ n := fun e => hroom (h.full_iff.2 e)
  exact Fifo.push_of_lt (by omega) x

theorem queued_step (hn : 2 ≤ n) (hn32 : n < 2 ^ 32) {a : Label Tid D} (h : Queued n s q)
    (hs : step s a = some s') (hC : a.NonNull ∧ ClaimsStored s a s') :
    ∃ q', Queued n s' q' ∧ StepsAs n s a s' q q' := by
  have hwf := wf_step hn hn32 hC.1 h.wf hs
  have hbal := balanced_step h.wf h.balanced hs (h.takesFilled a s')
  have hcap : s.capacity = n := h.wf.index.size
  obtain ⟨hpush, hpop⟩ := h.wf.index.counter
  cases step_trans hs with
  | @call t c hpc =>
      refine ⟨q, h.locals hwf hbal rfl rfl rfl (by simp [hpc]) (by cases c <;> simp [Call.start]),
        stepsAs_quiet hs hpc rfl rfl rfl rfl rfl ?_⟩
      cases c <;> rfl
  | @pushClaim t x e d hpc hc =>
      obtain ⟨rfl, hroom⟩ : d = _ ∧ _ := by simpa only [hpc, Planned] using h.wf.planned t
      have hx : x.ptr ≠ 0 := by simpa [hpc, Pc.NonNull] using h.wf.nonnull t
      subst hc
      refine ⟨q ++ [x], h.claimPush hwf hbal rfl rfl rfl hroom hx (by simp [hpc]),
        stepsAs [.pushed x] [] hs hpc rfl rfl ?_ ?_ ?_ ?_ rfl⟩
      · simp [point, hpc, casWeak_ok]
      · exact (List.append_nil _).symm
      · exact fun _ _ _ _ => rfl
      · simp [replayEvent, h.push_fits hroom]
  | @pushRetry t f x e d hpc hf =>
      refine ⟨q, h.locals hwf hbal rfl rfl rfl (by simp [hpc]) (by simp),
        stepsAs_quiet hs hpc rfl rfl ?_ rfl rfl rfl⟩
      simp [point, hpc, casWeak_not_ok hf]
  | @tryPushClaim t x e d hpc hc =>
      obtain ⟨rfl, hroom⟩ : d = _ ∧ _ := by simpa only [hpc, Planned] using h.wf.planned t
      have hx : x.ptr ≠ 0 := by simpa [hpc, Pc.NonNull] using h.wf.nonnull t
      subst hc
      refine ⟨q ++ [x], h.claimPush hwf hbal rfl rfl rfl hroom hx (by simp [hpc]),
        stepsAs [.tryPushed x none] [] hs hpc rfl rfl ?_ ?_ ?_ ?_ rfl⟩
      · simp [point, hpc, casWeak_ok]
      · exact (List.append_nil _).symm
      · exact fun _ _ _ _ => rfl
      · simp [replayEvent, h.push_fits hroom]
  | @tryPushFull t f x e d hpc hf hr =>
      refine ⟨q, h.locals hwf hbal rfl rfl rfl (by simp [hpc]) (by simp),
        stepsAs_now hs hpc rfl rfl ?_ rfl rfl ?_ rfl⟩
      · simp [point, hpc, casWeak_not_ok hf, hr]
      · rw [hcap] at hr
        have hfull : q.length + 1 = n := by
          rw [← h.full_iff]
          simpa [tryPushRetry, advance_eq_next hn32 hpush] using hr
        simp [replayEvent, Fifo.push_of_ge (show n - 1 ≤ q.length by omega)]
  | @tryPushRetry t f x e d e' d' hpc hf hr =>
      refine ⟨q, h.locals hwf hbal rfl rfl rfl (by simp [hpc]) (by simp),
        stepsAs_quiet hs hpc rfl rfl ?_ rfl rfl rfl⟩
      simp [point, hpc, casWeak_not_ok hf, hr]
  | @store t x kind i hpc hslot =>
      refine ⟨q, h.store hwf hbal hpc rfl rfl rfl,
        stepsAs [] [kind.returned x] hs hpc rfl rfl ?_ rfl ?_ rfl rfl⟩
      · simp [point, hpc]
      · intro u j _ hu
        have hne : i ≠ j := fun e => (h.take hu).1 (e ▸ hslot)
        exact List.getElem?_set_ne hne
  | @storeRetry t f x kind i w hpc hslot hf =>
      have hsame : s.pc = Function.update s.pc t (.store x kind i) := by
        rw [← hpc, Function.update_eq_self]
      refine ⟨q, h, stepsAs_quiet hs hpc rfl hsame ?_ rfl rfl rfl⟩
      simp [point, hpc]
  | @popClaim t e d hpc hc =>
      obtain ⟨rfl, hne⟩ : d = _ ∧ _ := by simpa only [hpc, Planned] using h.wf.planned t
      subst hc
      have hstored : ∀ u, (s.pc u).storesAt s.counter.pop = 0 := by
        have hclaim : ClaimStored s (s.pc t) := hC.2
        rw [hpc] at hclaim
        exact hclaim rfl
      obtain ⟨y, q', rfl, hslot, hq'⟩ := h.claimPop hwf hbal rfl rfl rfl hne (by simp [hpc])
        fun u x k hu => storesAt_ne_zero.2 ⟨x, k, hu⟩ (hstored u)
      have hload : s.nodes[s.counter.pop]?.bind (nodeLoad D) = some y := by
        rw [hslot, Option.bind_some, nodeLoad_word (h.nonnull y List.mem_cons_self)]
      refine ⟨q', hq', stepsAs [.popped true (some y)] [] hs hpc rfl rfl
        ?_ ?_ ?_ ?_ ?_⟩
      · simp [point, hpc, casWeak_ok, hload]
      · exact (List.append_nil _).symm
      · exact fun _ _ _ _ => rfl
      · simp [replayEvent]
      · simp [Pc.pending, hload]
  | @popEmpty t f e d hpc hf hr =>
      refine ⟨q, h.locals hwf hbal rfl rfl rfl (by simp [hpc]) (by simp),
        stepsAs_now hs hpc rfl rfl ?_ rfl rfl ?_ rfl⟩
      · simp [point, hpc, casWeak_not_ok hf, hr]
      · have hempty : s.counter.push = s.counter.pop := by simpa [popRetry] using hr
        have hlen := h.length
        rw [hempty, dist_self, List.length_eq_zero_iff] at hlen
        simp [replayEvent, hlen]
  | @popRetry t f e d e' d' hpc hf hr =>
      refine ⟨q, h.locals hwf hbal rfl rfl rfl (by simp [hpc]) (by simp),
        stepsAs_quiet hs hpc rfl rfl ?_ rfl rfl rfl⟩
      simp [point, hpc, casWeak_not_ok hf, hr]
  | @take t f i w hpc hslot =>
      refine ⟨q, h.taken hwf hbal hpc rfl rfl rfl,
        stepsAs [] [.popped true (nodeLoad D w)] hs hpc rfl rfl ?_ rfl ?_ rfl
          ?_⟩
      · simp [point, hpc]
      · intro u j hut hu
        have hne : i ≠ j := by
          rintro rfl
          exact hut ((h.take hpc).2.1 u hu)
        exact List.getElem?_set_ne hne
      · simp [Pc.pending, hslot]

/-! ### Whole runs -/

omit [DecidableEq Tid] in
theorem queued_init (hn : 2 ≤ n) : Queued n (init Tid D n) [] where
  wf := wf_init hn
  balanced := balanced_init n
  nonnull _ hx := absurd hx List.not_mem_nil
  length := (dist_self n 0).symm
  single _ _ _ _ _ _ _ h := by simp [init] at h
  storing _ _ _ _ h := by simp [init] at h
  stored i hwin := by simp [init, InWindow] at hwin

omit [Fintype Tid] in
theorem history_prefix {a : Label Tid D} (hs : step s a = some s') : s.history <+: s'.history := by
  cases step_trans hs with
  | tryPushFull | store | popEmpty | take => exact List.prefix_append _ _
  | call | pushClaim | pushRetry | tryPushClaim | tryPushRetry | storeRetry | popClaim
  | popRetry => exact List.prefix_refl _

omit [Fintype Tid] in
/-- The returns of a run are its history. -/
theorem returned_history {as : List (Label Tid D)} (hrun : run step s as = some s') :
    s'.history = s.history ++ (liftRun step returned s as).map Prod.snd := by
  have hstep : ∀ u a v (log : List (Tid × Event D)),
      u.history = s.history ++ log.map Prod.snd → step u a = some v →
      v.history = s.history ++ (log ++ returned u a).map Prod.snd := fun u a v log hu hv => by
    obtain ⟨evs, hevs⟩ := history_prefix hv
    rw [← hevs, returned_eq hv hevs.symm, hu, List.map_append, List.append_assoc]
    simp
  have hnil : s.history = s.history ++ ([] : List (Tid × Event D)).map Prod.snd := by simp
  simpa using run_log_invariant hstep hnil hrun

/-- As long as no pop claims a slot whose push has not stored yet, the
concurrent calls are linearizable: in the order in which they take effect,
each of them while it is in progress, they are answered as a FIFO of at
most `n - 1` elements answers them one after the other, and each thread is
answered what its own calls there are. -/
theorem concurrent_calls_linearizable (hn : 2 ≤ n) (hn32 : n < 2 ^ 32) {as : List (Label Tid D)}
    (hnull : ∀ a ∈ as, a.NonNull) (hC : Along step ClaimsStored (init Tid D n) as)
    (hrun : run step (init Tid D n) as = some s) :
    (∃ q, Linearizes (replayEvent (n - 1)) [] q (liftRun step point (init Tid D n) as)
      (liftRun step returned (init Tid D n) as) (pending s)) ∧
      s.history = (liftRun step returned (init Tid D n) as).map Prod.snd := by
  have hC' := along_and.2 ⟨along_of_labels hnull (init Tid D n), hC⟩
  obtain ⟨q, -, hq⟩ := run_linearizes (I := Queued n)
    (fun u a v q hu hv hc => by
      obtain ⟨q', hq', hlegal, hanswers⟩ := queued_step hn hn32 hu hv hc
      exact ⟨q', hq', hlegal, hanswers⟩)
    hC' (queued_init hn) (fun _ => rfl) hrun
  exact ⟨⟨q, hq⟩, by simpa [init] using returned_history hrun⟩

end

/-- Two pushes and a pop that overlap: the push that claims first stores
last, and the pop claims in between. -/
def overlapping (t u v : Tid) (x y : UniquePtr D) : List (Label Tid D) :=
  [.call t (.push x), .call u (.push y), .exec t false, .exec u false, .exec u false,
    .exec t false, .call v .pop, .exec v false, .exec u false, .exec v false, .exec v false]

theorem concurrent_calls_linearizable_overlapping :
    ∃ s : State (Fin 3) ⟨1, by decide⟩,
      run step (init _ _ 3) (overlapping 0 1 2 ⟨8, 1⟩ ⟨16, 2⟩) = some s ∧
        s.history.length = 3 ∧ ∃ q, Linearizes (replayEvent 2) [] q
          (liftRun step point (init _ _ 3) (overlapping 0 1 2 ⟨8, 1⟩ ⟨16, 2⟩))
          (liftRun step returned (init _ _ 3) (overlapping 0 1 2 ⟨8, 1⟩ ⟨16, 2⟩)) (pending s) := by
  obtain ⟨s, hrun, hlen⟩ : ∃ s : State (Fin 3) ⟨1, by decide⟩,
      run step (init _ _ 3) (overlapping 0 1 2 ⟨8, 1⟩ ⟨16, 2⟩) = some s ∧
        s.history.length = 3 := ⟨_, rfl, rfl⟩
  exact ⟨s, hrun, hlen, (concurrent_calls_linearizable (by decide) (by decide)
    (by simp [overlapping, Label.NonNull]) (by decide) hrun).1⟩

end JowiAsio.Ringbuf

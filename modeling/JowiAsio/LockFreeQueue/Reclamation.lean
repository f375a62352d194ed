import JowiAsio.Lib.Counting
import JowiAsio.Lib.RefCount
import JowiAsio.LockFreeQueue.Memory
import JowiAsio.LockFreeQueue.Progress

/-!
The nodes of the queue are reclaimed exactly.

Every step moves references between the cells, the locals and the drops
that are left, so the count of a node is the number of references to it
(`Reclaiming`). A node that some thread can still touch has not been
deleted, and since the `next` pointers form no cycle, a node that nobody
can reach has been. This includes the nodes that a removal has cut off. So
the destruction of the queue deletes all that are left.
-/

namespace JowiAsio.LockFreeQueue

open Lib

variable {Tid α : Type}

/-! ### The references -/

/-- The nodes that have not been deleted. -/
def Memory.live (m : Memory Tid α) : Finset ℕ :=
  {n ∈ Finset.range m.queue.allocated | n ∉ m.freed}

/-- The references of the members `__tail` and `__head`. -/
def Memory.members (m : Memory Tid α) : List ℕ := if m.closed then [] else [m.queue.tail, 0]

/-- The references of a thread. -/
def Memory.held (m : Memory Tid α) (t : Tid) : List ℕ := (m.locals t).nodes ++ m.dying t

/-- The references to `n` that are in no node. -/
def Memory.roots [Fintype Tid] (m : Memory Tid α) (n : ℕ) : ℕ :=
  m.members.count n + ∑ t, (m.held t).count n

/-- The node whose memory the next step of the call reads or writes. -/
def Pc.touched : Pc → Option ℕ
  | .linkCas _ tail => some tail
  | .loadHead _ | .headCas _ _ _ => some 0
  | .loadNext _ headNext | .resetNext _ headNext => some headNext
  | _ => none

/-- The locals of a call at each place. -/
def Locals.At (l : Locals) : Pc → Prop
  | .idle | .loadSize => l = .empty
  | .loadTail n => l = { Locals.empty with newNode := some n }
  | .linkCas n a => l = { Locals.empty with newNode := some n, tail := some a }
  | .storeTail n | .addSize n => l.newNode = some n
  | .loadHead _ => l = { Locals.empty with node := l.node }
  | .resetTail _ => True
  | .loadNext _ n | .subSize _ n | .resetNext _ n =>
      l.newNode = none ∧ l.tail = none ∧ l.headNext = some n
  | .headCas _ n o =>
      l.newNode = none ∧ l.tail = none ∧ l.headNext = some n ∧ l.headNextNext = o

structure Reclaiming [Fintype Tid] (m : Memory Tid α) : Prop where
  queue : Progressing m.queue
  counts : RefCounted m.live m.queue.next m.count m.roots
  nodup : m.freed.Nodup
  freed : ∀ n ∈ m.freed, n < m.queue.allocated
  locals : ∀ t, (m.locals t).At (m.queue.pc t)
  closed : m.closed = true → ∀ t, m.queue.pc t = .idle

/-- What every thread can rely on: what the cells, the locals and the
drops refer to has not been deleted, nor has the memory that the next step
touches, no node is deleted twice, and no count that is lowered is zero. -/
structure MemorySafe (m : Memory Tid α) : Prop where
  cells : m.closed = false → m.queue.tail ∉ m.freed ∧ ∀ n, m.queue.next 0 = some n → n ∉ m.freed
  held : ∀ t, ∀ n ∈ m.held t, n ∉ m.freed
  touched : ∀ t n, (m.queue.pc t).touched = some n → n ∉ m.freed
  once : m.freed.Nodup
  counted : ∀ t, ∀ n ∈ m.dying t, 0 < m.count n

/-- A node can be reached from a member, a local or a drop. -/
def Memory.Reachable (m : Memory Tid α) (n : ℕ) : Prop :=
  ∃ r, (r ∈ m.members ∨ ∃ t, r ∈ m.held t) ∧
    Relation.ReflTransGen (fun a b => m.queue.next a = some b) r n

/-! ### Consequences of the counts -/

section

variable [Fintype Tid] {m : Memory Tid α}

omit [Fintype Tid] in
theorem mem_live {n : ℕ} : n ∈ m.live ↔ n < m.queue.allocated ∧ n ∉ m.freed := by
  rw [Memory.live, Finset.mem_filter, Finset.mem_range]

theorem roots_pos {n : ℕ} : 0 < m.roots n ↔ n ∈ m.members ∨ ∃ t, n ∈ m.held t := by
  rw [Memory.roots, Nat.add_pos_iff_pos_or_pos, List.count_pos_iff]
  refine or_congr_right ?_
  rw [Finset.sum_pos_iff_of_nonneg fun _ _ => Nat.zero_le _]
  simp only [Finset.mem_univ, true_and, List.count_pos_iff]

namespace Reclaiming

variable (h : Reclaiming m)

include h

theorem live_of_member {n : ℕ} (hn : n ∈ m.members) : n ∈ m.live :=
  h.counts.live_of_root (roots_pos.2 (.inl hn))

theorem live_of_held {t : Tid} {n : ℕ} (hn : n ∈ m.held t) : n ∈ m.live :=
  h.counts.live_of_root (roots_pos.2 (.inr ⟨t, hn⟩))

theorem live_of_local {t : Tid} {n : ℕ} (hn : n ∈ (m.locals t).nodes) : n ∈ m.live :=
  h.live_of_held (List.mem_append_left (m.dying t) hn)

theorem live_of_dying {t : Tid} {n : ℕ} (hn : n ∈ m.dying t) : n ∈ m.live :=
  h.live_of_held (List.mem_append_right (m.locals t).nodes hn)

theorem live_zero (hopen : m.closed = false) : 0 ∈ m.live :=
  h.live_of_member (by simp [Memory.members, hopen])

theorem live_tail (hopen : m.closed = false) : m.queue.tail ∈ m.live :=
  h.live_of_member (by simp [Memory.members, hopen])

/-- The members are there as long as some call is in progress. -/
theorem opened {t : Tid} (hpc : m.queue.pc t ≠ .idle) : m.closed = false := by
  by_contra hclosed
  exact hpc (h.closed (by simpa using hclosed) t)

theorem live_touched {t : Tid} {n : ℕ} (hn : (m.queue.pc t).touched = some n) : n ∈ m.live := by
  have hlocals := h.locals t
  cases hpc : m.queue.pc t with
  | loadHead k | headCas k a o =>
      obtain rfl : 0 = n := by simpa [hpc, Pc.touched] using hn
      exact h.live_zero (h.opened (t := t) (by simp [hpc]))
  | linkCas a b =>
      obtain rfl : b = n := by simpa [hpc, Pc.touched] using hn
      rw [hpc] at hlocals
      exact h.live_of_local (t := t) (by rw [hlocals]; simp [Locals.nodes])
  | loadNext k a | resetNext k a =>
      obtain rfl : a = n := by simpa [hpc, Pc.touched] using hn
      rw [hpc] at hlocals
      exact h.live_of_local (t := t) (by simp [Locals.nodes, hlocals.2.2])
  | _ => simp [hpc, Pc.touched] at hn

end Reclaiming

theorem memorySafe_of_reclaiming (h : Reclaiming m) : MemorySafe m where
  cells hopen := ⟨(mem_live.1 (h.live_tail hopen)).2, fun _ hn =>
    (mem_live.1 (h.counts.live_of_out (h.live_zero hopen) hn)).2⟩
  held _ _ hn := (mem_live.1 (h.live_of_held hn)).2
  touched _ _ hn := (mem_live.1 (h.live_touched hn)).2
  once := h.nodup
  counted _ n hn := (h.counts.alive n).1 (h.live_of_dying hn)

theorem reachable_iff (h : Reclaiming m) {n : ℕ} (hn : n < m.queue.allocated) :
    n ∉ m.freed ↔ m.Reachable n := by
  constructor
  · intro hfree
    obtain ⟨r, hr, hpath⟩ := h.counts.reached h.queue.ranked (mem_live.2 ⟨hn, hfree⟩)
    exact ⟨r, roots_pos.1 hr, hpath.lift id fun _ _ hab => hab.2⟩
  · rintro ⟨r, hr, hpath⟩
    have hlive : n ∈ m.live := by
      clear hn
      induction hpath with
      | refl => exact h.counts.live_of_root (roots_pos.2 hr)
      | tail _ hab ih => exact h.counts.live_of_out ih hab
    exact (mem_live.1 hlive).2

end

/-! ### What the steps do to the references -/

section

variable [Fintype Tid] [DecidableEq Tid] {m : Memory Tid α}

theorem held_update (m : Memory Tid α) (t : Tid) (l : Locals) (d : List ℕ) (n : ℕ) :
    (∑ u, ((Function.update m.locals t l u).nodes ++ Function.update m.dying t d u).count n) +
        (m.held t).count n =
      (∑ u, (m.held u).count n) + (l.nodes ++ d).count n := by
  have hheld : ∀ u, (Function.update m.locals t l u).nodes ++ Function.update m.dying t d u =
      Function.update m.held t (l.nodes ++ d) u := by
    intro u
    rcases eq_or_ne u t with rfl | hne
    · simp
    · simp [hne, Memory.held]
  simp only [hheld]
  exact sum_update_add (fun l => l.count n) m.held t (l.nodes ++ d)

/-- The step of a call moves references: what the tail, the locals and the
cell `a` hold after it, with what is left to be dropped, is what they held
before it with what it has taken. -/
theorem Reclaiming.executed_counts (h : Reclaiming m) {t : Tid} {q : State Tid α} {a : ℕ}
    {v : Option ℕ} (hdying : m.dying t = []) (hopen : m.closed = false)
    (hnext : q.next = Function.update m.queue.next a v) (hallocated : q.allocated =
      m.queue.allocated) (ha : a ∈ m.live)
    (hretained : ∀ n ∈ (effect m.queue (m.locals t) (m.queue.pc t)).retained, n ∈ m.live)
    (hmoved : ∀ n, [q.tail].count n +
        (effect m.queue (m.locals t) (m.queue.pc t)).locals.nodes.count n +
        (effect m.queue (m.locals t) (m.queue.pc t)).released.count n + v.toList.count n =
      [m.queue.tail].count n + (m.locals t).nodes.count n +
        (effect m.queue (m.locals t) (m.queue.pc t)).retained.count n +
        (m.queue.next a).toList.count n) :
    RefCounted (m.executed t q).live (m.executed t q).queue.next (m.executed t q).count
      (m.executed t q).roots := by
  have hlive : (m.executed t q).live = m.live := by
    simp only [Memory.live, Memory.executed, hallocated]
  have hretain : RefCounted m.live m.queue.next _ fun n => m.roots n +
      (effect m.queue (m.locals t) (m.queue.pc t)).retained.count n :=
    h.counts.retain hretained fun _ => rfl
  rw [hlive, show (m.executed t q).queue.next = Function.update m.queue.next a v from hnext]
  refine hretain.setOut ha fun n => ?_
  have hsum := held_update m t (effect m.queue (m.locals t) (m.queue.pc t)).locals
    (effect m.queue (m.locals t) (m.queue.pc t)).released n
  have hn := hmoved n
  have hheld : (m.held t).count n = (m.locals t).nodes.count n := by
    rw [Memory.held, hdying, List.append_nil]
  have hroots : (m.executed t q).roots n = [q.tail, 0].count n +
      ∑ u, ((Function.update m.locals t
          (effect m.queue (m.locals t) (m.queue.pc t)).locals u).nodes ++
        Function.update m.dying t
          (effect m.queue (m.locals t) (m.queue.pc t)).released u).count n := by
    simp [Memory.roots, Memory.members, Memory.held, Memory.executed, hopen]
  have hroots' : m.roots n = [m.queue.tail, 0].count n + ∑ u, (m.held u).count n := by
    simp [Memory.roots, Memory.members, hopen]
  rw [List.count_append] at hsum
  rw [hroots, hroots']
  simp only [List.count_cons, List.count_nil] at hn ⊢
  omega

/-- The same when no cell but `__tail` changes. -/
theorem Reclaiming.executed_counts_same (h : Reclaiming m) {t : Tid} {q : State Tid α}
    (hdying : m.dying t = []) (hopen : m.closed = false) (hnext : q.next = m.queue.next)
    (hallocated : q.allocated = m.queue.allocated)
    (hretained : ∀ n ∈ (effect m.queue (m.locals t) (m.queue.pc t)).retained, n ∈ m.live)
    (hmoved : ∀ n, [q.tail].count n +
        (effect m.queue (m.locals t) (m.queue.pc t)).locals.nodes.count n +
        (effect m.queue (m.locals t) (m.queue.pc t)).released.count n =
      [m.queue.tail].count n + (m.locals t).nodes.count n +
        (effect m.queue (m.locals t) (m.queue.pc t)).retained.count n) :
    RefCounted (m.executed t q).live (m.executed t q).queue.next (m.executed t q).count
      (m.executed t q).roots := by
  refine h.executed_counts (a := 0) (v := m.queue.next 0) hdying hopen ?_ hallocated
    (h.live_zero hopen) hretained fun n => ?_
  · rw [hnext, Function.update_eq_self]
  · have hn := hmoved n
    omega

omit [DecidableEq Tid] in
theorem Reclaiming.live_next (h : Reclaiming m) {a n : ℕ} (ha : a ∈ m.live)
    (hn : n ∈ (m.queue.next a).toList) : n ∈ m.live :=
  h.counts.live_of_out ha (by simpa using hn)

theorem Locals.count_nodes (l : Locals) (n : ℕ) : l.nodes.count n =
    l.headNextNext.toList.count n + l.headNext.toList.count n + l.node.toList.count n +
      l.tail.toList.count n + l.newNode.toList.count n := by
  simp only [Locals.nodes, List.count_append]

@[simp] theorem Locals.count_empty (n : ℕ) : Locals.empty.nodes.count n = 0 := rfl

theorem reclaiming_executed_counts (h : Reclaiming m) {t : Tid} {q : State Tid α}
    (hdying : m.dying t = []) (hs : step m.queue (.exec t) = some q) :
    RefCounted (m.executed t q).live (m.executed t q).queue.next (m.executed t q).count
      (m.executed t q).roots := by
  have hlocals := h.locals t
  have hbusy : m.queue.pc t ≠ .idle := fun hpc => by simp [step, hpc] at hs
  have hopen := h.opened hbusy
  have hzero := h.live_zero hopen
  have htail := h.live_tail hopen
  have hlocal : ∀ n ∈ (m.locals t).nodes, n ∈ m.live := fun n => h.live_of_local
  have htouched : ∀ n, (m.queue.pc t).touched = some n → n ∈ m.live := fun n => h.live_touched
  cases step_trans hs with
  | @loadTail t n hpc =>
      simp only [hpc, Locals.At] at hlocals
      refine h.executed_counts_same hdying hopen rfl rfl ?_ fun n => ?_
      · simpa [effect, hpc] using htail
      · simp [effect, hpc, hlocals, Locals.count_nodes, Locals.empty, State.setPc]
        omega
  | @link t n a hpc ha =>
      simp only [hpc, Locals.At] at hlocals
      have hn : n ∈ m.live := hlocal n (by simp [hlocals, Locals.nodes])
      refine h.executed_counts (a := a) (v := some n) hdying hopen rfl rfl
        (htouched a (by simp [hpc, Pc.touched])) ?_ fun k => ?_
      · simpa [effect, hpc, ha] using hn
      · simp [effect, hpc, ha, hlocals, Locals.count_nodes, Locals.empty, State.setPc, State.link]
  | @linkRetry t n a b hpc ha =>
      simp only [hpc, Locals.At] at hlocals
      have hlive := htouched a (by simp [hpc, Pc.touched])
      refine h.executed_counts_same hdying hopen rfl rfl ?_ fun k => ?_
      · simpa [effect, hpc, ha] using h.counts.live_of_out hlive ha
      · simp [effect, hpc, ha, hlocals, Locals.count_nodes, Locals.empty, State.setPc]
        omega
  | @storeTail t n hpc =>
      simp only [hpc, Locals.At] at hlocals
      have hn : n ∈ m.live := hlocal n (by simp [hlocals, Locals.nodes])
      refine h.executed_counts_same hdying hopen rfl rfl ?_ fun k => ?_
      · simpa [effect, hpc] using hn
      · simp only [effect, hpc, State.setPc, State.setTail]
        omega
  | @addSize t n hpc =>
      refine h.executed_counts_same hdying hopen rfl rfl ?_ fun k => ?_
      · simp [effect, hpc]
      · simp [effect, hpc, State.ret, State.addSize]
  | @loadHead t k n hpc hn =>
      simp only [hpc, Locals.At] at hlocals
      refine h.executed_counts_same hdying hopen rfl rfl ?_ fun i => ?_
      · simpa [effect, hpc, hn] using h.counts.live_of_out hzero hn
      · rw [hlocals]
        simp [effect, hpc, hn, Locals.count_nodes, Locals.empty, State.setPc]
        omega
  | @loadHeadEmpty t k hpc hn =>
      simp only [hpc, Locals.At] at hlocals
      refine h.executed_counts_same hdying hopen rfl rfl ?_ fun i => ?_
      · simp [effect, hpc, hn]
      · rw [hlocals]
        simp [effect, hpc, hn, Locals.count_nodes, Locals.empty, State.setPc]
  | @resetTail t k hpc =>
      refine h.executed_counts_same hdying hopen rfl rfl ?_ fun i => ?_
      · simpa [effect, hpc] using hzero
      · simp [effect, hpc, State.ret, State.setTail, List.count_cons]
        omega
  | @loadNext t k n hpc =>
      simp only [hpc, Locals.At] at hlocals
      have hlive := htouched n (by simp [hpc, Pc.touched])
      refine h.executed_counts_same hdying hopen rfl rfl ?_ fun i => ?_
      · simpa only [effect, hpc] using fun i => h.live_next hlive
      · simp only [effect, hpc, Locals.count_nodes, State.setPc]
        omega
  | @unlink t k n o hpc hn =>
      simp only [hpc, Locals.At] at hlocals
      refine h.executed_counts (a := 0) (v := o) hdying hopen rfl rfl hzero ?_ fun i => ?_
      · simp only [effect, hpc, hn, if_true]
        exact fun i hi => hlocal i (by simp [Locals.nodes, hlocals.2.2.2, hi])
      · simp [effect, hpc, hn, State.setPc, State.unlink]
        omega
  | @unlinkRetry t k n m' o hpc hm hne =>
      simp only [hpc, Locals.At] at hlocals
      have hstale : ¬ (some m' = some n) := fun e => hne (Option.some.inj e)
      refine h.executed_counts_same hdying hopen rfl rfl ?_ fun i => ?_
      · simpa [effect, hpc, hm, hne] using h.counts.live_of_out hzero hm
      · simp only [effect, hpc, hm, if_neg hstale, Locals.count_nodes, State.setPc]
        omega
  | @unlinkEmpty t k n o hpc hn =>
      refine h.executed_counts_same hdying hopen rfl rfl ?_ fun i => ?_
      · simp [effect, hpc, hn]
      · simp only [effect, hpc, hn, reduceCtorEq, if_false, Locals.count_nodes, State.setPc]
        omega
  | @subSize t k n hpc =>
      refine h.executed_counts_same hdying hopen rfl rfl ?_ fun i => ?_
      · simp [effect, hpc]
      · simp [effect, hpc, State.setPc, State.subSize]
  | @resetNext t n v hpc hv =>
      have hlive := htouched n (by simp [hpc, Pc.touched])
      refine h.executed_counts (a := n) (v := none) hdying hopen rfl rfl hlive ?_ fun i => ?_
      · simp [effect, hpc]
      · simp [effect, hpc, State.ret, State.setNext, Nat.add_comm]
        omega
  | @resetNextAgain t n hpc =>
      simp only [hpc, Locals.At] at hlocals
      have hlive := htouched n (by simp [hpc, Pc.touched])
      refine h.executed_counts (a := n) (v := none) hdying hopen rfl rfl hlive ?_ fun i => ?_
      · simp [effect, hpc]
      · simp [effect, hpc, State.setPc, State.setNext, Locals.count_nodes, Locals.empty,
          hlocals.1, hlocals.2.1]
        omega
  | @loadSize t hpc =>
      refine h.executed_counts_same hdying hopen rfl rfl ?_ fun i => ?_
      · simp [effect, hpc]
      · simp [effect, hpc, State.ret]

omit [Fintype Tid] in
/-- The locals after the step are those of the place it leads to. -/
theorem effect_at {s s' : State Tid α} {t : Tid} {l : Locals} (h : l.At (s.pc t))
    (hs : step s (.exec t) = some s') : (effect s l (s.pc t)).locals.At (s'.pc t) := by
  cases step_trans hs with
  | loadTail hpc =>
      simp only [hpc, Locals.At] at h
      simp [effect, hpc, State.setPc, Locals.At, h]
  | link hpc ha =>
      simp only [hpc, Locals.At] at h
      simp [effect, hpc, ha, State.setPc, Locals.At, h]
  | linkRetry hpc ha =>
      simp only [hpc, Locals.At] at h
      simp [effect, hpc, ha, State.setPc, Locals.At, h]
  | storeTail hpc | subSize hpc =>
      simp only [hpc, Locals.At] at h
      simpa [effect, hpc, State.setPc, Locals.At] using h
  | addSize hpc | resetTail hpc | resetNext hpc => simp [effect, hpc, State.ret, Locals.At]
  | loadHead hpc hn =>
      simp only [hpc, Locals.At] at h
      rw [h]
      simp [effect, hpc, hn, State.setPc, Locals.At, Locals.empty]
  | loadHeadEmpty hpc hn | unlinkEmpty hpc hn => simp [State.setPc, Locals.At]
  | loadNext hpc =>
      simp only [hpc, Locals.At] at h
      simpa [effect, hpc, State.setPc, Locals.At] using h
  | unlink hpc hn =>
      simp only [hpc, Locals.At] at h
      simp [effect, hpc, hn, State.setPc, Locals.At, h]
  | unlinkRetry hpc hm hne =>
      simp only [hpc, Locals.At] at h
      simp [effect, hpc, hm, hne, State.setPc, Locals.At, h]
  | resetNextAgain hpc => simp [effect, hpc, State.setPc, Locals.At]
  | loadSize hpc =>
      simp only [hpc, Locals.At] at h
      simpa [effect, hpc, State.ret, Locals.At] using h

omit [Fintype Tid] in
/-- A step of one thread leaves the others where they are. -/
theorem step_pc_of_ne {s s' : State Tid α} {t u : Tid} (hs : step s (.exec t) = some s')
    (hu : u ≠ t) : s'.pc u = s.pc u := by
  cases step_trans hs <;> exact Function.update_of_ne hu _ _

/-! ### The steps -/

theorem Reclaiming.executed (h : Reclaiming m) {t : Tid} {q : State Tid α}
    (hdying : m.dying t = []) (hs : step m.queue (.exec t) = some q) :
    Reclaiming (m.executed t q) where
  queue := progressing_step m.queue (.exec t) q h.queue hs
  counts := reclaiming_executed_counts h hdying hs
  nodup := h.nodup
  freed n hn := (h.freed n hn).trans_le (allocated_mono m.queue (.exec t) q hs)
  locals u := by
    simp only [Memory.executed]
    rcases eq_or_ne u t with rfl | hne
    · rw [Function.update_self]
      exact effect_at (h.locals u) hs
    · rw [Function.update_of_ne hne, step_pc_of_ne hs hne]
      exact h.locals u
  closed hclosed := by
    have hpc := h.closed hclosed t
    simp [step, hpc] at hs

theorem Reclaiming.push (h : Reclaiming m) {t : Tid} {v : α} (hopen : m.closed = false)
    (hidle : m.queue.pc t = .idle) :
    Reclaiming (m.called t (.push v) (m.queue.begin t (.push v))) := by
  have hs : step m.queue (.call t (.push v)) = some (m.queue.begin t (.push v)) := by
    simp [step, hidle]
  have hnew : m.queue.allocated ∉ m.live := fun hmem => absurd (mem_live.1 hmem).1 (by simp)
  have hlive : (m.called t (.push v) (m.queue.begin t (.push v))).live =
      insert m.queue.allocated m.live := by
    ext n
    have hfreed := h.freed n
    simp only [mem_live, Finset.mem_insert, Memory.called, State.begin, State.makeNode,
      State.setPc]
    refine ⟨fun hn => ?_, ?_⟩
    · rcases Nat.lt_succ_iff_lt_or_eq.1 hn.1 with hlt | heq
      · exact .inr ⟨hlt, hn.2⟩
      · exact .inl heq
    · rintro (rfl | hn)
      · exact ⟨Nat.lt_succ_self _, fun hmem => absurd (hfreed hmem) (by simp)⟩
      · exact ⟨Nat.lt_succ_of_lt hn.1, hn.2⟩
  have hout : m.queue.next m.queue.allocated = none := by
    refine h.queue.inv.shape.next_fresh _ ?_
    rintro (hzero | hlinked)
    · exact absurd h.queue.inv.shape.allocated (by simp [hzero])
    · exact absurd (h.queue.inv.shape.bound _ hlinked).2 (by simp)
  have hempty : m.locals t = .empty := by simpa [hidle, Locals.At] using h.locals t
  refine ⟨progressing_step m.queue _ _ h.queue hs, ?_, h.nodup, fun n hn => ?_, fun u => ?_,
    fun hclosed => ?_⟩
  · rw [hlive]
    refine h.counts.alloc hnew hout fun n => ?_
    have hsum := held_update m t { Locals.empty with newNode := some m.queue.allocated }
      (m.dying t) n
    simp only [Function.update_eq_self, Memory.held, hempty] at hsum
    simp only [Memory.roots, Memory.members, Memory.held, Memory.called, State.begin,
      State.makeNode, State.setPc, hopen]
    simp only [List.count_append, Locals.count_nodes, Locals.empty, Option.toList_none,
      Option.toList_some, List.count_nil] at hsum ⊢
    omega
  · exact Nat.lt_succ_of_lt (h.freed n hn)
  · simp only [Memory.called, State.begin, State.setPc]
    rcases eq_or_ne u t with rfl | hne
    · simp [Locals.At]
    · rw [Function.update_of_ne hne, Function.update_of_ne hne]
      exact h.locals u
  · exact absurd (hopen.symm.trans hclosed) Bool.false_ne_true

theorem Reclaiming.called (h : Reclaiming m) {t : Tid} {c : Call α} {q : State Tid α}
    (hopen : m.closed = false) (hs : step m.queue (.call t c) = some q) :
    Reclaiming (m.called t c q) := by
  have hqueue := progressing_step m.queue (.call t c) q h.queue hs
  have hidle : m.queue.pc t = .idle := by
    by_contra hne
    simp [step, hne] at hs
  obtain rfl : m.queue.begin t c = q := by simpa [step, hidle] using hs
  have hempty : m.locals t = .empty := by simpa [hidle, Locals.At] using h.locals t
  cases c with
  | push v => exact h.push hopen hidle
  | pop | clear | size =>
      refine ⟨hqueue, h.counts, h.nodup, h.freed, fun u => ?_, fun hclosed => ?_⟩
      · simp only [Memory.called, State.begin, State.setPc]
        rcases eq_or_ne u t with rfl | hne
        · simp [Locals.At, hempty, Locals.empty]
        · rw [Function.update_of_ne hne]
          exact h.locals u
      · exact absurd (hopen.symm.trans hclosed) Bool.false_ne_true

omit [Fintype Tid] in
theorem dropped_last {t : Tid} {n : ℕ} {rest : List ℕ} (hone : m.count n = 1) :
    m.dropped t n rest = { m with
      count := Function.update m.count n 0
      freed := m.freed ++ [n]
      dying := Function.update m.dying t ((m.queue.next n).toList ++ rest) } := if_pos hone

omit [Fintype Tid] in
theorem dropped_live {t : Tid} {n : ℕ} {rest : List ℕ} (hone : m.count n = 1) :
    (m.dropped t n rest).live = m.live.erase n := by
  ext k
  rw [dropped_last hone]
  simp only [mem_live, Finset.mem_erase, List.mem_append, List.mem_singleton, not_or]
  tauto

omit [Fintype Tid] in
theorem dropped_more {t : Tid} {n : ℕ} {rest : List ℕ} (hone : m.count n ≠ 1) :
    m.dropped t n rest = { m with
      count := Function.update m.count n (m.count n - 1)
      dying := Function.update m.dying t rest } := if_neg hone

theorem Reclaiming.dropped (h : Reclaiming m) {t : Tid} {n : ℕ} {rest : List ℕ}
    (hdying : m.dying t = n :: rest) : Reclaiming (m.dropped t n rest) := by
  have hlive : n ∈ m.live := h.live_of_dying (t := t) (by simp [hdying])
  have hpos := (h.counts.alive n).1 hlive
  obtain ⟨hlt, hnew⟩ := mem_live.1 hlive
  -- the references of `t` with the drops `d` left
  have hheld : ∀ d k, (∑ u, ((m.locals u).nodes ++ Function.update m.dying t d u).count k) +
      (n :: rest).count k = (∑ u, (m.held u).count k) + d.count k := by
    intro d k
    have hsum := held_update m t (m.locals t) d k
    simp only [Function.update_eq_self, List.count_append, Memory.held, hdying] at hsum ⊢
    omega
  by_cases hone : m.count n = 1
  · have hcounts : RefCounted (m.dropped t n rest).live m.queue.next (m.dropped t n rest).count
        (m.dropped t n rest).roots := by
      rw [dropped_live hone, dropped_last hone]
      refine h.counts.free hone fun k => ?_
      have hk := hheld ((m.queue.next n).toList ++ rest) k
      simp only [Memory.roots, Memory.members, Memory.held, List.count_append,
        List.count_cons, List.count_nil] at hk ⊢
      omega
    rw [dropped_last hone] at hcounts ⊢
    refine ⟨h.queue, hcounts, ?_, fun k hk => ?_, h.locals, h.closed⟩
    · refine List.nodup_append.2 ⟨h.nodup, List.nodup_singleton n, fun a ha b hb => ?_⟩
      rw [List.mem_singleton] at hb
      exact fun e => hnew (hb ▸ e ▸ ha)
    · rcases List.mem_append.1 hk with hk | hk
      · exact h.freed k hk
      · exact List.mem_singleton.1 hk ▸ hlt
  · rw [dropped_more hone]
    refine ⟨h.queue, h.counts.drop (by omega) fun k => ?_, h.nodup, h.freed, h.locals, h.closed⟩
    have hk := hheld rest k
    simp only [Memory.roots, Memory.members, Memory.held, List.count_append,
      List.count_cons, List.count_nil] at hk ⊢
    omega

theorem Reclaiming.closing (h : Reclaiming m) (t : Tid) (hopen : m.closed = false)
    (hquiet : m.Quiet) : Reclaiming (m.closing t) := by
  refine ⟨h.queue, ⟨fun n => ?_, h.counts.alive⟩, h.nodup, h.freed, h.locals,
    fun _ u => (hquiet u).1⟩
  have hsum := held_update m t (m.locals t) [m.queue.tail, 0] n
  have hcount := h.counts.counted n
  have hopened : m.members = [m.queue.tail, 0] := by simp [Memory.members, hopen]
  have hclosed : (m.closing t).members = [] := rfl
  simp only [Function.update_eq_self, Memory.held, List.count_append, (hquiet t).2,
    List.count_nil] at hsum
  change m.count n = (m.closing t).roots n + inside m.live m.queue.next n
  simp only [Memory.roots, hopened, hclosed, Memory.held, List.count_append, List.count_nil]
    at hcount ⊢
  simp only [Memory.closing]
  omega

/-! ### Whole runs -/

theorem reclaiming_step (m : Memory Tid α) (a : MemoryLabel Tid α) (m' : Memory Tid α)
    (h : Reclaiming m) (hs : stepMemory m a = some m') : Reclaiming m' := by
  cases a with
  | queue a =>
      cases a with
      | call t c =>
          simp only [stepMemory, Option.ite_none_left_eq_some, not_or, Option.map_eq_some_iff] at hs
          obtain ⟨⟨hopen, -⟩, q, hq, rfl⟩ := hs
          exact h.called (by simpa using hopen) hq
      | exec t =>
          simp only [stepMemory, Option.ite_none_left_eq_some, not_not,
            Option.map_eq_some_iff] at hs
          obtain ⟨hdying, q, hq, rfl⟩ := hs
          exact h.executed hdying hq
  | drop t =>
      cases hdying : m.dying t with
      | nil => simp [stepMemory, hdying] at hs
      | cons n rest =>
          simp only [stepMemory, hdying, Option.some.injEq] at hs
          exact hs ▸ h.dropped hdying
  | close t =>
      simp only [stepMemory, Option.ite_none_right_eq_some, Option.some.injEq] at hs
      obtain ⟨⟨hopen, hquiet⟩, rfl⟩ := hs
      exact h.closing t hopen hquiet

omit [DecidableEq Tid] in
theorem reclaiming_init : Reclaiming (initMemory Tid α) := by
  have hroots : ∀ n, (initMemory Tid α).roots n = [0, 0].count n := by
    intro n
    simp [Memory.roots, Memory.members, Memory.held, initMemory, init, Locals.nodes, Locals.empty]
  refine ⟨progressing_init, ⟨fun n => ?_, fun n => ?_⟩, List.nodup_nil,
    fun n hn => absurd hn List.not_mem_nil, fun _ => rfl, fun _ _ => rfl⟩
  · have hinside : inside (initMemory Tid α).live (initMemory Tid α).queue.next n = 0 := by
      simp [inside, initMemory, init]
    rw [hroots, hinside]
    rcases eq_or_ne n 0 with rfl | hne
    · simp [initMemory]
    · simp [initMemory, hne, hne.symm]
  · rw [mem_live]
    rcases eq_or_ne n 0 with rfl | hne
    · simp [initMemory, init]
    · simp [initMemory, init, hne]

/-- No thread ever touches, or refers to, memory that has been given back,
no node is deleted twice and no count goes below zero: whatever the calls
and their interleaving, in every state of every run, the destruction of the
queue included. -/
theorem queue_memory_safe (as : List (MemoryLabel Tid α)) :
    Visits stepMemory MemorySafe (initMemory Tid α) as :=
  visits_of_invariant reclaiming_step (fun _ => memorySafe_of_reclaiming) reclaiming_init as

/-- A node is deleted as soon as it can no longer be reached: in every
reachable state the nodes that have been deleted are exactly those that
have been made and that no chain of `next` pointers leads to from a member
of the queue, from a local of a call or from a reference that a thread is
about to drop. -/
theorem freed_iff_unreachable {as : List (MemoryLabel Tid α)} {m : Memory Tid α}
    (hrun : run stepMemory (initMemory Tid α) as = some m) (n : ℕ) :
    n ∈ m.freed ↔ n < m.queue.allocated ∧ ¬ m.Reachable n := by
  have h : Reclaiming m := run_invariant reclaiming_step reclaiming_init hrun
  constructor
  · exact fun hn => ⟨h.freed n hn, fun hreach =>
      (reachable_iff h (h.freed n hn)).2 hreach hn⟩
  · rintro ⟨hlt, hreach⟩
    by_contra hn
    exact hreach ((reachable_iff h hlt).1 hn)

/-! ### The destruction of the queue -/

/-- The members have been destroyed and every reference has been dropped. -/
def Memory.Destroyed (m : Memory Tid α) : Prop := m.closed = true ∧ ∀ t, m.dying t = []

/-- The step does not begin a call. -/
def MemoryLabel.finishes : MemoryLabel Tid α → Prop
  | .queue a => a.isExec
  | .drop _ | .close _ => True

/-- What is left to do until the queue is destroyed, when no call begins and
there are `N` nodes. -/
def Memory.remaining (N : ℕ) (m : Memory Tid α) : ℕ :=
  7 * potential N m.queue + ∑ t, (m.dying t).length + 2 * m.live.card + if m.closed then 0 else 3

omit [DecidableEq Tid] in
/-- Once the members have been destroyed, all nodes have been deleted. -/
theorem Reclaiming.freed_perm (h : Reclaiming m) (hm : m.Destroyed) :
    m.freed.Perm (List.range m.queue.allocated) := by
  obtain ⟨hclosed, hdying⟩ := hm
  have hroots : ∀ n, m.roots n = 0 := by
    intro n
    have hempty : ∀ t, m.locals t = .empty := fun t => by
      simpa [h.closed hclosed t, Locals.At] using h.locals t
    simp [Memory.roots, Memory.members, Memory.held, hclosed, hdying, hempty]
  have hlive := h.counts.eq_empty h.queue.ranked hroots
  refine (List.perm_ext_iff_of_nodup h.nodup List.nodup_range).2 fun n => ?_
  rw [List.mem_range]
  refine ⟨h.freed n, fun hlt => ?_⟩
  by_contra hn
  have hmem := mem_live.2 ⟨hlt, hn⟩
  rw [hlive] at hmem
  exact Finset.notMem_empty n hmem

omit [Fintype Tid] [DecidableEq Tid] in
theorem effect_released_le (s : State Tid α) (l : Locals) (p : Pc) :
    (effect s l p).released.length ≤ 6 := by
  have hlen : ∀ o : Option ℕ, o.toList.length ≤ 1 := fun o => by cases o <;> simp
  have hnodes : l.nodes.length ≤ 5 := by
    have h₁ := hlen l.headNextNext
    have h₂ := hlen l.headNext
    have h₃ := hlen l.node
    have h₄ := hlen l.tail
    have h₅ := hlen l.newNode
    simp only [Locals.nodes, List.length_append]
    omega
  cases p with
  | linkCas n a =>
      have htail := hlen l.tail
      cases ha : s.next a <;> simp only [effect, ha, List.length_nil] <;> omega
  | headCas k n o =>
      have hhead := hlen l.headNext
      simp only [effect]
      split_ifs <;> simp only [List.length_singleton] <;> omega
  | resetNext k n =>
      have hnext := hlen (s.next n)
      have h₁ := hlen l.headNextNext
      have h₃ := hlen l.node
      cases k <;> simp only [effect, List.length_append] <;> omega
  | loadNext k n =>
      have h₁ := hlen l.headNextNext
      simp only [effect]
      omega
  | _ =>
      simp only [effect, List.length_nil, List.length_cons]
      omega

theorem remaining_executed (h : Reclaiming m) {t : Tid} {q : State Tid α}
    (hdying : m.dying t = []) (hs : step m.queue (.exec t) = some q) :
    (m.executed t q).remaining m.queue.allocated < m.remaining m.queue.allocated := by
  have hallocated : q.allocated = m.queue.allocated := allocated_exec (a := .exec t) trivial hs
  have hpay := potential_step h.queue hs hallocated.le
  have hlive : (m.executed t q).live = m.live := by
    simp only [Memory.live, Memory.executed, hallocated]
  have hsum := sum_update_add List.length m.dying t
    (effect m.queue (m.locals t) (m.queue.pc t)).released
  have hlen := effect_released_le m.queue (m.locals t) (m.queue.pc t)
  have hleft : (m.executed t q).remaining m.queue.allocated = 7 * potential m.queue.allocated q +
      ∑ u, (Function.update m.dying t
        (effect m.queue (m.locals t) (m.queue.pc t)).released u).length +
      2 * m.live.card + if m.closed then 0 else 3 := by
    rw [Memory.remaining, hlive]
    rfl
  simp only [hdying, List.length_nil, Label.cost] at hsum hpay
  rw [hleft, Memory.remaining]
  omega

theorem remaining_dropped (h : Reclaiming m) {t : Tid} {n : ℕ} {rest : List ℕ}
    (hdying : m.dying t = n :: rest) (N : ℕ) :
    (m.dropped t n rest).remaining N < m.remaining N := by
  have hsum := fun d => sum_update_add List.length m.dying t d
  simp only [hdying, List.length_cons] at hsum
  by_cases hone : m.count n = 1
  · have hlive : n ∈ m.live := h.live_of_dying (t := t) (by simp [hdying])
    have hcard := Finset.card_erase_add_one hlive
    have hd := hsum ((m.queue.next n).toList ++ rest)
    have hnext : (m.queue.next n).toList.length ≤ 1 := by cases m.queue.next n <;> simp
    rw [List.length_append] at hd
    rw [Memory.remaining, Memory.remaining, dropped_live hone, dropped_last hone]
    simp only
    omega
  · have hd := hsum rest
    rw [Memory.remaining, Memory.remaining, dropped_more hone]
    simp only [Memory.live]
    omega

theorem remaining_step (h : Reclaiming m) {a : MemoryLabel Tid α} {m' : Memory Tid α}
    (ha : a.finishes) (hs : stepMemory m a = some m') :
    m'.queue.allocated = m.queue.allocated ∧
      m'.remaining m.queue.allocated < m.remaining m.queue.allocated := by
  cases a with
  | queue a =>
      cases a with
      | call t c => exact ha.elim
      | exec t =>
          simp only [stepMemory, Option.ite_none_left_eq_some, not_not,
            Option.map_eq_some_iff] at hs
          obtain ⟨hdying, q, hq, rfl⟩ := hs
          exact ⟨allocated_exec (a := .exec t) trivial hq, remaining_executed h hdying hq⟩
  | drop t =>
      cases hdying : m.dying t with
      | nil => simp [stepMemory, hdying] at hs
      | cons n rest =>
          simp only [stepMemory, hdying, Option.some.injEq] at hs
          subst hs
          refine ⟨?_, remaining_dropped h hdying _⟩
          unfold Memory.dropped
          split_ifs <;> rfl
  | close t =>
      simp only [stepMemory, Option.ite_none_right_eq_some, Option.some.injEq] at hs
      obtain ⟨⟨hopen, hquiet⟩, rfl⟩ := hs
      refine ⟨rfl, ?_⟩
      have hsum := sum_update_add List.length m.dying t [m.queue.tail, 0]
      have hleft : (m.closing t).remaining m.queue.allocated =
          7 * potential m.queue.allocated m.queue +
            ∑ u, (Function.update m.dying t [m.queue.tail, 0] u).length + 2 * m.live.card := rfl
      simp only [(hquiet t).2, List.length_nil, List.length_cons] at hsum
      rw [hleft, Memory.remaining, if_neg (by simp [hopen])]
      omega

/-- Until the queue is destroyed, some call or drop can go on, or the
destruction can begin. -/
theorem finishing_possible [Nonempty Tid] (h : Reclaiming m) (hm : ¬ m.Destroyed) :
    ∃ a m', MemoryLabel.finishes a ∧ stepMemory m a = some m' := by
  by_cases hdying : ∀ t, m.dying t = []
  · by_cases hidle : ∀ t, m.queue.pc t = .idle
    · have hopen : m.closed = false := by
        by_contra hclosed
        exact hm ⟨by simpa using hclosed, hdying⟩
      obtain ⟨t⟩ := ‹Nonempty Tid›
      refine ⟨.close t, m.closing t, trivial, if_pos ⟨hopen, fun u => ⟨hidle u, hdying u⟩⟩⟩
    · obtain ⟨t, ht⟩ := not_forall.1 hidle
      obtain ⟨q, hq⟩ := exec_possible h.queue ht
      exact ⟨.queue (.exec t), m.executed t q, trivial, by simp [stepMemory, hdying, hq]⟩
  · obtain ⟨t, ht⟩ := not_forall.1 hdying
    obtain ⟨n, rest, hn⟩ := List.exists_cons_of_ne_nil ht
    exact ⟨.drop t, m.dropped t n rest, trivial, by simp [stepMemory, hn]⟩

/-- No node is leaked, and none is deleted twice: once the queue has been
destroyed, the nodes that have been deleted are all that have ever been
made, each of them once. And from every reachable state the pending calls
can be finished and the queue destroyed so. -/
theorem queue_reclaims_all [Nonempty Tid] {as : List (MemoryLabel Tid α)} {m : Memory Tid α}
    (hrun : run stepMemory (initMemory Tid α) as = some m) :
    (m.Destroyed → m.freed.Perm (List.range m.queue.allocated)) ∧
      ∃ bs m', (∀ b ∈ bs, MemoryLabel.finishes b) ∧ run stepMemory m bs = some m' ∧
        m'.Destroyed ∧ m'.freed.Perm (List.range m.queue.allocated) := by
  have h : Reclaiming m := run_invariant reclaiming_step reclaiming_init hrun
  have hgo : ∀ u : Memory Tid α, Reclaiming u ∧ u.queue.allocated = m.queue.allocated →
      ¬ u.Destroyed → ∃ b v, stepMemory u b = some v ∧ b.finishes ∧
        (Reclaiming v ∧ v.queue.allocated = m.queue.allocated) ∧
          v.remaining m.queue.allocated < u.remaining m.queue.allocated := by
    intro u hu hdone
    obtain ⟨b, v, hb, hv⟩ := finishing_possible hu.1 hdone
    obtain ⟨hallocated, hlt⟩ := remaining_step hu.1 hb hv
    rw [hu.2] at hallocated hlt
    exact ⟨b, v, hv, hb, ⟨reclaiming_step u b v hu.1 hv, hallocated⟩, hlt⟩
  obtain ⟨bs, m', hrest, hbs, ⟨h', hallocated⟩, hm'⟩ := exists_run_to hgo ⟨h, rfl⟩
  refine ⟨h.freed_perm, bs, m', labels_of_along hrest hbs, hrest, hm', ?_⟩
  rw [← hallocated]
  exact h'.freed_perm hm'

end

/-- A push, a pop, and a pop of the empty queue, which resets the tail. -/
def pushPopPop (t : Tid) : List (MemoryLabel Tid ℕ) :=
  .queue (.call t (.push 5)) :: List.replicate 3 (.queue (.exec t)) ++ [.drop t] ++
    [.queue (.exec t), .drop t, .drop t] ++
    .queue (.call t .pop) :: List.replicate 3 (.queue (.exec t)) ++ [.drop t] ++
    List.replicate 2 (.queue (.exec t)) ++ [.drop t] ++
    .queue (.call t .pop) :: List.replicate 2 (.queue (.exec t)) ++ [.drop t]

theorem freed_iff_unreachable_pushPopPop :
    ∃ m, run stepMemory (initMemory (Fin 2) ℕ) (pushPopPop 0) = some m ∧ m.freed = [1] ∧
      ¬ m.Reachable 1 := by
  obtain ⟨m, hrun, hfreed⟩ : ∃ m, run stepMemory (initMemory (Fin 2) ℕ) (pushPopPop 0) = some m ∧
      m.freed = [1] := ⟨_, rfl, rfl⟩
  exact ⟨m, hrun, hfreed, ((freed_iff_unreachable hrun 1).1 (by simp [hfreed])).2⟩

theorem queue_reclaims_all_pushPopPop :
    ∃ m, run stepMemory (initMemory (Fin 2) ℕ) (pushPopPop 0 ++ [.close 0, .drop 0, .drop 0]) =
      some m ∧ m.freed = [1, 0] ∧ m.freed.Perm (List.range m.queue.allocated) := by
  obtain ⟨m, hrun, hfreed, hclosed, hdying⟩ : ∃ m, run stepMemory (initMemory (Fin 2) ℕ)
      (pushPopPop 0 ++ [.close 0, .drop 0, .drop 0]) = some m ∧ m.freed = [1, 0] ∧
        m.closed = true ∧ ∀ t, m.dying t = [] := by
    refine ⟨_, rfl, rfl, rfl, ?_⟩
    decide
  exact ⟨m, hrun, hfreed, (queue_reclaims_all hrun).1 ⟨hclosed, hdying⟩⟩

end JowiAsio.LockFreeQueue

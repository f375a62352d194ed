import Mathlib.Data.List.Sublists
import JowiAsio.Lib.Chain
import JowiAsio.LockFreeQueue.Transitions

/-!
The shape of the queue in every reachable state.

The nodes reachable from `__head` form a chain that ends, and the removed
nodes followed by this chain are a subsequence of the nodes in the order
in which they were linked (`Shape`). What a thread knows about the nodes
in its locals survives the steps of the others (`Local`). In particular,
when a pop's compare-exchange on `__head.next` succeeds, the successor it
installs is the popped node's next, or it is null; it may be null although
another node has been linked behind the popped node since.
-/

namespace JowiAsio.LockFreeQueue

open Lib

variable {Tid α : Type}

/-- `n` is `__head` or has been linked. -/
def Known (s : State Tid α) (n : ℕ) : Prop := n = 0 ∨ n ∈ s.linked

/-- `n` is the node of a `push` that has not linked it yet. -/
def Fresh (s : State Tid α) (n : ℕ) : Prop := n ∉ s.linked ∧ 0 < n ∧ n < s.allocated

structure Shape (s : State Tid α) : Prop where
  chain : ∃ l, Chain s.next (s.next 0) l ∧ (s.removed ++ l).Sublist s.linked
  nodup : s.linked.Nodup
  bound : ∀ n ∈ s.linked, 0 < n ∧ n < s.allocated
  allocated : 0 < s.allocated
  next_linked : ∀ a b, s.next a = some b → b ∈ s.linked
  next_fresh : ∀ a, ¬ Known s a → s.next a = none
  tail : Known s s.tail

/-- What a thread knows about its locals. -/
def Local (s : State Tid α) : Pc → Prop
  | .idle | .loadHead _ | .resetTail _ | .loadSize => True
  | .loadTail n => Fresh s n
  | .linkCas n a => Fresh s n ∧ Known s a
  | .storeTail n | .addSize n => n ∈ s.linked
  | .loadNext _ n => s.next 0 = some n ∨ n ∈ s.removed
  | .headCas _ n o =>
      (s.next 0 = some n ∨ n ∈ s.removed) ∧ (∀ m, o = some m → m ∈ s.linked) ∧
        (s.next 0 = some n → o = none ∨ s.next n = o)
  | .subSize _ n | .resetNext _ n => n ∈ s.removed

/-- The node of a `push` that has not linked it yet. -/
def Pc.fresh : Pc → Option ℕ
  | .loadTail n | .linkCas n _ => some n
  | _ => none

structure Inv (s : State Tid α) : Prop where
  shape : Shape s
  locals : ∀ t, Local s (s.pc t)
  distinct : ∀ t u n, (s.pc t).fresh = some n → (s.pc u).fresh = some n → t = u

theorem inv_init : Inv (init Tid α) where
  shape :=
    { chain := ⟨[], rfl, List.Sublist.refl _⟩
      nodup := List.nodup_nil
      bound := fun _ hn => absurd hn List.not_mem_nil
      allocated := Nat.one_pos
      next_linked := fun _ _ h => absurd h (by simp [init])
      next_fresh := fun _ _ => rfl
      tail := .inl rfl }
  locals _ := trivial
  distinct _ _ _ h := absurd h (by simp [init, Pc.fresh])

theorem Fresh.not_known {s : State Tid α} {n : ℕ} (h : Fresh s n) : ¬ Known s n := by
  rintro (rfl | hl)
  · exact absurd h.2.1 (by decide)
  · exact h.1 hl

/-! ### Consequences of the shape -/

namespace Shape

variable {s : State Tid α} (h : Shape s)

include h

theorem removed_linked {n : ℕ} (hn : n ∈ s.removed) : n ∈ s.linked := by
  obtain ⟨l, -, hsub⟩ := h.chain
  exact hsub.subset (List.mem_append_left l hn)

/-- A removed node is not reachable from `__head`. -/
theorem not_removed {l : List ℕ} (hl : Chain s.next (s.next 0) l) {n : ℕ} (hn : n ∈ l) :
    n ∉ s.removed := by
  obtain ⟨l', hl', hsub⟩ := h.chain
  obtain rfl := hl.unique hl'
  exact fun hr => List.disjoint_of_nodup_append (hsub.nodup h.nodup) hr hn

theorem head_not_removed {n : ℕ} (hn : s.next 0 = some n) : n ∉ s.removed := by
  obtain ⟨l, hl, -⟩ := h.chain
  have hl' := hl
  rw [hn] at hl'
  obtain ⟨l', rfl, -⟩ := hl'.eq_cons
  exact h.not_removed hl List.mem_cons_self

theorem ne_zero {n : ℕ} (hn : n ∈ s.linked) : n ≠ 0 := Nat.pos_iff_ne_zero.1 (h.bound n hn).1

theorem chain_linked {l : List ℕ} (hl : Chain s.next (s.next 0) l) {n : ℕ} (hn : n ∈ l) :
    n ∈ s.linked := by
  obtain ⟨l', hl', hsub⟩ := h.chain
  obtain rfl := hl.unique hl'
  exact hsub.subset (List.mem_append_right _ hn)

end Shape

/-! ### What the operations on the nodes preserve -/

section

variable {s : State Tid α}

theorem Shape.makeNode (h : Shape s) (v : α) : Shape (s.makeNode v) where
  chain := h.chain
  nodup := h.nodup
  bound n hn := ⟨(h.bound n hn).1, Nat.lt_succ_of_lt (h.bound n hn).2⟩
  allocated := Nat.succ_pos _
  next_linked := h.next_linked
  next_fresh := h.next_fresh
  tail := h.tail

theorem Local.makeNode {p : Pc} (h : Local s p) (v : α) : Local (s.makeNode v) p := by
  cases p with
  | loadTail n => exact ⟨h.1, h.2.1, Nat.lt_succ_of_lt h.2.2⟩
  | linkCas n a => exact ⟨⟨h.1.1, h.1.2.1, Nat.lt_succ_of_lt h.1.2.2⟩, h.2⟩
  | _ => exact h

theorem Shape.setTail (h : Shape s) {a : ℕ} (ha : Known s a) : Shape (s.setTail a) :=
  { h with tail := ha }

theorem Known.link {a b n : ℕ} (h : Known s b) : Known (s.link a n) b :=
  h.imp_right (List.mem_append_left [n])

theorem Shape.link (h : Shape s) {a n : ℕ} (ha : Known s a) (hend : s.next a = none)
    (hn : Fresh s n) : Shape (s.link a n) where
  chain := by
    obtain ⟨l, hl, hsub⟩ := h.chain
    have hnl : n ∉ l := fun hmem => hn.1 (h.chain_linked hl hmem)
    have hnone : s.next n = none := h.next_fresh n hn.not_known
    rcases eq_or_ne a 0 with rfl | ha0
    · -- the queue was empty
      rw [hend] at hl
      obtain rfl := hl.eq_nil
      refine ⟨[n], ?_, ?_⟩
      · simp [State.link, Function.update_of_ne hn.2.1.ne', hnone]
      · rw [List.append_nil] at hsub
        exact hsub.append (List.Sublist.refl [n])
    · have hhead : (s.link a n).next 0 = s.next 0 := Function.update_of_ne ha0.symm _ _
      rw [hhead]
      by_cases hal : a ∈ l
      -- `a` is the last node of the queue
      · refine ⟨l ++ [n], hl.link hal hend hnl hnone, ?_⟩
        rw [← List.append_assoc]
        exact hsub.append (List.Sublist.refl [n])
      -- `a` has been removed, or lost: the queue does not change
      · exact ⟨l, hl.update hal _, hsub.trans (List.sublist_append_left _ _)⟩
  nodup := List.nodup_append.2 ⟨h.nodup, List.nodup_singleton n, fun m hm m' hm' e => by
    rw [List.mem_singleton.1 hm'] at e
    exact hn.1 (e ▸ hm)⟩
  bound m hm := by
    rcases List.mem_append.1 hm with hm | hm
    · exact h.bound m hm
    · rw [List.mem_singleton.1 hm]
      exact hn.2
  allocated := h.allocated
  next_linked b c hbc := by
    rcases eq_or_ne b a with rfl | hne
    · have hbc' : some n = some c := by simpa [State.link] using hbc
      rw [← Option.some.inj hbc']
      exact List.mem_append_right _ (List.mem_singleton_self n)
    · have hbc' : s.next b = some c := by simpa [State.link, hne] using hbc
      exact List.mem_append_left _ (h.next_linked b c hbc')
  next_fresh b hb := by
    have hb' : ¬ Known s b := fun hk => hb hk.link
    have hne : b ≠ a := fun e => hb' (e ▸ ha)
    simpa [State.link, hne] using h.next_fresh b hb'
  tail := h.tail.link

/-- Linking leaves what other threads know about their locals true. -/
theorem Local.link {a n : ℕ} (hend : s.next a = none) (hs' : Shape (s.link a n)) {p : Pc}
    (h : Local s p) (hp : p.fresh ≠ some n) :
    Local (s.link a n) p := by
  have hfresh : ∀ {m}, Fresh s m → m ≠ n → Fresh (s.link a n) m := fun hm hne =>
    ⟨by simpa [State.link, hne] using hm.1, hm.2⟩
  have hfirst : ∀ {m}, s.next 0 = some m ∨ m ∈ s.removed →
      (s.link a n).next 0 = some m ∨ m ∈ (s.link a n).removed := by
    rintro m (hm | hm)
    · have hne : (0 : ℕ) ≠ a := fun e => by simp [e, hend] at hm
      exact .inl ((Function.update_of_ne hne _ _).trans hm)
    · exact .inr hm
  cases p with
  | idle | loadHead | resetTail | loadSize => trivial
  | loadTail m => exact hfresh h fun e => hp (e ▸ rfl)
  | linkCas m b => exact ⟨hfresh h.1 fun e => hp (e ▸ rfl), h.2.link⟩
  | storeTail | addSize => exact List.mem_append_left _ h
  | loadNext k m => exact hfirst h
  | headCas k m o =>
      obtain ⟨hm, ho, hsucc⟩ := h
      refine ⟨hfirst hm, fun b hb => List.mem_append_left _ (ho b hb), fun hm' => ?_⟩
      rcases hm with hm | hm
      · rcases hsucc hm with rfl | hnext
        · exact .inl rfl
        -- a successor that was read before the link is not null, so it is not `a`'s
        · by_cases hma : m = a
          · exact .inl (by rw [← hnext, hma, hend])
          · exact .inr ((Function.update_of_ne hma _ _).trans hnext)
      · exact absurd hm (hs'.head_not_removed hm')
  | subSize | resetNext => exact h

/-- Either the successor is installed, or the queue is left empty. -/
theorem Shape.unlink (h : Shape s) {n : ℕ} {o : Option ℕ} (hn : s.next 0 = some n)
    (hsucc : o = none ∨ s.next n = o) : Shape (s.unlink n o) where
  chain := by
    obtain ⟨l, hl, hsub⟩ := h.chain
    have h0 : 0 ∉ l := fun hmem => h.ne_zero (h.chain_linked hl hmem) rfl
    have hl' := hl
    rw [hn] at hl'
    obtain ⟨l', rfl, hrest⟩ := hl'.eq_cons
    have hhead : (s.unlink n o).next 0 = o := by simp [State.unlink]
    rw [hhead]
    -- a null successor cuts off everything behind `n`, linked since or not
    rcases hsucc with rfl | rfl
    · refine ⟨[], rfl, List.Sublist.trans ?_ hsub⟩
      simp [State.unlink]
    · refine ⟨l', hrest.update (fun hmem => h0 (List.mem_cons_of_mem _ hmem)) _, ?_⟩
      simpa [State.unlink] using hsub
  nodup := h.nodup
  bound := h.bound
  allocated := h.allocated
  next_linked a b hab := by
    rcases eq_or_ne a 0 with rfl | hne
    · have ho : o = some b := by simpa [State.unlink] using hab
      rcases hsucc with rfl | hnext
      · exact absurd ho (by simp)
      · exact h.next_linked n b (hnext.trans ho)
    · exact h.next_linked a b (by simpa [State.unlink, hne] using hab)
  next_fresh a ha := by
    have hne : a ≠ 0 := fun e => ha (.inl e)
    simpa [State.unlink, hne] using h.next_fresh a ha
  tail := h.tail

theorem Local.unlink {n : ℕ} {o : Option ℕ} (hn : s.next 0 = some n)
    (hs' : Shape (s.unlink n o)) {p : Pc} (h : Local s p) : Local (s.unlink n o) p := by
  have hfirst : ∀ {m}, s.next 0 = some m ∨ m ∈ s.removed → m ∈ (s.unlink n o).removed := by
    rintro m (hm | hm)
    · rw [hn, Option.some.injEq] at hm
      exact List.mem_append_right _ (hm ▸ List.mem_singleton_self n)
    · exact List.mem_append_left _ hm
  cases p with
  | idle | loadHead | resetTail | loadSize => trivial
  | loadTail | linkCas | storeTail | addSize => exact h
  | loadNext k m => exact .inr (hfirst h)
  | headCas k m o' =>
      exact ⟨.inr (hfirst h.1), h.2.1, fun hm' =>
        absurd (hfirst h.1) (hs'.head_not_removed hm')⟩
  | subSize | resetNext => exact List.mem_append_left _ h

theorem Shape.resetNext (h : Shape s) {n : ℕ} (hn : n ∈ s.removed) :
    Shape (s.setNext n none) where
  chain := by
    obtain ⟨l, hl, hsub⟩ := h.chain
    have hhead : (s.setNext n none).next 0 = s.next 0 :=
      Function.update_of_ne (h.ne_zero (h.removed_linked hn)).symm _ _
    rw [hhead]
    exact ⟨l, hl.update (fun hmem => h.not_removed hl hmem hn) _, hsub⟩
  nodup := h.nodup
  bound := h.bound
  allocated := h.allocated
  next_linked a b hab := by
    rcases eq_or_ne a n with rfl | hne
    · simp [State.setNext] at hab
    · exact h.next_linked a b (by simpa [State.setNext, hne] using hab)
  next_fresh a ha := by
    rcases eq_or_ne a n with rfl | hne
    · simp [State.setNext]
    · simpa [State.setNext, hne] using h.next_fresh a ha
  tail := h.tail

theorem Local.resetNext (hs : Shape s) {n : ℕ} (hn : n ∈ s.removed) {p : Pc}
    (h : Local s p) : Local (s.setNext n none) p := by
  have hhead : (s.setNext n none).next 0 = s.next 0 :=
    Function.update_of_ne (hs.ne_zero (hs.removed_linked hn)).symm _ _
  cases p with
  | idle | loadHead | resetTail | loadSize => trivial
  | loadTail | linkCas | storeTail | addSize | subSize | resetNext => exact h
  | loadNext k m => exact h.imp_left hhead.trans
  | headCas k m o =>
      refine ⟨h.1.imp_left hhead.trans, h.2.1, fun hm => ?_⟩
      rw [hhead] at hm
      have hne : m ≠ n := fun e => hs.head_not_removed hm (e ▸ hn)
      simpa [State.setNext, hne] using h.2.2 hm

end

/-! ### One step -/

variable [DecidableEq Tid]

/-- The invariant after an operation on the nodes by thread `t`, which
leaves its locals at `p`. -/
theorem Inv.move {s g : State Tid α} (h : Inv s) {t : Tid} {p : Pc} (hg : Shape g)
    (hpc : g.pc = s.pc) (hlocal : ∀ u, u ≠ t → Local g (s.pc u)) (hp : Local g p)
    (hfresh : ∀ n, p.fresh = some n →
      (s.pc t).fresh = some n ∨ ∀ u, (s.pc u).fresh ≠ some n) : Inv (g.setPc t p) where
  shape := { hg with }
  locals u := by
    change Local g (Function.update g.pc t p u)
    rcases eq_or_ne u t with rfl | hne
    · rwa [Function.update_self]
    · rw [Function.update_of_ne hne, hpc]
      exact hlocal u hne
  distinct u v n hu hv := by
    simp only [State.setPc, hpc] at hu hv
    rcases eq_or_ne t u with rfl | hut <;> rcases eq_or_ne t v with rfl | hvt
    · rfl
    · rw [Function.update_self] at hu
      rw [Function.update_of_ne hvt.symm] at hv
      rcases hfresh n hu with hold | hnew
      · exact h.distinct _ _ n hold hv
      · exact absurd hv (hnew v)
    · rw [Function.update_of_ne hut.symm] at hu
      rw [Function.update_self] at hv
      rcases hfresh n hv with hold | hnew
      · exact h.distinct _ _ n hu hold
      · exact absurd hu (hnew u)
    · rw [Function.update_of_ne hut.symm] at hu
      rw [Function.update_of_ne hvt.symm] at hv
      exact h.distinct u v n hu hv

/-- The same when the nodes do not change. -/
theorem Inv.locals_only {s : State Tid α} (h : Inv s) {t : Tid} {p : Pc} (hp : Local s p)
    (hfresh : ∀ n, p.fresh = some n → (s.pc t).fresh = some n) : Inv (s.setPc t p) :=
  h.move h.shape rfl (fun u _ => h.locals u) hp fun n hn => .inl (hfresh n hn)

/-- Returning only differs by what is recorded. -/
theorem Inv.ret {s : State Tid α} {t : Tid} (h : Inv (s.setPc t .idle)) (ev : Event α) :
    Inv (s.ret t ev) where
  shape := { h.shape with }
  locals := h.locals
  distinct := h.distinct

theorem inv_begin {s : State Tid α} (h : Inv s) (t : Tid) (c : Call α) : Inv (s.begin t c) := by
  cases c with
  | push v =>
      have hnew : s.allocated ∉ s.linked := fun hmem => absurd (h.shape.bound _ hmem).2 (by simp)
      refine h.move (h.shape.makeNode v) rfl (fun u _ => (h.locals u).makeNode v)
        ⟨hnew, h.shape.allocated, Nat.lt_succ_self _⟩ fun n hn => .inr fun u hu => ?_
      obtain rfl : s.allocated = n := by simpa [Pc.fresh] using hn
      have hu' := h.locals u
      cases hpc : s.pc u <;> simp_all [Pc.fresh, Local, Fresh]
  | pop | clear | size => exact h.locals_only trivial (by simp [Pc.fresh])

theorem inv_step (s : State Tid α) (a : Label Tid α) (s' : State Tid α) (h : Inv s)
    (hs : step s a = some s') : Inv s' := by
  cases step_trans hs with
  | call hpc => exact inv_begin h _ _
  | @loadTail t n hpc =>
      have hl : Fresh s n := by simpa [hpc, Local] using h.locals t
      exact h.locals_only ⟨hl, h.shape.tail⟩ (by simp [hpc, Pc.fresh])
  | @link t n a hpc ha =>
      obtain ⟨hn, hka⟩ : Fresh s n ∧ Known s a := by simpa [hpc, Local] using h.locals t
      have hshape := h.shape.link hka ha hn
      refine h.move hshape rfl (fun u hu => (h.locals u).link ha hshape fun e => hu ?_)
        (List.mem_append_right _ (List.mem_singleton_self n)) (by simp [Pc.fresh])
      -- no other thread is about to link the same node
      exact h.distinct u t n e (by simp [hpc, Pc.fresh])
  | @linkRetry t n a b hpc ha =>
      obtain ⟨hn, -⟩ : Fresh s n ∧ Known s a := by simpa [hpc, Local] using h.locals t
      exact h.locals_only ⟨hn, .inr (h.shape.next_linked a b ha)⟩ (by simp [hpc, Pc.fresh])
  | @storeTail t n hpc =>
      have hn : n ∈ s.linked := by simpa [hpc, Local] using h.locals t
      exact h.move (h.shape.setTail (.inr hn)) rfl (fun u _ => h.locals u) hn (by simp [Pc.fresh])
  | @resetTail t k hpc =>
      exact Inv.ret (h.move (h.shape.setTail (.inl rfl)) rfl (fun u _ => h.locals u) trivial
        (by simp [Pc.fresh])) _
  | addSize hpc =>
      exact Inv.ret (h.move (g := s.addSize) { h.shape with } rfl (fun u _ => h.locals u) trivial
        (by simp [Pc.fresh])) _
  | loadHead hpc hn => exact h.locals_only (.inl hn) (by simp [Pc.fresh])
  | loadHeadEmpty hpc hn | unlinkEmpty hpc hn => exact h.locals_only trivial (by simp [Pc.fresh])
  | @loadNext t k n hpc =>
      have hn : s.next 0 = some n ∨ n ∈ s.removed := by simpa [hpc, Local] using h.locals t
      exact h.locals_only ⟨hn, fun m hm => h.shape.next_linked n m hm, fun _ => .inr rfl⟩
        (by simp [Pc.fresh])
  | @unlink t k n o hpc hn =>
      have hl := h.locals t
      rw [hpc] at hl
      have hshape := h.shape.unlink hn (hl.2.2 hn)
      exact h.move hshape rfl (fun u _ => (h.locals u).unlink hn hshape)
        (List.mem_append_right _ (List.mem_singleton_self n)) (by simp [Pc.fresh])
  | unlinkRetry hpc hm hne => exact h.locals_only (.inl hm) (by simp [Pc.fresh])
  | @subSize t k n hpc =>
      have hn : n ∈ s.removed := by simpa [hpc, Local] using h.locals t
      exact h.move (g := s.subSize) { h.shape with } rfl (fun u _ => h.locals u) hn
        (by simp [Pc.fresh])
  | @resetNext t n v hpc hv =>
      have hn : n ∈ s.removed := by simpa [hpc, Local] using h.locals t
      exact Inv.ret (h.move (h.shape.resetNext hn) rfl
        (fun u _ => (h.locals u).resetNext h.shape hn) trivial (by simp [Pc.fresh])) _
  | @resetNextAgain t n hpc =>
      have hn : n ∈ s.removed := by simpa [hpc, Local] using h.locals t
      exact h.move (h.shape.resetNext hn) rfl
        (fun u _ => (h.locals u).resetNext h.shape hn) trivial (by simp [Pc.fresh])
  | loadSize hpc => exact Inv.ret (h.locals_only trivial (by simp [Pc.fresh])) _

end JowiAsio.LockFreeQueue

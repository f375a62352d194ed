import JowiAsio.LockFreeQueue.Shape

/-!
What pops return under concurrency.

A node is removed once, and the calls of `pop` return removed nodes, each
of them one that no other call returns. So the nodes come out in the order
in which they were linked. Nodes may be missing in between: those that a
removal has dropped, and those whose `pop` has not returned yet.

The value of the node `n + 1` is the argument of the `n`-th call of `push`,
and never changes.
-/

namespace JowiAsio.LockFreeQueue

open Lib

variable {Tid α : Type}

/-! ### What is pushed and what is popped -/

/-- The argument of a call of `push`. -/
def Label.pushedValue : Label Tid α → Option α
  | .call _ (.push v) => some v
  | _ => none

/-- The value a call of `pop` returned. -/
def Event.poppedValue : Event α → Option α
  | .popped r => r
  | _ => none

/-- The node whose value the step returns from a call of `pop`. -/
def returnedNode (s : State Tid α) : Label Tid α → List ℕ
  | .call _ _ => []
  | .exec t =>
      match s.pc t with
      | .resetNext .pop n => [n]
      | _ => []

/-! ### The invariant -/

/-- The removed node that a thread has not returned yet. -/
def Pc.taken : Pc → Option ℕ
  | .subSize _ n | .resetNext _ n => some n
  | _ => none

/-- The state of the queue after the calls `as`, in which pops have
returned the nodes of `nodes`. -/
structure Delivers (s : State Tid α) (nodes : List ℕ) : Prop where
  inv : Inv s
  nodup : nodes.Nodup
  removed : ∀ n ∈ nodes, n ∈ s.removed
  taken : ∀ t n, (s.pc t).taken = some n → n ∈ s.removed ∧ n ∉ nodes
  distinct : ∀ t u n, (s.pc t).taken = some n → (s.pc u).taken = some n → t = u
  values : s.history.filterMap Event.poppedValue = nodes.filterMap s.value

/-- The node `n + 1` is the one of the `n`-th call of `push`. -/
structure Numbered (s : State Tid α) (as : List (Label Tid α)) : Prop where
  zero : s.value 0 = none
  allocated : s.allocated = (as.filterMap Label.pushedValue).length + 1
  value : ∀ n, s.value (n + 1) = (as.filterMap Label.pushedValue)[n]?

section

variable [DecidableEq Tid] {s s' : State Tid α} {nodes : List ℕ}

/-- A step by thread `t` to the locals `p` that holds no node it did not
hold before. -/
theorem Delivers.move (h : Delivers s nodes) (hinv : Inv s') {t : Tid} {p : Pc}
    (hpc : s'.pc = Function.update s.pc t p)
    (hp : ∀ n, p.taken = some n → (s.pc t).taken = some n) (hremoved : s'.removed = s.removed)
    (hhistory : s'.history.filterMap Event.poppedValue = s.history.filterMap Event.poppedValue)
    (hvalue : ∀ n ∈ nodes, s'.value n = s.value n) : Delivers s' nodes := by
  have hold : ∀ u n, (s'.pc u).taken = some n → (s.pc u).taken = some n := by
    intro u n hu
    rw [hpc] at hu
    rcases eq_or_ne u t with rfl | hne
    · rw [Function.update_self] at hu
      exact hp n hu
    · rwa [Function.update_of_ne hne] at hu
  refine ⟨hinv, h.nodup, ?_, fun u n hu => ?_, fun u v n hu hv => ?_, ?_⟩
  · rw [hremoved]
    exact h.removed
  · rw [hremoved]
    exact h.taken u n (hold u n hu)
  · exact h.distinct u v n (hold u n hu) (hold v n hv)
  · rw [hhistory, h.values]
    exact List.filterMap_congr fun n hn => (hvalue n hn).symm

/-- A compare-exchange on `__head.next` removes a node that nobody has
removed before. -/
theorem Delivers.unlink (h : Delivers s nodes) {t : Tid} {k : Popper} {n : ℕ} {o : Option ℕ}
    (hn : s.next 0 = some n) (hinv : Inv ((s.unlink n o).setPc t (.subSize k n))) :
    Delivers ((s.unlink n o).setPc t (.subSize k n)) nodes := by
  have hnew : n ∉ s.removed := h.inv.shape.head_not_removed hn
  have hother : ∀ u, (s.pc u).taken ≠ some n := fun u hu => hnew (h.taken u n hu).1
  refine ⟨hinv, h.nodup, fun m hm => List.mem_append_left _ (h.removed m hm),
    fun u m hu => ?_, fun u v m hu hv => ?_, h.values⟩
  · simp only [State.setPc, State.unlink] at hu ⊢
    rcases eq_or_ne u t with rfl | hne
    · rw [Function.update_self, Pc.taken, Option.some.injEq] at hu
      subst hu
      exact ⟨List.mem_append_right _ (List.mem_singleton_self n), fun hm => hnew (h.removed n hm)⟩
    · rw [Function.update_of_ne hne] at hu
      exact ⟨List.mem_append_left _ (h.taken u m hu).1, (h.taken u m hu).2⟩
  · simp only [State.setPc, State.unlink] at hu hv
    rcases eq_or_ne u t with rfl | hut <;> rcases eq_or_ne v u with rfl | hvu
    · rfl
    · rw [Function.update_self, Pc.taken, Option.some.injEq] at hu
      rw [Function.update_of_ne hvu] at hv
      exact absurd (hu ▸ hv) (hother v)
    · rfl
    · rw [Function.update_of_ne hut] at hu
      rcases eq_or_ne v t with rfl | hvt
      · rw [Function.update_self, Pc.taken, Option.some.injEq] at hv
        exact absurd (hv ▸ hu) (hother u)
      · rw [Function.update_of_ne hvt] at hv
        exact h.distinct u v m hu hv

/-- A call of `pop` returns the value of the node it has removed. -/
theorem Delivers.ret (h : Delivers s nodes) {t : Tid} {n : ℕ} {v : α}
    (hpc : s.pc t = .resetNext .pop n) (hv : s.value n = some v)
    (hinv : Inv ((s.setNext n none).ret t (.popped (some v)))) :
    Delivers ((s.setNext n none).ret t (.popped (some v))) (nodes ++ [n]) := by
  have htaken : (s.pc t).taken = some n := by simp [hpc, Pc.taken]
  obtain ⟨hremoved, hnew⟩ := h.taken t n htaken
  have hold : ∀ u m, (((s.setNext n none).ret t (.popped (some v))).pc u).taken = some m →
      u ≠ t ∧ (s.pc u).taken = some m := by
    intro u m hu
    simp only [State.ret, State.setNext] at hu
    rcases eq_or_ne u t with rfl | hne
    · simp [Pc.taken] at hu
    · rw [Function.update_of_ne hne] at hu
      exact ⟨hne, hu⟩
  refine ⟨hinv, ?_, fun m hm => ?_, fun u m hu => ?_, fun u w m hu hw => ?_, ?_⟩
  · refine List.nodup_append.2 ⟨h.nodup, List.nodup_singleton n, fun a ha b hb => ?_⟩
    rw [List.mem_singleton] at hb
    exact fun e => hnew (hb ▸ e ▸ ha)
  · rcases List.mem_append.1 hm with hm | hm
    · exact h.removed m hm
    · exact List.mem_singleton.1 hm ▸ hremoved
  · obtain ⟨hne, hu⟩ := hold u m hu
    refine ⟨(h.taken u m hu).1, fun hm => ?_⟩
    rcases List.mem_append.1 hm with hm | hm
    · exact (h.taken u m hu).2 hm
    -- only `t` held the node
    · rw [List.mem_singleton] at hm
      exact hne (h.distinct u t n (hm ▸ hu) htaken)
  · exact h.distinct u w m (hold u m hu).2 (hold w m hw).2
  · simp only [State.ret, State.setNext, List.filterMap_append, h.values]
    simp [Event.poppedValue, hv]

theorem delivers_step (h : Delivers s nodes) {a : Label Tid α} (hs : step s a = some s') :
    Delivers s' (nodes ++ returnedNode s a) := by
  have hinv := inv_step s a s' h.inv hs
  have same : ∀ {l}, l = [] → Delivers s' nodes → Delivers s' (nodes ++ l) := by
    rintro l rfl hs'
    rwa [List.append_nil]
  cases step_trans hs with
  | @call t c hpc =>
      refine same rfl ?_
      cases c with
      | push v =>
          refine h.move hinv rfl nofun rfl rfl fun n hn => Function.update_of_ne ?_ _ _
          have hlinked := h.inv.shape.removed_linked (h.removed n hn)
          exact Nat.ne_of_lt (h.inv.shape.bound n hlinked).2
      | pop | clear | size => exact h.move hinv rfl nofun rfl rfl fun _ _ => rfl
  | loadTail hpc | link hpc | linkRetry hpc | storeTail hpc | loadHead hpc | loadHeadEmpty hpc
  | loadNext hpc | unlinkRetry hpc | unlinkEmpty hpc =>
      exact same (by simp [returnedNode, hpc]) (h.move hinv rfl nofun rfl rfl fun _ _ => rfl)
  | addSize hpc | loadSize hpc =>
      refine same (by simp [returnedNode, hpc]) (h.move hinv rfl nofun rfl ?_ fun _ _ => rfl)
      simp [State.ret, State.addSize, Event.poppedValue]
  | @resetTail t k hpc =>
      refine same (by simp [returnedNode, hpc]) (h.move hinv rfl nofun rfl ?_ fun _ _ => rfl)
      cases k <;> simp [State.ret, State.setTail, Popper.empty, Event.poppedValue]
  | unlink hpc hn => exact same (by simp [returnedNode, hpc]) (h.unlink hn hinv)
  | subSize hpc =>
      refine same (by simp [returnedNode, hpc]) (h.move hinv rfl (fun n hn => ?_) rfl rfl
        fun _ _ => rfl)
      simpa [hpc, Pc.taken] using hn
  | resetNext hpc hv =>
      simp only [returnedNode, hpc]
      exact h.ret hpc hv hinv
  | resetNextAgain hpc =>
      exact same (by simp [returnedNode, hpc]) (h.move hinv rfl nofun rfl rfl fun _ _ => rfl)

theorem numbered_step {as : List (Label Tid α)} (h : Numbered s as) {a : Label Tid α}
    (hs : step s a = some s') : Numbered s' (as ++ [a]) := by
  have same : ∀ {t : State Tid α}, a.pushedValue = none → t.value = s.value →
      t.allocated = s.allocated → Numbered t (as ++ [a]) := by
    intro t ha hv hall
    have hpushed : (as ++ [a]).filterMap Label.pushedValue = as.filterMap Label.pushedValue := by
      simp [ha]
    refine ⟨?_, ?_, fun n => ?_⟩
    · rw [hv, h.zero]
    · rw [hall, hpushed, h.allocated]
    · rw [hv, hpushed, h.value]
  cases step_trans hs with
  | @call t c hpc =>
      cases c with
      | push v =>
          have hpushed : (as ++ [Label.call t (.push v)]).filterMap Label.pushedValue =
              as.filterMap Label.pushedValue ++ [v] := by
            simp [Label.pushedValue]
          refine ⟨?_, ?_, fun n => ?_⟩ <;>
            simp only [State.begin, State.makeNode, State.setPc, hpushed, h.allocated]
          · rw [Function.update_of_ne (Nat.succ_ne_zero _).symm, h.zero]
          · simp
          · rcases eq_or_ne n (as.filterMap Label.pushedValue).length with rfl | hne
            · simp
            · rw [Function.update_of_ne (by omega), h.value, List.getElem?_append]
              split_ifs with hlt
              · rfl
              · rw [List.getElem?_eq_none (by omega), List.getElem?_eq_none (by simp; omega)]
      | pop | clear | size => exact same rfl rfl rfl
  | loadTail | link | linkRetry | storeTail | addSize | loadHead | loadHeadEmpty | resetTail
  | loadNext | unlink | unlinkRetry | unlinkEmpty | subSize | resetNext | resetNextAgain
  | loadSize => exact same rfl rfl rfl

end

/-! ### Whole runs -/

theorem delivers_init [DecidableEq Tid] : Delivers (init Tid α) [] where
  inv := inv_init
  nodup := List.nodup_nil
  removed _ hn := absurd hn List.not_mem_nil
  taken _ _ h := absurd h (by simp [init, Pc.taken])
  distinct _ _ _ h := absurd h (by simp [init, Pc.taken])
  values := rfl

theorem numbered_init : Numbered (init Tid α) [] := ⟨rfl, rfl, fun _ => rfl⟩

theorem not_sublist_swap {l : List ℕ} (h : l.Nodup) {a b : ℕ} (hab : [a, b].Sublist l) :
    ¬ [b, a].Sublist l := by
  induction l with
  | nil => exact absurd hab (by simp)
  | cons c l ih =>
      obtain ⟨hc, h⟩ := List.nodup_cons.1 h
      intro hba
      cases hab with
      | cons _ hab =>
          cases hba with
          | cons _ hba => exact ih h hab hba
          | cons_cons => exact hc (hab.subset (by simp))
      | cons_cons _ hb =>
          cases hba with
          | cons _ hba => exact hc (hba.subset (by simp))
          | cons_cons => exact hc (hb.subset (by simp))

/-- A sublist of a list without duplicates keeps the order of its
elements. -/
theorem pair_of_sublist {l l' : List ℕ} (hsub : l.Sublist l') (hnodup : l'.Nodup) {a b : ℕ}
    (ha : a ∈ l) (hb : b ∈ l) (hab : [a, b].Sublist l') : [a, b].Sublist l := by
  have hne : a ≠ b := by
    rintro rfl
    exact not_sublist_swap hnodup hab hab
  obtain ⟨x, y, rfl⟩ := List.append_of_mem ha
  rcases List.mem_append.1 hb with hb | hb
  · have hba : [b, a].Sublist (x ++ a :: y) :=
      (List.singleton_sublist.2 hb).append (List.singleton_sublist.2 List.mem_cons_self)
    exact absurd (hba.trans hsub) (not_sublist_swap hnodup hab)
  · have hy : b ∈ y := (List.mem_cons.1 hb).resolve_left hne.symm
    exact ((List.singleton_sublist.2 hy).cons_cons a).trans (List.sublist_append_right _ _)

section

variable [DecidableEq Tid]

theorem removed_prefix_step (s : State Tid α) (a : Label Tid α) (s' : State Tid α)
    (hs : step s a = some s') : s.removed <+: s'.removed := by
  cases step_trans hs with
  | @call t c hpc => cases c <;> exact List.prefix_refl _
  | unlink => exact List.prefix_append _ _
  | loadTail | link | linkRetry | storeTail | addSize | loadHead | loadHeadEmpty | resetTail
  | loadNext | unlinkRetry | unlinkEmpty | subSize | resetNext | resetNextAgain
  | loadSize => exact List.prefix_refl _

/-- The nodes that the calls of `pop` have returned, one after the other. -/
def returnedNodes (as : List (Label Tid α)) : List ℕ := liftRun step returnedNode (init Tid α) as

/-- Pops deliver at most once and in order. The removed nodes are a
subsequence of the linked ones, a pop returns a removed node that no other
pop returns, with the argument of the push that made it, and a node that
was linked before another one is removed before it. The last part is about
calls that do not overlap: what a later pop removes was not linked before
what an earlier one has removed. -/
theorem pops_deliver_in_order {as : List (Label Tid α)} {s : State Tid α}
    (hrun : run step (init Tid α) as = some s) :
    (s.removed.Sublist s.linked ∧ s.linked.Nodup) ∧
      (∀ n ∈ s.linked, 0 < n ∧ ∃ v, s.value n = some v ∧
        (as.filterMap Label.pushedValue)[n - 1]? = some v) ∧
      ((returnedNodes as).Nodup ∧ (∀ n ∈ returnedNodes as, n ∈ s.removed) ∧
        s.history.filterMap Event.poppedValue = (returnedNodes as).filterMap s.value) ∧
      (∀ a ∈ returnedNodes as, ∀ b ∈ returnedNodes as,
        [a, b].Sublist s.linked → [a, b].Sublist s.removed) ∧
      ∀ bs u, run step s bs = some u → ∀ a ∈ u.removed, ∀ b ∈ s.removed,
        [a, b].Sublist u.linked → a ∈ s.removed := by
  have hdelivers : Delivers s (returnedNodes as) :=
    run_log_invariant (I := Delivers) (fun _ _ _ _ h hs => delivers_step h hs) delivers_init hrun
  have hnumbered : Numbered s as :=
    run_schedule_invariant (I := Numbered) (fun _ _ _ _ h hs => numbered_step h hs)
      numbered_init hrun
  have hshape := hdelivers.inv.shape
  have hsub : s.removed.Sublist s.linked := by
    obtain ⟨l, -, hl⟩ := hshape.chain
    exact (List.sublist_append_left _ _).trans hl
  refine ⟨⟨hsub, hshape.nodup⟩, fun n hn => ?_,
    ⟨hdelivers.nodup, hdelivers.removed, hdelivers.values⟩, fun a ha b hb hab => ?_,
    fun bs u hrest a ha b hb hab => ?_⟩
  · obtain ⟨hpos, hlt⟩ := hshape.bound n hn
    obtain ⟨k, rfl⟩ : ∃ k, n = k + 1 := ⟨n - 1, by omega⟩
    have hk : k < (as.filterMap Label.pushedValue).length := by
      have := hnumbered.allocated
      omega
    refine ⟨hpos, _, ?_, List.getElem?_eq_getElem hk⟩
    rw [hnumbered.value, List.getElem?_eq_getElem hk]
  · exact pair_of_sublist hsub hshape.nodup (hdelivers.removed a ha) (hdelivers.removed b hb) hab
  · have hu : Inv u := run_invariant inv_step hdelivers.inv hrest
    obtain ⟨later, hlater⟩ : s.removed <+: u.removed :=
      run_invariant (I := fun v => s.removed <+: v.removed)
        (fun v l w hv hs => hv.trans (removed_prefix_step v l w hs)) (List.prefix_refl _) hrest
    obtain ⟨l, -, hl⟩ := hu.shape.chain
    have husub : u.removed.Sublist u.linked := (List.sublist_append_left _ _).trans hl
    -- removed later, `a` would stand behind `b` in the order of the links
    by_contra hnot
    have hba : [b, a].Sublist u.removed := by
      rw [← hlater] at ha ⊢
      have ha' := (List.mem_append.1 ha).resolve_left hnot
      exact (List.singleton_sublist.2 hb).append (List.singleton_sublist.2 ha')
    exact not_sublist_swap hu.shape.nodup hab (hba.trans husub)

end

/-- Thread `t` pushes twice and pops once while thread `u` pops; the pop of
`u` returns first, with the second element. -/
def twoPops (t u : Tid) : List (Label Tid ℕ) :=
  [.call t (.push 5)] ++ List.replicate 4 (.exec t) ++ [.call t (.push 6)] ++
    List.replicate 4 (.exec t) ++ [.call t .pop] ++ List.replicate 3 (.exec t) ++
    [.call u .pop] ++ List.replicate 5 (.exec u) ++ List.replicate 2 (.exec t)

theorem pops_deliver_in_order_twoPops :
    ∃ s, run step (init (Fin 2) ℕ) (twoPops 0 1) = some s ∧ s.removed = [1, 2] ∧
      s.history.filterMap Event.poppedValue = [6, 5] ∧ s.removed.Sublist s.linked ∧
      (returnedNodes (twoPops (0 : Fin 2) 1)).Nodup := by
  obtain ⟨s, hrun, hremoved, hhistory⟩ : ∃ s,
      run step (init (Fin 2) ℕ) (twoPops 0 1) = some s ∧ s.removed = [1, 2] ∧
        s.history.filterMap Event.poppedValue = [6, 5] := ⟨_, rfl, rfl, rfl⟩
  obtain ⟨⟨hsub, -⟩, -, ⟨hnodup, -⟩, -⟩ := pops_deliver_in_order hrun
  exact ⟨s, hrun, hremoved, hhistory, hsub, hnodup⟩

/-- Of two nodes that are both returned, the one that was linked first is
returned first. -/
def ReturnsInLinkOrder (s : State Tid α) (nodes : List ℕ) : Prop :=
  ∀ a ∈ nodes, ∀ b ∈ nodes, [a, b].Sublist s.linked → [a, b].Sublist nodes

/-- Pops that overlap need not return in the order in which they removed:
the first one has yet to reset its node when the second one returns. -/
theorem later_linked_returned_first :
    ¬ ∀ (as : List (Label (Fin 2) ℕ)) (s : State (Fin 2) ℕ),
      run step (init (Fin 2) ℕ) as = some s → ReturnsInLinkOrder s (returnedNodes as) := by
  intro h
  have hlinked : [1, 2].Sublist [2, 1] := h (twoPops 0 1) _ rfl 1 (by decide) 2 (by decide)
    (List.Sublist.refl _)
  exact absurd hlinked (by decide)

end JowiAsio.LockFreeQueue

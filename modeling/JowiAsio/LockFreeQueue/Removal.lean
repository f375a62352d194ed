import JowiAsio.LockFreeQueue.Shape

/-!
What a pop removes from the queue under concurrency.

The compare-exchange on `__head.next` checks the first node only. When the
pop read a null successor from it and a push has linked a node behind it
since, the compare-exchange still succeeds and the linked node, with
everything behind it, is no longer reachable. This is the only way to lose
a node: a pop that read a successor has read the current one, and the
reset of the removed node's `next` never touches a reachable node.
-/

namespace JowiAsio.LockFreeQueue

open Lib

variable {Tid α : Type}

/-- The nodes reachable from `__head` are those of `l`, in this order. -/
def Reaches (s : State Tid α) (l : List ℕ) : Prop := Chain s.next (s.next 0) l

variable [DecidableEq Tid]

/-- The step is a compare-exchange on `__head.next` that succeeds: it
replaces `n` by `o`. -/
def Removes (s : State Tid α) (a : Label Tid α) (n : ℕ) (o : Option ℕ) : Prop :=
  ∃ t k, a = .exec t ∧ s.pc t = .headCas k n o ∧ s.next 0 = some n

/-- The step resets the `next` of a removed node. -/
def Resets (s : State Tid α) (a : Label Tid α) (n : ℕ) : Prop :=
  ∃ t k, a = .exec t ∧ s.pc t = .resetNext k n

/-- A successful compare-exchange on `__head.next` leaves the nodes
reachable from `__head` what they were without the first one, and the
reset of the removed node leaves them what they were. -/
def RemovesOne (s : State Tid α) (a : Label Tid α) (s' : State Tid α) : Prop :=
  (∀ n o, Removes s a n o → ∃ l, Reaches s (n :: l) ∧ Reaches s' l) ∧
    ∀ n, Resets s a n → ∃ l, Reaches s l ∧ Reaches s' l

/-- The condition on a step: when a pop that read a null successor removes
the node, no node has been linked behind it. -/
def NoneLinkedSince (s : State Tid α) (a : Label Tid α) (_ : State Tid α) : Prop :=
  ∀ n, Removes s a n none → s.next n = none

theorem step_removes {s s' : State Tid α} {a : Label Tid α} {n : ℕ} {o : Option ℕ}
    (hs : step s a = some s') (h : Removes s a n o) :
    ∃ t k, s' = (s.unlink n o).setPc t (.subSize k n) := by
  obtain ⟨t, k, rfl, hpc, hn⟩ := h
  refine ⟨t, k, ?_⟩
  simpa [step, hpc, hn, casStrong, casWeak, eq_comm] using hs

theorem step_resets {s s' : State Tid α} {a : Label Tid α} {n : ℕ}
    (hs : step s a = some s') (h : Resets s a n) :
    s'.next = Function.update s.next n none := by
  obtain ⟨t, k, rfl, hpc⟩ := h
  cases k with
  | pop =>
      simp only [step, hpc, State.popReturned, Option.map_eq_some_iff] at hs
      obtain ⟨v, -, rfl⟩ := hs
      rfl
  | clear =>
      simp only [step, hpc, State.popReturned, Option.some.injEq] at hs
      subst hs
      rfl

/-- A reset is invisible from `__head`. -/
theorem reset_keeps_reachable {s s' : State Tid α} {a : Label Tid α} {n : ℕ} (h : Inv s)
    (hs : step s a = some s') (hr : Resets s a n) : ∃ l, Reaches s l ∧ Reaches s' l := by
  obtain ⟨l, hl, -⟩ := h.shape.chain
  have hn : n ∈ s.removed := by
    obtain ⟨t, k, -, hpc⟩ := hr
    simpa [hpc, Local] using h.locals t
  have hne : 0 ≠ n := (h.shape.ne_zero (h.shape.removed_linked hn)).symm
  refine ⟨l, hl, ?_⟩
  rw [Reaches, step_resets hs hr, Function.update_of_ne hne]
  exact hl.update (fun hmem => h.shape.not_removed hl hmem hn) none

/-- A removal drops the first node only, if and only if the successor it
installs is the current one. -/
theorem removal_exact_iff {s s' : State Tid α} {a : Label Tid α} {n : ℕ} {o : Option ℕ}
    (h : Inv s) (hs : step s a = some s') (hr : Removes s a n o) :
    (∃ l, Reaches s (n :: l) ∧ Reaches s' l) ↔ s.next n = o := by
  obtain ⟨l, hl, -⟩ := h.shape.chain
  obtain ⟨t, k, rfl⟩ := step_removes hs hr
  have h0 : 0 ∉ l := fun hmem => h.shape.ne_zero (h.shape.chain_linked hl hmem) rfl
  have hhead : ((s.unlink n o).setPc t (.subSize k n)).next 0 = o := by
    simp [State.unlink, State.setPc]
  obtain ⟨-, -, -, -, hn⟩ := hr
  rw [hn] at hl
  obtain ⟨l', rfl, hrest⟩ := hl.eq_cons
  constructor
  · rintro ⟨l'', hl'', hafter⟩
    rw [Reaches, hn] at hl''
    obtain rfl : l'' = l' := by simpa using hl''.unique hl
    rw [Reaches, hhead] at hafter
    rw [← hafter.head, ← hrest.head]
  · rintro rfl
    refine ⟨l', ⟨hn, hrest⟩, ?_⟩
    rw [Reaches, hhead]
    exact hrest.update (fun hmem => h0 (List.mem_cons_of_mem _ hmem)) _

theorem removesOne_iff {s s' : State Tid α} {a : Label Tid α} (h : Inv s)
    (hs : step s a = some s') : RemovesOne s a s' ↔ NoneLinkedSince s a s' := by
  constructor
  · exact fun hone n hr => (removal_exact_iff h hs hr).1 (hone.1 n none hr)
  · refine fun hnone => ⟨fun n o hr => (removal_exact_iff h hs hr).2 ?_,
      fun n hr => reset_keeps_reachable h hs hr⟩
    obtain ⟨t, k, rfl, hpc, hn⟩ := hr
    have hlocal := h.locals t
    rw [hpc] at hlocal
    rcases hlocal.2.2 hn with rfl | hnext
    · exact hnone n ⟨t, k, rfl, hpc, hn⟩
    · exact hnext

/-- Every removal of a run drops exactly the first node if and only if no
node is linked behind a popped node between the read of its null successor
and its removal. -/
theorem removals_drop_first_only_iff (as : List (Label Tid α)) :
    Along step RemovesOne (init Tid α) as ↔ Along step NoneLinkedSince (init Tid α) as :=
  along_congr inv_step (fun _ _ _ h hs => removesOne_iff h hs) inv_init as

/-- One element is in the queue; a pop reads its null successor, a push
links a second node behind it, and the pop's compare-exchange drops both. -/
theorem push_behind_popped_node :
    ¬ ∀ as : List (Label (Fin 2) ℕ), Along step RemovesOne (init (Fin 2) ℕ) as := by
  intro h
  have hlast := (h ([.call 0 (.push 5), .exec 0, .exec 0, .exec 0, .exec 0,
    .call 1 .pop, .exec 1, .exec 1, .call 0 (.push 6), .exec 0, .exec 0] ++ [.exec 1])).last
    rfl rfl
  obtain ⟨l, ⟨-, hbefore⟩, hafter⟩ := hlast.1 1 none ⟨1, .pop, rfl, rfl, rfl⟩
  exact absurd (hbefore.head.symm.trans hafter.head) (by decide)

end JowiAsio.LockFreeQueue

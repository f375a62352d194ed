import JowiAsio.LockFreeQueue.Shape

/-!
The `next` pointers of the queue form no cycle.

A node is linked once, behind `__head` or a node that has been linked
before it. So a pointer out of any node, removed or not, leads to a node
that has been linked later (`Ranked`), whatever stale tails and stale
pushes there are. Following pointers ends from every node, and with it the
search of a `push` for the last node.
-/

namespace JowiAsio.LockFreeQueue

open Lib

variable {Tid α : Type}

/-- `__head` comes first, the other nodes in the order in which they were
linked. -/
def State.rank (s : State Tid α) (n : ℕ) : ℕ := if n = 0 then 0 else s.linked.idxOf n + 1

def Ranked (s : State Tid α) : Prop := ∀ a b, s.next a = some b → s.rank a < s.rank b

/-- What the absence of cycles means for the queue: following pointers
from any node visits no node twice, no pointer leads to `__head`, and in
every group of nodes there is one that no other one of them points to. A
`push` that runs alone finds the last node from wherever it starts, and
returns. -/
structure Acyclic [DecidableEq Tid] (s : State Tid α) : Prop where
  follow : ∀ a, ∃ l, Chain s.next (s.next a) l ∧ (a :: l).Nodup
  notHead : ∀ a, s.next a ≠ some 0
  unreferenced : ∀ G : Set ℕ, G.Nonempty → ∃ b ∈ G, ∀ a ∈ G, s.next a ≠ some b
  search : ∀ t n a, s.pc t = .linkCas n a → ∃ k s',
    run step s (List.replicate k (.exec t)) = some s' ∧ s'.pc t = .storeTail n
  push : ∀ t v, s.pc t = .idle → ∃ k s',
    run step s (.call t (.push v) :: List.replicate k (.exec t)) = some s' ∧
      s'.pc t = .idle ∧ s'.history = s.history ++ [.pushed]

/-! ### The ranks of nodes -/

section

variable {s s' : State Tid α}

@[simp] theorem rank_zero (s : State Tid α) : s.rank 0 = 0 := if_pos rfl

theorem rank_of_ne {n : ℕ} (h : n ≠ 0) : s.rank n = s.linked.idxOf n + 1 := if_neg h

theorem rank_le_length {n : ℕ} (h : Known s n) : s.rank n ≤ s.linked.length := by
  rcases h with rfl | hn
  · simp
  · rcases eq_or_ne n 0 with rfl | hne
    · simp
    · rw [rank_of_ne hne]
      exact List.idxOf_lt_length_of_mem hn

/-- Linking a node does not change the ranks of the known ones. -/
theorem rank_link_of_known {a n b : ℕ} (h : Known s b) : (s.link a n).rank b = s.rank b := by
  rcases eq_or_ne b 0 with rfl | hne
  · simp
  · rw [rank_of_ne hne, rank_of_ne hne]
    exact congrArg (· + 1) (List.idxOf_append_of_mem (h.resolve_left hne))

theorem rank_link_self {a n : ℕ} (h : Fresh s n) :
    (s.link a n).rank n = s.linked.length + 1 := by
  rw [rank_of_ne h.2.1.ne']
  refine congrArg (· + 1) ?_
  simp [State.link, List.idxOf_append_of_notMem h.1]

/-- Only known nodes have a pointer. -/
theorem Shape.known_of_next (h : Shape s) {a b : ℕ} (hab : s.next a = some b) : Known s a := by
  by_contra ha
  rw [h.next_fresh a ha] at hab
  cases hab

/-! ### One step -/

theorem Ranked.congr (h : Ranked s) (hnext : s'.next = s.next) (hlinked : s'.linked = s.linked) :
    Ranked s' := by
  have hrank : s'.rank = s.rank := by
    funext n
    simp only [State.rank, hlinked]
  intro a b hab
  rw [hnext] at hab
  rw [hrank]
  exact h a b hab

theorem Ranked.link (h : Ranked s) (hs : Shape s) {a n : ℕ} (ha : Known s a) (hn : Fresh s n) :
    Ranked (s.link a n) := by
  intro b c hbc
  rcases eq_or_ne b a with rfl | hne
  · -- the new pointer leads to the node that was linked last
    obtain rfl : n = c := by simpa [State.link] using hbc
    rw [rank_link_of_known ha, rank_link_self hn]
    exact Nat.lt_succ_of_le (rank_le_length ha)
  · have hbc' : s.next b = some c := by simpa [State.link, hne] using hbc
    rw [rank_link_of_known (hs.known_of_next hbc'),
      rank_link_of_known (.inr (hs.next_linked b c hbc'))]
    exact h b c hbc'

theorem Ranked.unlink (h : Ranked s) {n : ℕ} {o : Option ℕ} (hs : Shape (s.unlink n o)) :
    Ranked (s.unlink n o) := by
  intro a b hab
  have hb : b ≠ 0 := hs.ne_zero (hs.next_linked a b hab)
  rcases eq_or_ne a 0 with rfl | hne
  · rw [rank_zero, rank_of_ne hb]
    exact Nat.succ_pos _
  · exact h a b (by simpa [State.unlink, hne] using hab)

theorem Ranked.resetNext (h : Ranked s) (n : ℕ) : Ranked (s.setNext n none) := by
  intro a b hab
  rcases eq_or_ne a n with rfl | hne
  · simp [State.setNext] at hab
  · exact h a b (by simpa [State.setNext, hne] using hab)

end

variable [DecidableEq Tid]

theorem ranked_step (s : State Tid α) (a : Label Tid α) (s' : State Tid α)
    (h : Inv s ∧ Ranked s) (hs : step s a = some s') : Inv s' ∧ Ranked s' := by
  obtain ⟨hinv, hranked⟩ := h
  have hinv' := inv_step s a s' hinv hs
  refine ⟨hinv', ?_⟩
  cases step_trans hs with
  | @call t c hpc => cases c <;> exact hranked.congr rfl rfl
  | @link t n a hpc ha =>
      obtain ⟨hn, hka⟩ : Fresh s n ∧ Known s a := by simpa [hpc, Local] using hinv.locals t
      exact (hranked.link hinv.shape hka hn).congr rfl rfl
  | @unlink t k n o hpc hn =>
      have hshape : Shape (s.unlink n o) := { hinv'.shape with }
      exact (hranked.unlink hshape).congr rfl rfl
  | @resetNext t n v hpc hv => exact (hranked.resetNext n).congr rfl rfl
  | @resetNextAgain t n hpc => exact (hranked.resetNext n).congr rfl rfl
  | loadTail | linkRetry | storeTail | addSize | loadHead | loadHeadEmpty | resetTail | loadNext
  | unlinkRetry | unlinkEmpty | subSize | loadSize => exact hranked.congr rfl rfl

/-! ### A push that runs alone -/

section

variable {s : State Tid α} {t : Tid} {n a : ℕ}

/-- Each step of the search goes one node further, and the last one links
the new node. -/
theorem run_search {l : List ℕ} (hl : Chain s.next (s.next a) l) (hpc : s.pc t = .linkCas n a) :
    ∃ b, run step s (List.replicate (l.length + 1) (.exec t)) =
      some ((s.link b n).setPc t (.storeTail n)) := by
  induction l generalizing s a with
  | nil =>
      refine ⟨a, ?_⟩
      have hend : s.next a = none := hl
      simp [List.replicate_succ, step, hpc, hend]
  | cons b l ih =>
      obtain ⟨hb, hrest⟩ := hl
      obtain ⟨c, hc⟩ := ih (s := s.setPc t (.linkCas n b)) (a := b) hrest
        (Function.update_self ..)
      refine ⟨c, ?_⟩
      rw [List.length_cons, List.replicate_succ, run_cons]
      have hstep : step s (.exec t) = some (s.setPc t (.linkCas n b)) := by
        simp [step, hpc, hb]
      rw [hstep, Option.bind_some, hc]
      exact congrArg some (setPc_setPc (s.link c n) t (.linkCas n b) (.storeTail n))

/-- The steps of a call of `push` before the search and after it. -/
theorem run_push (hfollow : ∀ a, ∃ l, Chain s.next (s.next a) l) (hpc : s.pc t = .idle) (v : α) :
    ∃ k s', run step s (.call t (.push v) :: List.replicate k (.exec t)) = some s' ∧
      s'.pc t = .idle ∧ s'.history = s.history ++ [.pushed] := by
  obtain ⟨l, hl⟩ := hfollow s.tail
  let s₁ : State Tid α := (s.makeNode v).setPc t (.linkCas s.allocated s.tail)
  obtain ⟨b, hb⟩ := run_search (s := s₁) (t := t) (n := s.allocated) (a := s.tail) hl
    (Function.update_self ..)
  have hbegin : run step s [.call t (.push v), .exec t] = some s₁ := by
    have hcall : step s (.call t (.push v)) =
        some ((s.makeNode v).setPc t (.loadTail s.allocated)) := by
      simp [step, hpc, State.begin]
    rw [run_cons, hcall, Option.bind_some, run_cons]
    simp [step, State.setPc, s₁, State.makeNode]
  have hend : ∃ s', run step ((s₁.link b s.allocated).setPc t (.storeTail s.allocated))
      [.exec t, .exec t] = some s' ∧ s'.pc t = .idle ∧ s'.history = s.history ++ [.pushed] := by
    refine ⟨_, by simp [step, State.setPc]; rfl, ?_, rfl⟩
    simp [State.ret]
  obtain ⟨s', hs', hidle, hhistory⟩ := hend
  refine ⟨1 + (l.length + 1) + 2, s', ?_, hidle, hhistory⟩
  have hlabels : (.call t (.push v) :: List.replicate (1 + (l.length + 1) + 2) (.exec t) :
      List (Label Tid α)) =
        ([.call t (.push v), .exec t] ++ List.replicate (l.length + 1) (.exec t)) ++
          [.exec t, .exec t] := by
    rw [List.replicate_add, List.replicate_add]
    rfl
  rw [hlabels]
  exact run_trans (run_trans hbegin hb) hs'

end

theorem acyclic_of_ranked {s : State Tid α} (h : Inv s ∧ Ranked s) : Acyclic s := by
  obtain ⟨hinv, hranked⟩ := h
  have hbound : ∀ a b, s.next a = some b → s.rank a < s.rank b ∧ s.rank b ≤ s.linked.length :=
    fun a b hab => ⟨hranked a b hab, rank_le_length (.inr (hinv.shape.next_linked a b hab))⟩
  have hfollow : ∀ a, ∃ l, Chain s.next (s.next a) l := exists_chain_of_rank hbound
  refine ⟨fun a => ?_, fun a ha => ?_, fun G hG => exists_unreferenced hranked hG, ?_, ?_⟩
  · obtain ⟨l, hl⟩ := hfollow a
    refine ⟨l, hl, List.nodup_cons.2 ⟨fun hmem => ?_, hl.nodup⟩⟩
    exact Nat.lt_irrefl _ (hl.rank_lt hranked a hmem)
  · exact hinv.shape.ne_zero (hinv.shape.next_linked a 0 ha) rfl
  · intro t n a hpc
    obtain ⟨l, hl⟩ := hfollow a
    obtain ⟨b, hb⟩ := run_search hl hpc
    exact ⟨_, _, hb, Function.update_self ..⟩
  · exact fun t v hpc => run_push hfollow hpc v

/-- In every state that is reached the pointers form no cycle. -/
theorem queue_acyclic (as : List (Label Tid α)) : Visits step Acyclic (init Tid α) as :=
  visits_of_invariant (I := fun s => Inv s ∧ Ranked s) ranked_step (fun _ => acyclic_of_ranked)
    ⟨inv_init, fun _ _ h => by simp [init] at h⟩ as

end JowiAsio.LockFreeQueue

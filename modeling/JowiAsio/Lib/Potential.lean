import Mathlib.Algebra.BigOperators.Group.List.Basic
import Mathlib.Algebra.Ring.Nat
import JowiAsio.Lib.Machine

/-!
The potential method for machines.

A potential that every step lowers, up to what the label of the step pays
in, bounds the length of the runs (`run_length_add_le`, or `run_worth`
where the state alone does not say what is left). Where some step
lowers it as long as a goal is not reached, some run reaches the goal
(`exists_run_to`).
-/

namespace JowiAsio.Lib

variable {σ α : Type*} {step : σ → α → Option σ} {I : σ → Prop} {Φ : σ → ℕ}

/-- `I s k` says that the state is worth at most `k`. Every step costs at
least one, but for what its label pays in. -/
theorem run_worth {I : σ → ℕ → Prop} {C : σ → α → σ → Prop} {cost : α → ℕ}
    (hstep : ∀ s k a t, I s k → step s a = some t → C s a t → ∃ k', I t k' ∧ k' + 1 ≤ k + cost a)
    {s t : σ} {k : ℕ} {as : List α} (hC : Along step C s as) (hs : I s k)
    (hrun : run step s as = some t) :
    ∃ k', I t k' ∧ as.length + k' ≤ k + (as.map cost).sum := by
  induction as generalizing s k with
  | nil =>
      obtain rfl : s = t := by simpa using hrun
      exact ⟨k, hs, by simp⟩
  | cons a as ih =>
      rw [run_cons, Option.bind_eq_some_iff] at hrun
      obtain ⟨u, hu, hrest⟩ := hrun
      obtain ⟨hc, hC⟩ := hC u hu
      obtain ⟨l, hI, hpay⟩ := hstep s k a u hs hu hc
      obtain ⟨k', ht, hlen⟩ := ih hC hI hrest
      refine ⟨k', ht, ?_⟩
      rw [List.length_cons, List.map_cons, List.sum_cons]
      omega

/-- Every step lowers the potential, but for what its label pays. -/
theorem run_length_add_le {C : σ → α → σ → Prop} {cost : α → ℕ}
    (hstep : ∀ s a t, I s → step s a = some t → C s a t → I t ∧ Φ t + 1 ≤ Φ s + cost a)
    {s t : σ} {as : List α} (hC : Along step C s as) (hs : I s) (hrun : run step s as = some t) :
    as.length + Φ t ≤ Φ s + (as.map cost).sum := by
  obtain ⟨-, ⟨-, rfl⟩, hlen⟩ := run_worth (I := fun s k => I s ∧ Φ s = k) (k := Φ s)
    (fun s k a t hs ht hc => by
      obtain ⟨hI, rfl⟩ := hs
      obtain ⟨hI', hpay⟩ := hstep s a t hI ht hc
      exact ⟨Φ t, ⟨hI', rfl⟩, hpay⟩) hC ⟨hs, rfl⟩ hrun
  exact hlen

/-- A quantity that no step lowers is, in every state of a run, at most
what it is at the end. -/
theorem along_le_last {f : σ → ℕ} (hmono : ∀ s a t, step s a = some t → f s ≤ f t) {s t : σ}
    {as : List α} (hrun : run step s as = some t) : Along step (fun _ _ u => f u ≤ f t) s as := by
  induction as generalizing s with
  | nil => trivial
  | cons a as ih =>
      rw [run_cons, Option.bind_eq_some_iff] at hrun
      obtain ⟨u, hu, hrest⟩ := hrun
      rw [along_cons hu]
      exact ⟨run_invariant (I := fun v => f u ≤ f v)
        (fun v b w hv hw => Nat.le_trans hv (hmono v b w hw)) (Nat.le_refl _) hrest, ih hrest⟩

/-- As long as `Done` does not hold, some step that meets `C` lowers the
potential: some such steps lead to where it holds. -/
theorem exists_run_to {C : σ → α → σ → Prop} {Done : σ → Prop}
    (hgo : ∀ s, I s → ¬ Done s → ∃ a t, step s a = some t ∧ C s a t ∧ I t ∧ Φ t < Φ s) {s : σ}
    (hs : I s) : ∃ as t, run step s as = some t ∧ Along step C s as ∧ I t ∧ Done t := by
  induction hk : Φ s using Nat.strongRecOn generalizing s with
  | ind k ih =>
      by_cases hdone : Done s
      · exact ⟨[], s, rfl, trivial, hs, hdone⟩
      · obtain ⟨a, t, ht, hC, hI, hlt⟩ := hgo s hs hdone
        obtain ⟨as, u, hrun, halong, hu⟩ := ih (Φ t) (hk ▸ hlt) hI rfl
        refine ⟨a :: as, u, ?_, (along_cons ht).2 ⟨hC, halong⟩, hu⟩
        rw [run_cons, ht, Option.bind_some, hrun]

end JowiAsio.Lib

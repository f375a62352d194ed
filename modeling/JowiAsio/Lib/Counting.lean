import Mathlib.Algebra.BigOperators.Group.Finset.Piecewise
import Mathlib.Algebra.Order.BigOperators.Group.Finset
import Mathlib.Data.Fintype.BigOperators

/-!
Counting over a finite family when one of its members changes.

A quantity that is the sum of what each thread, handle or cell
contributes changes, when one of them is updated, by the difference of
its own two contributions. The lemmas avoid subtraction, so that `omega`
can combine them.
-/

namespace JowiAsio.Lib

variable {ι α : Type*} [Fintype ι] [DecidableEq ι]

theorem sum_update_add {M : Type*} [AddCommMonoid M] (g : α → M) (f : ι → α) (i : ι) (v : α) :
    (∑ j, g (Function.update f i v j)) + g (f i) = (∑ j, g (f j)) + g v := by
  have hrest : ∑ j ∈ Finset.univ.erase i, g (Function.update f i v j) =
      ∑ j ∈ Finset.univ.erase i, g (f j) := by
    refine Finset.sum_congr rfl fun j hj => ?_
    rw [Function.update_of_ne (Finset.ne_of_mem_erase hj)]
  rw [← Finset.add_sum_erase _ _ (Finset.mem_univ i), hrest, Function.update_self,
    ← Finset.add_sum_erase (a := i) _ (fun j => g (f j)) (Finset.mem_univ i)]
  exact (add_assoc _ _ _).trans ((add_comm _ _).trans (congrArg (· + _) (add_comm _ _)))

omit [DecidableEq ι] in
/-- A sum is zero when no member contributes. -/
theorem sum_eq_zero_of (g : α → ℕ) (f : ι → α) (h : ∀ i, g (f i) = 0) : ∑ j, g (f j) = 0 :=
  Finset.sum_eq_zero fun i _ => h i

omit [DecidableEq ι] in
/-- At most one member contributes, and at most one. -/
theorem sum_le_one_of {f : ι → ℕ} (hle : ∀ i, f i ≤ 1)
    (hone : ∀ i j, f i ≠ 0 → f j ≠ 0 → i = j) : ∑ i, f i ≤ 1 := by
  by_cases h : ∃ i, f i ≠ 0
  · obtain ⟨i, hi⟩ := h
    rw [Finset.sum_eq_single i (fun j _ hj => ?_) (fun hi => absurd (Finset.mem_univ i) hi)]
    · exact hle i
    · by_contra hne
      exact hj (hone j i hne hi)
  · rw [Finset.sum_eq_zero fun i _ => by_contra fun hne => h ⟨i, hne⟩]
    exact Nat.zero_le 1

theorem eq_of_sum_le_one {f : ι → ℕ} (h : ∑ i, f i ≤ 1) {i j : ι} (hi : f i ≠ 0) (hj : f j ≠ 0) :
    i = j := by
  by_contra hne
  have hpair : ∑ k ∈ {i, j}, f k ≤ ∑ k, f k := Finset.sum_le_sum_of_subset (Finset.subset_univ _)
  rw [Finset.sum_pair hne] at hpair
  omega

omit [Fintype ι] [DecidableEq ι] in
theorem countP_le_add {p q r : ι → Bool} (l : List ι) (h : ∀ x, p x → q x ∨ r x) :
    l.countP p ≤ l.countP q + l.countP r := by
  induction l with
  | nil => simp
  | cons x l ih =>
      simp only [List.countP_cons]
      have hx := h x
      split_ifs <;> first | omega | simp_all

end JowiAsio.Lib

import Mathlib.Data.Nat.Basic
import Mathlib.Tactic.SplitIfs

/-!
Positions on a ring of `n` slots.

`next n i` is the slot after `i`, `dist n a b` the number of steps from
`a` forward to `b`, and the window from `a` up to (not including) `b` is
the set of slots `i` with `dist n a i < dist n a b`. All statements are
about slots below `n`; their proofs are a case split on which of the two
ends wraps, which `omega` closes.
-/

namespace JowiAsio.Lib.Cyclic

/-- The slot after `i` on a ring of `n` slots. -/
def next (n i : ℕ) : ℕ := (i + 1) % n

/-- How many steps forward it takes from `a` to `b`. -/
def dist (n a b : ℕ) : ℕ := if a ≤ b then b - a else b + n - a

/-- Slot `i` lies in the window from `a` up to, not including, `b`. -/
def InWindow (n a b i : ℕ) : Prop := dist n a i < dist n a b

instance (n a b i : ℕ) : Decidable (InWindow n a b i) :=
  inferInstanceAs (Decidable (dist n a i < dist n a b))

theorem next_eq {n i : ℕ} (hi : i < n) : next n i = if i + 1 = n then 0 else i + 1 := by
  unfold next
  split_ifs with h
  · rw [h, Nat.mod_self]
  · exact Nat.mod_eq_of_lt (by omega)

theorem next_lt {n i : ℕ} (hn : 0 < n) : next n i < n := Nat.mod_lt _ hn

theorem dist_lt {n a b : ℕ} (ha : a < n) (hb : b < n) : dist n a b < n := by
  unfold dist; split_ifs <;> omega

@[simp] theorem dist_self (n a : ℕ) : dist n a a = 0 := by simp [dist]

theorem dist_eq_zero {n a b : ℕ} (ha : a < n) : dist n a b = 0 ↔ a = b := by
  unfold dist; split_ifs <;> omega

theorem dist_inj {n a b c : ℕ} (ha : a < n) (hb : b < n) (hc : c < n)
    (h : dist n a b = dist n a c) : b = c := by
  unfold dist at h; split_ifs at h <;> omega

/-- Advancing the far end of a window that is not about to close lengthens it by one. -/
theorem dist_next_right {n a b : ℕ} (ha : a < n) (hb : b < n) (h : next n b ≠ a) :
    dist n a (next n b) = dist n a b + 1 := by
  rw [next_eq hb] at h ⊢
  unfold dist
  split_ifs at h ⊢ <;> omega

/-- The far end closes on the near end exactly when the window has `n - 1` slots. -/
theorem next_eq_iff_dist {n a b : ℕ} (ha : a < n) (hb : b < n) :
    next n b = a ↔ dist n a b + 1 = n := by
  rw [next_eq hb]
  unfold dist
  split_ifs <;> omega

/-- Seen from the next slot, everything but the slot itself is one step closer. -/
theorem dist_next_left {n a b : ℕ} (ha : a < n) (hb : b < n) (h : a ≠ b) :
    dist n (next n a) b + 1 = dist n a b := by
  rw [next_eq ha]
  unfold dist
  split_ifs <;> omega

theorem dist_next_self {n a : ℕ} (ha : a < n) : dist n (next n a) a + 1 = n := by
  rw [next_eq ha]
  unfold dist
  split_ifs <;> omega

/-- Walking the distance from `a` to `b` arrives at `b`. -/
theorem add_dist_mod {n a b : ℕ} (ha : a < n) (hb : b < n) : (a + dist n a b) % n = b := by
  unfold dist
  split_ifs with h
  · rw [show a + (b - a) = b by omega, Nat.mod_eq_of_lt hb]
  · rw [show a + (b + n - a) = b + n by omega, Nat.add_mod_right, Nat.mod_eq_of_lt hb]

theorem dist_add_mod {n a k : ℕ} (ha : a < n) (hk : k < n) : dist n a ((a + k) % n) = k := by
  rcases Nat.lt_or_ge (a + k) n with h | h
  · rw [Nat.mod_eq_of_lt h]
    unfold dist
    split_ifs <;> omega
  · rw [Nat.mod_eq_sub_mod h, Nat.mod_eq_of_lt (by omega)]
    unfold dist
    split_ifs <;> omega

/-! ### How a window changes when one of its ends moves -/

theorem inWindow_next_right {n a b i : ℕ} (ha : a < n) (hb : b < n) (hi : i < n)
    (h : next n b ≠ a) : InWindow n a (next n b) i ↔ InWindow n a b i ∨ i = b := by
  unfold InWindow
  rw [dist_next_right ha hb h, Nat.lt_succ_iff_lt_or_eq]
  exact or_congr_right ⟨fun e => dist_inj ha hi hb e, fun e => e ▸ rfl⟩

theorem not_inWindow_right {n a b : ℕ} : ¬ InWindow n a b b := by simp [InWindow]

theorem inWindow_left {n a b : ℕ} (ha : a < n) (h : a ≠ b) :
    InWindow n a b a := by
  have := dist_eq_zero (b := b) ha
  simp only [InWindow, dist_self]
  omega

theorem inWindow_next_left {n a b i : ℕ} (ha : a < n) (hb : b < n) (hi : i < n)
    (h : a ≠ b) : InWindow n (next n a) b i ↔ InWindow n a b i ∧ i ≠ a := by
  unfold InWindow
  have hb' := dist_next_left ha hb h
  by_cases hia : i = a
  · subst hia
    have hself := dist_next_self ha
    have hlt := dist_lt (next_lt (i := i) (Nat.zero_lt_of_lt ha)) hb
    simp only [ne_eq, not_true_eq_false, and_false, iff_false, not_lt]
    have := dist_lt ha hb
    omega
  · have := dist_next_left ha hi (Ne.symm hia)
    simp only [ne_eq, hia, not_false_eq_true, and_true]
    omega

end JowiAsio.Lib.Cyclic

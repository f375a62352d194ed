import Mathlib.Data.List.Nodup
import Mathlib.Logic.Function.Basic

/-!
Items that are handed from place to place.

`Custody key holds items` says that each of `items` is in exactly one of
the places, and that nothing else is in any of them. Items with the same
key count as the same item. A step that takes what is in one place and
puts it into an empty one keeps this, and so does the arrival of an item
with a new key.
-/

namespace JowiAsio.Lib

variable {ι β κ : Type*}

structure Custody (key : β → κ) (holds : ι → Option β) (items : List β) : Prop where
  held : ∀ x ∈ items, ∃ p, holds p = some x
  known : ∀ p x, holds p = some x → x ∈ items
  once : ∀ p q x y, holds p = some x → holds q = some y → key x = key y → p = q

namespace Custody

variable {key : β → κ} {holds holds' : ι → Option β} {items : List β}

theorem empty (key : β → κ) (h : ∀ p, holds p = none) : Custody key holds [] where
  held _ hx := absurd hx List.not_mem_nil
  known p x hx := by simp [h p] at hx
  once p _ x _ hx := by simp [h p] at hx

theorem congr (h : Custody key holds items) (hsame : ∀ p, holds' p = holds p) :
    Custody key holds' items := by
  obtain rfl : holds' = holds := funext hsame
  exact h

/-- What is in the place `a`, if anything, goes to the place `b`. -/
theorem move (h : Custody key holds items) {a b : ι} (ha : holds' a = none)
    (hb : holds' b = holds a) (hempty : holds b = none)
    (hother : ∀ p, p ≠ a → p ≠ b → holds' p = holds p) : Custody key holds' items := by
  -- where an item is afterwards, and where it was before
  have hfrom : ∀ p x, holds' p = some x →
      ∃ q, holds q = some x ∧ (p = b ∧ q = a ∨ p ≠ b ∧ q = p) := by
    intro p x hp
    by_cases hpb : p = b
    · subst hpb
      exact ⟨a, hb ▸ hp, .inl ⟨rfl, rfl⟩⟩
    · have hpa : p ≠ a := by
        rintro rfl
        simp [ha] at hp
      exact ⟨p, hother p hpa hpb ▸ hp, .inr ⟨hpb, rfl⟩⟩
  refine ⟨fun x hx => ?_, fun p x hp => ?_, fun p q x y hp hq hxy => ?_⟩
  · obtain ⟨p, hp⟩ := h.held x hx
    by_cases hpa : p = a
    · exact ⟨b, by rw [hb, ← hpa, hp]⟩
    · have hpb : p ≠ b := by
        rintro rfl
        simp [hempty] at hp
      exact ⟨p, by rw [hother p hpa hpb, hp]⟩
  · obtain ⟨q, hq, -⟩ := hfrom p x hp
    exact h.known q x hq
  · obtain ⟨p', hp', hcase⟩ := hfrom p x hp
    obtain ⟨q', hq', hcase'⟩ := hfrom q y hq
    have hsame := h.once p' q' x y hp' hq' hxy
    rcases hcase with ⟨rfl, rfl⟩ | ⟨hpb, rfl⟩ <;> rcases hcase' with ⟨rfl, rfl⟩ | ⟨hqb, rfl⟩
    · rfl
    -- nothing is left in the place `a`
    · subst hsame
      simp [ha] at hq
    · subst hsame
      simp [ha] at hp
    · exact hsame

/-- A new item arrives in the place `a`. -/
theorem arrive (h : Custody key holds items) {a : ι} {x : β} (ha : holds' a = some x)
    (hempty : holds a = none) (hother : ∀ p, p ≠ a → holds' p = holds p)
    (hnew : ∀ y ∈ items, key y ≠ key x) : Custody key holds' (items ++ [x]) := by
  have hcases : ∀ p y, holds' p = some y → (p = a ∧ y = x) ∨ (p ≠ a ∧ holds p = some y) := by
    intro p y hp
    by_cases hpa : p = a
    · subst hpa
      rw [ha, Option.some.injEq] at hp
      exact .inl ⟨rfl, hp.symm⟩
    · exact .inr ⟨hpa, hother p hpa ▸ hp⟩
  refine ⟨fun y hy => ?_, fun p y hp => ?_, fun p q y z hp hq hyz => ?_⟩
  · rcases List.mem_append.1 hy with hy | hy
    · obtain ⟨p, hp⟩ := h.held y hy
      have hpa : p ≠ a := by
        rintro rfl
        simp [hempty] at hp
      exact ⟨p, by rw [hother p hpa, hp]⟩
    · rw [List.mem_singleton] at hy
      exact ⟨a, hy ▸ ha⟩
  · rcases hcases p y hp with ⟨-, rfl⟩ | ⟨-, hp⟩
    · exact List.mem_append_right _ (List.mem_singleton_self _)
    · exact List.mem_append_left _ (h.known p y hp)
  · rcases hcases p y hp with ⟨rfl, rfl⟩ | ⟨hpa, hp⟩ <;>
      rcases hcases q z hq with ⟨rfl, rfl⟩ | ⟨hqa, hq⟩
    · rfl
    · exact absurd hyz.symm (hnew z (h.known q z hq))
    · exact absurd hyz (hnew y (h.known p y hp))
    · exact h.once p q y z hp hq hyz

/-- The place of an item is the only one that holds an item with its
key. -/
theorem existsUnique (h : Custody key holds items) {x : β} (hx : x ∈ items) :
    ∃ p, holds p = some x ∧ ∀ q y, holds q = some y → key y = key x → q = p ∧ y = x := by
  obtain ⟨p, hp⟩ := h.held x hx
  refine ⟨p, hp, fun q y hq hyx => ?_⟩
  obtain rfl := h.once q p y x hq hp hyx
  rw [hp, Option.some.injEq] at hq
  exact ⟨rfl, hq.symm⟩

/-- Places that stand in a row: what they hold, in this order, are
different items. -/
theorem nodup_row {α : Type*} {row : List α} {f : α → Option β}
    (h : ∀ (i j : ℕ) x y, row[i]?.bind f = some x → row[j]?.bind f = some y →
      key x = key y → i = j) :
    ((row.filterMap f).map key).Nodup := by
  induction row with
  | nil => exact List.nodup_nil
  | cons a row ih =>
      have hrest : ((row.filterMap f).map key).Nodup := by
        refine ih fun i j x y hi hj hxy => ?_
        exact Nat.succ.inj (h (i + 1) (j + 1) x y (by simpa using hi) (by simpa using hj) hxy)
      cases ha : f a with
      | none =>
          rw [List.filterMap_cons_none ha]
          exact hrest
      | some x =>
          rw [List.filterMap_cons_some ha, List.map_cons]
          refine List.nodup_cons.2 ⟨fun hx => ?_, hrest⟩
          obtain ⟨y, hy, hxy⟩ := List.mem_map.1 hx
          obtain ⟨b, hb, hfb⟩ := List.mem_filterMap.1 hy
          obtain ⟨j, hj⟩ := List.mem_iff_getElem?.1 hb
          have hzero := h 0 (j + 1) x y (by simpa using ha) (by simp [hj, hfb]) hxy.symm
          exact absurd hzero (Nat.succ_ne_zero j).symm

end Custody

end JowiAsio.Lib

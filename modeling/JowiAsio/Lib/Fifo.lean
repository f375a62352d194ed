import Mathlib.Data.List.Basic

/-!
A FIFO list that holds at most `bound` elements: what a bounded queue is
for. The oldest element is at the head.
-/

namespace JowiAsio.Lib.Fifo

variable {α : Type*}

/-- Add an element, if there is room for it. -/
def push (bound : ℕ) (q : List α) (x : α) : Option (List α) :=
  if q.length < bound then some (q ++ [x]) else none

/-- Take the oldest element, if there is one. -/
def pop : List α → Option α × List α
  | [] => (none, [])
  | x :: q => (some x, q)

theorem push_of_lt {bound : ℕ} {q : List α} (h : q.length < bound) (x : α) :
    push bound q x = some (q ++ [x]) := if_pos h

theorem push_of_ge {bound : ℕ} {q : List α} (h : bound ≤ q.length) (x : α) :
    push bound q x = none := if_neg (by omega)

theorem push_eq {bound : ℕ} {q q' : List α} {x : α} (h : push bound q x = some q') :
    q' = q ++ [x] := by
  by_cases hlt : q.length < bound
  · exact (Option.some.inj ((push_of_lt hlt x).symm.trans h)).symm
  · rw [push_of_ge (Nat.le_of_not_lt hlt)] at h
    cases h

theorem length_of_push {bound : ℕ} {q q' : List α} {x : α} (h : push bound q x = some q') :
    q'.length ≤ bound := by
  by_cases hlt : q.length < bound
  · rw [push_eq h, List.length_append]
    exact hlt
  · rw [push_of_ge (Nat.le_of_not_lt hlt)] at h
    cases h

/-- The elements that were pushed one after the other have found room. -/
theorem length_of_pushes {β : Type*} {bound : ℕ} {f : β → α} {l : List β} {q q' : List α}
    (h : l.foldlM (fun q c => push bound q (f c)) q = some q') (hq : q.length ≤ bound) :
    q'.length ≤ bound := by
  induction l generalizing q with
  | nil =>
      cases h
      exact hq
  | cons c l ih =>
      rw [List.foldlM_cons, Option.bind_eq_bind, Option.bind_eq_some_iff] at h
      obtain ⟨q₁, hq₁, hrest⟩ := h
      exact ih hrest (length_of_push hq₁)

@[simp] theorem pop_nil : pop ([] : List α) = (none, []) := rfl

@[simp] theorem pop_cons (x : α) (q : List α) : pop (x :: q) = (some x, q) := rfl

end JowiAsio.Lib.Fifo

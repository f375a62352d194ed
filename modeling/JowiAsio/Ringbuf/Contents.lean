import JowiAsio.Lib.Fifo
import JowiAsio.Ringbuf.Indices

/-!
The slots as a list, and the bounded FIFO the ring buffer is compared
with.

`Holds n base nodes q` says that the elements of `q` stand in the slots
from `base` on, in order and across the end of the vector, and that every
other slot is empty. The lemmas below are what the four moves of an
operation do to it: a store behind the last element, a removal of the
first, and the two index advances.

`replay` runs a history of returned calls on the abstract FIFO and fails
as soon as a call returned something the FIFO would not have.
-/

namespace JowiAsio.Ringbuf

open Lib TaggedPtr
open Lib.Cyclic (next dist dist_lt dist_inj dist_next_left dist_next_self)

variable {D : DeleterSize}

/-- The word of a slot that holds an element, or none. -/
def slotWord : Option (UniquePtr D) → Word
  | none => null
  | some x => x.word

@[simp] theorem slotWord_none : slotWord (none : Option (UniquePtr D)) = null := rfl

@[simp] theorem slotWord_some (x : UniquePtr D) : slotWord (some x) = x.word := rfl

/-- A non-null pointer comes out of a slot as it went in, deleter included. -/
theorem nodeLoad_word {x : UniquePtr D} (hx : x.ptr ≠ 0) : nodeLoad D x.word = some x := by
  have hne : x.word ≠ null := pack_ne_null D.le_two hx x.deleter
  rw [nodeLoad, if_neg hne]
  simp [UniquePtr.word, D.le_two]

@[simp] theorem nodeLoad_null : nodeLoad D null = none := if_pos rfl

/-- The elements of `q` stand in the slots from `base` on, and every
other slot is empty. -/
def Holds (n base : ℕ) (nodes : List Word) (q : List (UniquePtr D)) : Prop :=
  nodes.length = n ∧ ∀ i < n, nodes[i]? = some (slotWord q[dist n base i]?)

theorem holds_replicate (n base : ℕ) :
    Holds n base (List.replicate n null) ([] : List (UniquePtr D)) :=
  ⟨List.length_replicate, fun i hi => by simp [hi]⟩

section

variable {n base : ℕ} {nodes : List Word} {q : List (UniquePtr D)}

/-- The slot behind the last element is empty. -/
theorem Holds.slot_free (h : Holds n base nodes q) {i : ℕ} (hi : i < n)
    (hd : dist n base i = q.length) : nodes[i]? = some null := by
  rw [h.2 i hi, hd]; simp

/-- Storing into the slot behind the last element appends. -/
theorem Holds.store (h : Holds n base nodes q) (hb : base < n) {i : ℕ} (hi : i < n)
    (hd : dist n base i = q.length) (x : UniquePtr D) :
    Holds n base (nodes.set i x.word) (q ++ [x]) := by
  refine ⟨by rw [List.length_set, h.1], fun j hj => ?_⟩
  rcases eq_or_ne j i with rfl | hne
  · rw [List.getElem?_set_self (by rw [h.1]; exact hi), hd]
    simp
  · have hdj : dist n base j ≠ q.length := fun e =>
      hne (dist_inj hb hj hi (e.trans hd.symm))
    rw [List.getElem?_set_ne hne.symm, h.2 j hj, List.getElem?_append]
    split_ifs with hlt
    · rfl
    · rw [List.getElem?_eq_none (by omega), List.getElem?_eq_none (by simp; omega)]

/-- The first element stands in the slot at `base`. -/
theorem Holds.first {x : UniquePtr D} (h : Holds n base nodes (x :: q)) (hb : base < n) :
    nodes[base]? = some x.word := by
  simpa using h.2 base hb

/-- Emptying the slot at `base` removes the first element. -/
theorem Holds.take {x : UniquePtr D} (h : Holds n base nodes (x :: q)) (hb : base < n)
    (hq : q.length + 1 < n) : Holds n (next n base) (nodes.set base null) q := by
  refine ⟨by rw [List.length_set, h.1], fun j hj => ?_⟩
  rcases eq_or_ne j base with rfl | hne
  · have := dist_next_self hb
    rw [List.getElem?_set_self (by rw [h.1]; exact hj),
      List.getElem?_eq_none (by omega), slotWord_none]
  · have hd := dist_next_left hb hj hne.symm
    rw [List.getElem?_set_ne hne.symm, h.2 j hj, ← hd, List.getElem?_cons_succ]

end

/-! ### The abstract FIFO -/

/-- What a returned call does to the abstract FIFO of at most `bound`
elements, or `none` when the FIFO would not have returned this. -/
def replayEvent (bound : ℕ) (q : List (UniquePtr D)) :
    Event D → Option (List (UniquePtr D))
  | .pushed x => Fifo.push bound q x
  | .tryPushed x back =>
      match Fifo.push bound q x with
      | some q' => if back = none then some q' else none
      | none => if back = some x then some q else none
  | .popped _ r => if r = (Fifo.pop q).1 then some (Fifo.pop q).2 else none

/-- The abstract FIFO after a history of returned calls. -/
def replay (bound : ℕ) (history : List (Event D)) : Option (List (UniquePtr D)) :=
  history.foldlM (replayEvent bound) []

theorem replay_append {bound : ℕ} {history : List (Event D)} {q : List (UniquePtr D)}
    (h : replay bound history = some q) (ev : Event D) :
    replay bound (history ++ [ev]) = replayEvent bound q ev := by
  rw [replay, List.foldlM_append, show List.foldlM (replayEvent bound) [] history = some q from h]
  simp

end JowiAsio.Ringbuf

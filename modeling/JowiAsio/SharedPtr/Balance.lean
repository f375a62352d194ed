import Mathlib.Algebra.Order.BigOperators.Group.List
import Mathlib.Data.List.Nodup
import Mathlib.Tactic.Ring
import JowiAsio.SharedPtr.Transitions

/-!
The references that a call in progress holds.

`Pc.balance pc q` is the number of references to `q` that the call holds
and that are in the count of `q`: each handle it will write and each
`Deallocator` it will run holds one, and each `fetch_add` it has yet to do
is one that is not counted. `Pc.Ok` relates the words of a loop to each
other, and says of each `fetch_add` why its `AllocData` is there: the call
holds another reference, or it is between the increment and the decrement
of the tag of a cell that does.

The lemmas about `Pc.attempt` are the case analysis of the five loops:
one that succeeds raises the tag, lowers it, or replaces a pointer whose
tag is zero, and in any case the references that the call and the cell
hold stay the same.
-/

namespace JowiAsio.SharedPtr

open Lib TaggedPtr

variable {H Cell : Type}

/-- One reference to `p`. -/
def holds (p q : Addr) : ℤ := if p = q then 1 else 0

@[simp] theorem holds_self (p : Addr) : holds p p = 1 := if_pos rfl

theorem holds_nonneg (p q : Addr) : 0 ≤ holds p q := by
  unfold holds
  split_ifs <;> omega

/-- The null pointer, as `simp` writes it. -/
theorem holds_zero {q : Addr} (hq : q ≠ 0) : holds 0#48 q = 0 := if_neg fun h => hq h.symm

def Pc.balance : Pc H Cell → Addr → ℤ
  | .ret r, q => (r.writes.map fun w => holds w.2 q).sum
  | .incr p k, q => k.balance q - holds p q
  | .drop p _ _ k, q => k.balance q + holds p q
  | .load _ _ _ _, _ => 0
  | .loadDown _ _ des _, q => holds (addr des) q
  | .exchange _ _ des _, q => holds (addr des) q
  | .store _ _ des p _, q => holds (addr des) q + holds p q
  | .cas _ _ _ _ pe pd wrapped, q => holds pe q + holds pd q + if wrapped then holds pd q else 0
  | .casDown _ _ _ k, q => k.balance q

/-- The handles that the call has taken. -/
def Pc.locks : Pc H Cell → List H
  | .ret r => r.writes.map Prod.fst
  | .incr _ k | .drop _ _ _ k | .casDown _ _ _ k => k.locks
  | .load _ _ _ h | .loadDown _ _ _ h | .exchange _ _ _ h => [h]
  | .store _ _ _ _ _ => []
  | .cas _ _ _ e _ _ _ => [e]

/-- The cell that the call will destroy. -/
def Pc.closes : Pc H Cell → Option Cell
  | .store c _ _ _ true => some c
  | .incr _ k | .drop _ _ _ k => k.closes
  | _ => none

def Pc.Ok : Pc H Cell → Prop
  | .ret r => (r.writes.map Prod.fst).Nodup
  | .incr p k =>
      p ≠ 0 ∧ (2 ≤ k.balance p ∨ 1 ≤ k.balance p ∧ ∃ c, k.deferred = some (c, p)) ∧ k.Ok
  | .drop p cur des k => p ≠ 0 ∧ cur = des + 1 ∧ k.Ok
  | .load _ cur des _ => des = tagUp cur
  | .loadDown _ cur des _ => des = tagDown cur
  | .exchange _ cur des _ => tag 6 2 cur = 0 ∧ tag 6 2 des = 0
  | .store _ cur des _ closing =>
      tag 6 2 cur = 0 ∧ tag 6 2 des = 0 ∧ (closing = true → addr des = 0)
  | .cas _ cur des _ pe pd _ =>
      (cur = untagged pe ∧ des = untagged pd) ∨ (addr cur ≠ pe ∧ des = tagUp cur)
  | .casDown _ cur des k => des = tagDown cur ∧ k.deferred = none ∧ k.cell = none ∧ k.Ok

/-! ### Steps that a null pointer makes unnecessary -/

section

variable {p q : Addr} {k : Pc H Cell}

@[simp] theorem Pc.copy_locks : (Pc.copy p k).locks = k.locks := by
  unfold Pc.copy
  split_ifs <;> rfl

@[simp] theorem Pc.dealloc_locks : (Pc.dealloc p k).locks = k.locks := by
  unfold Pc.dealloc
  split_ifs <;> rfl

@[simp] theorem Pc.copy_cell : (Pc.copy p k).cell = k.cell := by
  unfold Pc.copy
  split_ifs <;> rfl

@[simp] theorem Pc.dealloc_cell : (Pc.dealloc p k).cell = k.cell := by
  unfold Pc.dealloc
  split_ifs <;> rfl

@[simp] theorem Pc.copy_deferred : (Pc.copy p k).deferred = k.deferred := by
  unfold Pc.copy
  split_ifs <;> rfl

@[simp] theorem Pc.dealloc_deferred : (Pc.dealloc p k).deferred = k.deferred := by
  unfold Pc.dealloc
  split_ifs <;> rfl

@[simp] theorem Pc.copy_closes : (Pc.copy p k).closes = k.closes := by
  unfold Pc.copy
  split_ifs <;> rfl

@[simp] theorem Pc.dealloc_closes : (Pc.dealloc p k).closes = k.closes := by
  unfold Pc.dealloc
  split_ifs <;> rfl

theorem Pc.copy_balance (hq : q ≠ 0) : (Pc.copy p k).balance q = k.balance q - holds p q := by
  unfold Pc.copy
  split_ifs with hp
  · rw [hp, show holds 0 q = 0 from holds_zero hq, sub_zero]
  · rfl

theorem Pc.dealloc_balance (hq : q ≠ 0) :
    (Pc.dealloc p k).balance q = k.balance q + holds p q := by
  unfold Pc.dealloc
  split_ifs with hp
  · rw [hp, show holds 0 q = 0 from holds_zero hq, add_zero]
  · rfl

theorem Pc.Ok.copy (hk : k.Ok)
    (h : p ≠ 0 → 2 ≤ k.balance p ∨ 1 ≤ k.balance p ∧ ∃ c, k.deferred = some (c, p)) :
    (Pc.copy p k).Ok := by
  unfold Pc.copy
  split_ifs with hp
  · exact hk
  · exact ⟨hp, h hp, hk⟩

theorem Pc.Ok.dealloc (hk : k.Ok) : (Pc.dealloc p k).Ok := by
  unfold Pc.dealloc
  split_ifs with hp
  · exact hk
  · exact ⟨hp, rfl, hk⟩

/-- What a call may begin with: nothing is deferred, and no cell is closed
yet. -/
structure Pc.Opens (k : Pc H Cell) : Prop where
  ok : k.Ok
  deferred : k.deferred = none
  closes : k.closes = none

theorem Pc.opens_ret {r : Result H} (hr : (Pc.ret r : Pc H Cell).Ok) :
    (Pc.ret r : Pc H Cell).Opens :=
  ⟨hr, rfl, rfl⟩

theorem Pc.Opens.copy (hk : k.Opens) (h : p ≠ 0 → 2 ≤ k.balance p) : (Pc.copy p k).Opens where
  ok := hk.ok.copy fun hp => .inl (h hp)
  deferred := Pc.copy_deferred.trans hk.deferred
  closes := Pc.copy_closes.trans hk.closes

theorem Pc.Opens.dealloc (hk : k.Opens) : (Pc.dealloc p k).Opens where
  ok := hk.ok.dealloc
  deferred := Pc.dealloc_deferred.trans hk.deferred
  closes := Pc.dealloc_closes.trans hk.closes

/-- No call has a debt. -/
theorem Pc.Ok.balance_nonneg {pc : Pc H Cell} (h : pc.Ok) (q : Addr) : 0 ≤ pc.balance q := by
  induction pc with
  | ret r =>
      refine List.sum_nonneg fun x hx => ?_
      obtain ⟨w, -, rfl⟩ := List.mem_map.1 hx
      exact holds_nonneg _ _
  | incr p k ih =>
      obtain ⟨-, hp, hk⟩ := h
      have hle := ih hk
      simp only [balance]
      by_cases hpq : p = q
      · subst hpq
        rw [holds_self]
        omega
      · rw [holds, if_neg hpq]
        omega
  | drop p cur des k ih =>
      have hle := ih h.2.2
      have hone := holds_nonneg p q
      simp only [balance]
      omega
  | load => exact le_refl _
  | loadDown | exchange => exact holds_nonneg _ _
  | store => exact add_nonneg (holds_nonneg _ _) (holds_nonneg _ _)
  | cas c cur des e pe pd wrapped =>
      have he := holds_nonneg pe q
      have hd := holds_nonneg pd q
      simp only [balance]
      split_ifs <;> omega
  | casDown c cur des k ih => exact ih h.2.2.2

end

/-! ### Return of `compare_exchange` -/

section

variable {e : H} {p pd q : Addr} {wrapped b : Bool}

theorem Pc.casReturn_ok : (Pc.casReturn e p pd wrapped b : Pc H Cell).Ok := by
  unfold Pc.casReturn
  split_ifs
  · exact Pc.Ok.dealloc (List.nodup_singleton e)
  · exact List.nodup_singleton e

@[simp] theorem Pc.casReturn_locks : (Pc.casReturn e p pd wrapped b : Pc H Cell).locks = [e] := by
  unfold Pc.casReturn
  split_ifs <;> simp [Pc.locks]

@[simp] theorem Pc.casReturn_cell : (Pc.casReturn e p pd wrapped b : Pc H Cell).cell = none := by
  unfold Pc.casReturn
  split_ifs <;> simp [Pc.cell]

@[simp] theorem Pc.casReturn_deferred :
    (Pc.casReturn e p pd wrapped b : Pc H Cell).deferred = none := by
  unfold Pc.casReturn
  split_ifs <;> simp [Pc.deferred]

@[simp] theorem Pc.casReturn_closes :
    (Pc.casReturn e p pd wrapped b : Pc H Cell).closes = none := by
  unfold Pc.casReturn
  split_ifs <;> simp [Pc.closes]

theorem Pc.casReturn_balance (hq : q ≠ 0) :
    (Pc.casReturn e p pd wrapped b : Pc H Cell).balance q =
      holds p q + if wrapped then holds pd q else 0 := by
  unfold Pc.casReturn
  split_ifs with hw
  · simp [Pc.dealloc_balance hq, Pc.balance]
  · simp [Pc.balance]

end

/-! ### The loops on the word of a cell -/

section

variable {pc : Pc H Cell} {a : Attempt H Cell}

theorem attempt_cell (ha : pc.attempt = some a) : pc.cell = some a.cell := by
  cases pc <;> simp only [Pc.attempt, reduceCtorEq, Option.some.injEq] at ha <;> subst ha <;> rfl

/-- A call that is deferred works on the cell. -/
theorem cell_of_deferred {c : Cell} {p : Addr} (h : pc.deferred = some (c, p)) :
    pc.cell = some c := by
  induction pc with
  | incr p k ih => exact ih h
  | drop p cur des k ih => exact ih h
  | loadDown | casDown =>
      simp only [Pc.deferred, Option.some.injEq, Prod.mk.injEq] at h
      exact congrArg some h.1
  | _ => cases h

theorem cell_of_closes {c : Cell} (h : pc.closes = some c) : pc.cell = some c := by
  induction pc with
  | incr p k ih => exact ih h
  | drop p cur des k ih => exact ih h
  | store c' cur des p closing =>
      cases closing
      · cases h
      · exact h
  | _ => cases h

theorem attempt_closes (ha : pc.attempt = some a) :
    pc.closes = if a.closes then some a.cell else none := by
  cases pc with
  | store c cur des p closing =>
      cases ha
      cases closing <;> rfl
  | _ =>
      simp only [Pc.attempt, reduceCtorEq, Option.some.injEq] at ha
      try subst ha; rfl

/-- The three things that a compare-exchange on a word can do. -/
theorem attempt_kind (hok : pc.Ok) (ha : pc.attempt = some a)
    (hroom : a.des = tagUp a.cur → tag 6 2 a.des ≠ 0) :
    (pc.deferred = none ∧ a.won.deferred = some (a.cell, addr a.cur) ∧ a.des = tagUp a.cur ∧
        a.closes = false) ∨
      (pc.deferred = some (a.cell, addr a.cur) ∧ a.won.deferred = none ∧
        a.des = tagDown a.cur ∧ a.closes = false) ∨
      (pc.deferred = none ∧ a.won.deferred = none ∧ tag 6 2 a.cur = 0 ∧ tag 6 2 a.des = 0 ∧
        (a.closes = true → addr a.des = 0)) := by
  cases pc with
  | ret | incr | drop => cases ha
  | load c cur des h =>
      cases ha
      obtain rfl : des = tagUp cur := hok
      exact .inl ⟨rfl, by simp [Pc.deferred], rfl, rfl⟩
  | loadDown c cur des h =>
      cases ha
      exact .inr (.inl ⟨rfl, rfl, hok, rfl⟩)
  | exchange c cur des h =>
      cases ha
      exact .inr (.inr ⟨rfl, rfl, hok.1, hok.2, by simp⟩)
  | store c cur des p closing =>
      cases ha
      exact .inr (.inr ⟨rfl, by simp [Pc.deferred], hok.1, hok.2.1, hok.2.2⟩)
  | cas c cur des e pe pd wrapped =>
      cases ha
      rcases hok with ⟨rfl, rfl⟩ | ⟨hne, rfl⟩
      · exact .inr (.inr ⟨rfl, by simp, by simp, by simp, by simp⟩)
      -- without room the raised tag could be zero, which the source reads as a swap
      · dsimp only
        rw [if_neg (hroom rfl)]
        exact .inl ⟨rfl, by simp [Pc.deferred], rfl, rfl⟩
  | casDown c cur des k =>
      cases ha
      exact .inr (.inl ⟨rfl, hok.2.1, hok.1, rfl⟩)

theorem attempt_won_locks (ha : pc.attempt = some a) : a.won.locks = pc.locks := by
  cases pc with
  | ret | incr | drop => cases ha
  | cas c cur des e pe pd wrapped =>
      cases ha
      dsimp only
      split_ifs <;> simp [Pc.locks]
  | _ =>
      cases ha
      simp [Pc.locks]

/-- After a compare-exchange that succeeds the call is done with the cell,
or has its second loop to do. -/
theorem attempt_won_cell (hok : pc.Ok) (ha : pc.attempt = some a) :
    (a.won.cell = none ∨ a.won.cell = some a.cell ∧ a.closes = false) ∧ a.won.closes = none := by
  cases pc with
  | ret | incr | drop => cases ha
  | cas c cur des e pe pd wrapped =>
      cases ha
      dsimp only
      split_ifs <;> simp [Pc.cell, Pc.closes]
  | casDown c cur des k =>
      cases ha
      refine ⟨.inl hok.2.2.1, Option.eq_none_iff_forall_ne_some.2 fun c' hc => ?_⟩
      have hcell := cell_of_closes hc
      rw [hok.2.2.1] at hcell
      cases hcell
  | _ =>
      cases ha
      simp [Pc.cell, Pc.closes]

/-- A compare-exchange that succeeds moves references between the call and
the cell. -/
theorem attempt_won_balance (hok : pc.Ok) (ha : pc.attempt = some a)
    (hroom : a.des = tagUp a.cur → tag 6 2 a.des ≠ 0) {q : Addr} (hq : q ≠ 0) :
    a.won.balance q + holds (addr a.des) q = pc.balance q + holds (addr a.cur) q := by
  cases pc with
  | ret | incr | drop => cases ha
  | load c cur des h =>
      cases ha
      obtain rfl : des = tagUp cur := hok
      simp [Pc.copy_balance hq, Pc.balance]
  | loadDown c cur des h =>
      cases ha
      obtain rfl : des = tagDown cur := hok
      simp [Pc.balance]
  | exchange c cur des h =>
      cases ha
      simp [Pc.balance, add_comm]
  | store c cur des p closing =>
      cases ha
      simp only [Pc.dealloc_balance hq, Pc.balance, List.map_nil, List.sum_nil]
      omega
  | cas c cur des e pe pd wrapped =>
      cases ha
      rcases hok with ⟨rfl, rfl⟩ | ⟨hne, rfl⟩
      · simp only [tag_untagged, if_true, addr_untagged, Pc.dealloc_balance hq,
          Pc.casReturn_balance hq, Pc.balance]
        omega
      · simp only [if_neg (hroom rfl), Pc.dealloc_balance hq, Pc.copy_balance hq,
          Pc.casReturn_balance hq, Pc.balance, addr_tagUp]
        omega
  | casDown c cur des k =>
      cases ha
      obtain rfl : des = tagDown cur := hok.1
      simp [Pc.balance]

theorem attempt_won_ok (hok : pc.Ok) (ha : pc.attempt = some a) : a.won.Ok := by
  cases pc with
  | ret | incr | drop => cases ha
  | load c cur des h =>
      cases ha
      refine Pc.Ok.copy rfl fun _ => .inr ⟨?_, c, ?_⟩
      · simp [Pc.balance]
      · simp [Pc.deferred]
  | loadDown c cur des h | exchange c cur des h =>
      cases ha
      exact List.nodup_singleton h
  | store c cur des p closing =>
      cases ha
      exact Pc.Ok.dealloc (Pc.Ok.dealloc List.nodup_nil)
  | cas c cur des e pe pd wrapped =>
      cases ha
      dsimp only
      split_ifs
      · exact Pc.Ok.dealloc Pc.casReturn_ok
      · refine Pc.Ok.dealloc (Pc.Ok.copy ⟨rfl, by simp, by simp, Pc.Ok.dealloc Pc.casReturn_ok⟩ ?_)
        refine fun hne => .inr ⟨?_, c, ?_⟩
        · simp only [Pc.balance, Pc.dealloc_balance hne, Pc.casReturn_balance hne, holds_self]
          have hpd := holds_nonneg pd (addr des)
          split_ifs <;> omega
        · simp [Pc.deferred]
  | casDown c cur des k =>
      cases ha
      exact hok.2.2.2

/-- A compare-exchange that fails changes the two operands of the loop. A
loop that lowers the tag takes its pointer from the word it has read, so
that has to be the pointer it knew. -/
theorem attempt_lost (hok : pc.Ok) (ha : pc.attempt = some a) (w : Word)
    (hpointer : ∀ c p, pc.deferred = some (c, p) → addr w = p) :
    (a.lost w).Ok ∧ (a.lost w).locks = pc.locks ∧ (a.lost w).cell = pc.cell ∧
      (a.lost w).closes = pc.closes ∧ (a.lost w).deferred = pc.deferred ∧
      ∀ q, (a.lost w).balance q = pc.balance q := by
  cases pc with
  | ret | incr | drop => cases ha
  | load c cur des h =>
      cases ha
      exact ⟨rfl, rfl, rfl, rfl, rfl, fun _ => rfl⟩
  | loadDown c cur des h =>
      cases ha
      obtain rfl : des = tagDown cur := hok
      have hw := hpointer c (addr cur) rfl
      exact ⟨rfl, rfl, rfl, rfl, by simp [Pc.deferred, hw], fun q => by simp [Pc.balance, hw]⟩
  | exchange c cur des h =>
      cases ha
      exact ⟨⟨tag_untagged _, hok.2⟩, rfl, rfl, rfl, rfl, fun _ => rfl⟩
  | store c cur des p closing =>
      cases ha
      exact ⟨⟨tag_untagged _, hok.2⟩, rfl, rfl, by cases closing <;> rfl, rfl, fun _ => rfl⟩
  | cas c cur des e pe pd wrapped =>
      cases ha
      dsimp only
      split_ifs with he
      · exact ⟨.inl ⟨rfl, rfl⟩, rfl, rfl, rfl, rfl, fun _ => rfl⟩
      · exact ⟨.inr ⟨he, rfl⟩, rfl, rfl, rfl, rfl, fun _ => rfl⟩
  | casDown c cur des k =>
      cases ha
      have hw := hpointer c (addr cur) rfl
      exact ⟨⟨rfl, hok.2⟩, rfl, rfl, rfl, by simp [Pc.deferred, hw], fun _ => rfl⟩

end

end JowiAsio.SharedPtr

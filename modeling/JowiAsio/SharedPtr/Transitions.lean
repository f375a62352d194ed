import JowiAsio.SharedPtr.Model

/-!
What one step of a thread can do.

`Trans` lists the outcomes of a step with the facts that select each of
them, and `step_trans` derives it from the executable `step`. A
compare-exchange on the word of a cell has two outcomes, `won` and `lost`,
for the five loops together.
-/

namespace JowiAsio.SharedPtr

open Lib TaggedPtr

variable {Tid H Cell : Type}

/-! ### Words -/

@[simp] theorem addr_tagUp (w : Word) : addr (tagUp w) = addr w := addr_pack (Nat.le_refl 2) _ _

@[simp] theorem tag_tagUp (w : Word) : tag 6 2 (tagUp w) = tag 6 2 w + 1 :=
  tag_pack (Nat.le_refl 2) _ _

@[simp] theorem addr_tagDown (w : Word) : addr (tagDown w) = addr w :=
  addr_pack (Nat.le_refl 2) _ _

@[simp] theorem tag_tagDown (w : Word) : tag 6 2 (tagDown w) = tag 6 2 w - 1 :=
  tag_pack (Nat.le_refl 2) _ _

@[simp] theorem addr_untagged (p : Addr) : addr (untagged p) = p := addr_pack (Nat.le_refl 2) _ _

@[simp] theorem tag_untagged (p : Addr) : tag 6 2 (untagged p) = 0 := tag_pack (Nat.le_refl 2) _ _

theorem tagUp_null : tagUp null = pack 0 (1 : BitVec (8 * 2)) := by
  rw [tagUp, addr_null, tag_null]
  rfl

@[simp] theorem CellState.word_setWord (x : CellState) (w : Word) :
    (x.setWord w).word = x.word.map fun _ => w := by
  cases x <;> rfl

/-! ### Reading an updated state -/

namespace State

variable (s : State Tid H Cell)

section

variable [DecidableEq Tid] (t : Tid) (pc : Pc H Cell)

@[simp] theorem goto_handles : (s.goto t pc).handles = s.handles := rfl

@[simp] theorem goto_cells : (s.goto t pc).cells = s.cells := rfl

@[simp] theorem goto_heap : (s.goto t pc).heap = s.heap := rfl

@[simp] theorem goto_pcs : (s.goto t pc).pcs = Function.update s.pcs t (some pc) := rfl

@[simp] theorem goto_flags : (s.goto t pc).flags = s.flags := rfl

@[simp] theorem goto_crashed : (s.goto t pc).crashed = s.crashed := rfl

end

section

variable [DecidableEq H] (h : H) (x : Handle)

@[simp] theorem setHandle_handles : (s.setHandle h x).handles = Function.update s.handles h x := rfl

@[simp] theorem setHandle_cells : (s.setHandle h x).cells = s.cells := rfl

@[simp] theorem setHandle_heap : (s.setHandle h x).heap = s.heap := rfl

@[simp] theorem setHandle_pcs : (s.setHandle h x).pcs = s.pcs := rfl

@[simp] theorem setHandle_flags : (s.setHandle h x).flags = s.flags := rfl

@[simp] theorem setHandle_crashed : (s.setHandle h x).crashed = s.crashed := rfl

end

section

variable [DecidableEq Cell] (c : Cell) (y : CellState)

@[simp] theorem setCell_handles : (s.setCell c y).handles = s.handles := rfl

@[simp] theorem setCell_cells : (s.setCell c y).cells = Function.update s.cells c y := rfl

@[simp] theorem setCell_heap : (s.setCell c y).heap = s.heap := rfl

@[simp] theorem setCell_pcs : (s.setCell c y).pcs = s.pcs := rfl

@[simp] theorem setCell_flags : (s.setCell c y).flags = s.flags := rfl

@[simp] theorem setCell_crashed : (s.setCell c y).crashed = s.crashed := rfl

end

section

variable (p : Addr) (n : Option ℕ)

@[simp] theorem setHeap_handles : (s.setHeap p n).handles = s.handles := rfl

@[simp] theorem setHeap_cells : (s.setHeap p n).cells = s.cells := rfl

@[simp] theorem setHeap_heap : (s.setHeap p n).heap = Function.update s.heap p n := rfl

@[simp] theorem setHeap_pcs : (s.setHeap p n).pcs = s.pcs := rfl

@[simp] theorem setHeap_flags : (s.setHeap p n).flags = s.flags := rfl

@[simp] theorem setHeap_crashed : (s.setHeap p n).crashed = s.crashed := rfl

end

end State

/-! ### The outcomes of a step -/

section

variable [DecidableEq Tid] [DecidableEq H] [DecidableEq Cell] [Fintype Tid]

inductive Trans (s : State Tid H Cell) (t : Tid) : Act H Cell → State Tid H Cell → Prop
  | begin {s' : State Tid H Cell} (op : Op H Cell) (hpc : s.pcs t = none)
      (hbegin : begin s t op = some s') : Trans s t (.begin op) s'
  | ret {r : Result H} {b : Bool} (hpc : s.pcs t = some (.ret r)) :
      Trans s t (.go b) (s.finish t r)
  | incr {p : Addr} {k : Pc H Cell} {n : ℕ} {b : Bool} (hpc : s.pcs t = some (.incr p k))
      (hn : s.heap p = some n) : Trans s t (.go b) ((s.setHeap p (some (n + 1))).goto t k)
  | free {p : Addr} {k : Pc H Cell} {b : Bool} (hpc : s.pcs t = some (.drop p 1 0 k))
      (hn : s.heap p = some 1) : Trans s t (.go b) ((s.setHeap p none).goto t k)
  | decr {p : Addr} {cur des : ℕ} {k : Pc H Cell} {b : Bool}
      (hpc : s.pcs t = some (.drop p cur des k)) (hn : s.heap p = some cur)
      (hlast : ¬ (cur = 1 ∧ des = 0)) :
      Trans s t (.go b) ((s.setHeap p (some des)).goto t k)
  | again {p : Addr} {cur des n : ℕ} {k : Pc H Cell} {b : Bool}
      (hpc : s.pcs t = some (.drop p cur des k)) (hn : s.heap p = some n) :
      Trans s t (.go b) (s.goto t (.drop p n (n - 1) k))
  | won {pc : Pc H Cell} {a : Attempt H Cell} (hpc : s.pcs t = some pc)
      (ha : pc.attempt = some a) (hw : (s.cells a.cell).word = some a.cur) :
      Trans s t (.go false) ((s.setCell a.cell
        (if a.closes then .absent else (s.cells a.cell).setWord a.des)).goto t a.won)
  | lost {pc : Pc H Cell} {a : Attempt H Cell} {w : Word} {b : Bool} (hpc : s.pcs t = some pc)
      (ha : pc.attempt = some a) (hw : (s.cells a.cell).word = some w)
      (hfail : w = a.cur → b = true) : Trans s t (.go b) (s.goto t (a.lost w))
  | crashIncr {p : Addr} {k : Pc H Cell} {b : Bool} (hpc : s.pcs t = some (.incr p k))
      (hn : s.heap p = none) : Trans s t (.go b) s.crash
  | crashDrop {p : Addr} {cur des : ℕ} {k : Pc H Cell} {b : Bool}
      (hpc : s.pcs t = some (.drop p cur des k)) (hn : s.heap p = none) :
      Trans s t (.go b) s.crash
  | crashCell {pc : Pc H Cell} {a : Attempt H Cell} {b : Bool} (hpc : s.pcs t = some pc)
      (ha : pc.attempt = some a) (hw : (s.cells a.cell).word = none) : Trans s t (.go b) s.crash

variable {s s' : State Tid H Cell} {t : Tid}

theorem attempt_trans {spurious : Bool} {pc : Pc H Cell} {a : Attempt H Cell}
    (hpc : s.pcs t = some pc) (ha : pc.attempt = some a) :
    Trans s t (.go spurious) (s.attempt t spurious a) := by
  unfold State.attempt
  cases hw : (s.cells a.cell).word with
  | none => exact .crashCell hpc ha hw
  | some w =>
      rcases casWeak_cases spurious w a.cur a.des with ⟨rfl, rfl, hcas⟩ | ⟨hfail, hcas⟩
      · simp only [hcas, if_true]
        exact .won hpc ha hw
      · simp only [hcas, Bool.false_eq_true, if_false]
        exact .lost hpc ha hw hfail

theorem dealloc_trans {spurious : Bool} {p : Addr} {cur des : ℕ} {k : Pc H Cell}
    (hpc : s.pcs t = some (.drop p cur des k)) :
    Trans s t (.go spurious) (s.dealloc t spurious p cur des k) := by
  unfold State.dealloc
  cases hn : s.heap p with
  | none => exact .crashDrop hpc hn
  | some n =>
      rcases casWeak_cases spurious n cur des with ⟨rfl, -, hcas⟩ | ⟨-, hcas⟩
      · simp only [hcas, if_true]
        by_cases hlast : n = 1 ∧ des = 0
        · obtain ⟨rfl, rfl⟩ := hlast
          exact .free hpc hn
        · rw [if_neg hlast]
          exact .decr hpc hn hlast
      · simp only [hcas, Bool.false_eq_true, if_false]
        exact .again hpc hn

theorem step_trans {act : Act H Cell} (hs : step s (t, act) = some s') :
    Trans s t act s' ∧ s.crashed = false := by
  cases act with
  | begin op =>
      simp only [step] at hs
      split_ifs at hs with hguard
      simp only [not_or, Bool.not_eq_true, Option.isSome_eq_false_iff,
        Option.isNone_iff_eq_none] at hguard
      exact ⟨.begin op hguard.2 hs, hguard.1⟩
  | go spurious =>
      simp only [step] at hs
      split_ifs at hs with hcrashed
      rw [Bool.not_eq_true] at hcrashed
      obtain ⟨pc, hpc, rfl⟩ := Option.map_eq_some_iff.1 hs
      refine ⟨?_, hcrashed⟩
      cases pc with
      | ret r => exact .ret hpc
      | incr p k =>
          simp only [State.exec]
          cases hn : s.heap p with
          | none => exact .crashIncr hpc hn
          | some n => exact .incr hpc hn
      | drop p cur des k => exact dealloc_trans hpc
      | _ => exact attempt_trans hpc rfl

end

end JowiAsio.SharedPtr

import JowiAsio.SharedPtr.Register

/-!
The machine of `shared_ptr.cc` refines the register of pointers.

A step other than a begin or a return changes neither the pointers of the
cells nor the status of its call, except for one compare-exchange of each
call on a cell, which has the effect that the specification gives it. For
`load` and a `compare_exchange` that returns false this is the one that
raises the tag, since the call reads the pointer with it.
-/

namespace JowiAsio.SharedPtr

open Lib TaggedPtr

variable {Tid H Cell : Type}

/-! ### The status of a call -/

section

variable {pc k : Pc H Cell} {a : Attempt H Cell} {p : Addr}

@[simp] theorem Pc.copy_status : (Pc.copy p k).status = k.status := by
  unfold Pc.copy
  split_ifs <;> rfl

@[simp] theorem Pc.dealloc_status : (Pc.dealloc p k).status = k.status := by
  unfold Pc.dealloc
  split_ifs <;> rfl

@[simp] theorem Pc.casReturn_status {e : H} {pd : Addr} {wrapped b : Bool} :
    (Pc.casReturn e p pd wrapped b : Pc H Cell).status = .done ⟨[(e, p)], some b⟩ := by
  unfold Pc.casReturn
  split_ifs <;> simp [Pc.status]

/-- A call that is done with its cell has taken effect. -/
theorem isCalled_of_cell (h : pc.cell = none) : pc.status.isCalled = false := by
  induction pc with
  | ret r => rfl
  | incr p k ih => exact ih h
  | drop p cur des k ih => exact ih h
  | _ => cases h

theorem attempt_lost_status (hok : pc.Ok) (ha : pc.attempt = some a) (w : Word)
    (hpointer : ∀ c p, pc.deferred = some (c, p) → addr w = p) :
    (a.lost w).status = pc.status := by
  cases pc with
  | ret | incr | drop => cases ha
  | loadDown c cur des h =>
      cases ha
      obtain rfl : des = tagDown cur := hok
      simp [Pc.status, hpointer c (addr cur) rfl]
  | cas c cur des e pe pd wrapped =>
      cases ha
      dsimp only
      split_ifs <;> rfl
  | _ =>
      cases ha
      rfl

/-- A compare-exchange that succeeds is the effect of its call, or lowers
the tag after it. -/
theorem attempt_won_status (hok : pc.Ok) (ha : pc.attempt = some a)
    (hroom : a.des = tagUp a.cur → tag 6 2 a.des ≠ 0) :
    (∃ call r, pc.status = .called call ∧ call.cell = a.cell ∧
        call.lin (addr a.cur) = (if a.closes then none else some (addr a.des), r) ∧
        a.won.status = .done r) ∨
      (pc.status.isCalled = false ∧ a.won.status = pc.status ∧ addr a.des = addr a.cur ∧
        a.closes = false) := by
  cases pc with
  | ret | incr | drop => cases ha
  | load c cur des h =>
      cases ha
      obtain rfl : des = tagUp cur := hok
      exact .inl ⟨.load c h, ⟨[(h, addr cur)], none⟩, rfl, rfl, by simp [Call.lin],
        by simp [Pc.status]⟩
  | loadDown c cur des h =>
      cases ha
      obtain rfl : des = tagDown cur := hok
      exact .inr ⟨rfl, rfl, addr_tagDown cur, rfl⟩
  | exchange c cur des h =>
      cases ha
      exact .inl ⟨.exchange c h (addr des), _, rfl, rfl, rfl, rfl⟩
  | store c cur des p closing =>
      cases ha
      cases closing with
      | true => exact .inl ⟨.destroy c, _, rfl, rfl, rfl, by simp [Pc.status]⟩
      | false => exact .inl ⟨.store c (addr des), _, rfl, rfl, rfl, by simp [Pc.status]⟩
  | cas c cur des e pe pd wrapped =>
      cases ha
      refine .inl ⟨.compareExchange c e pe pd, ?_⟩
      -- the two modes of the loop: to swap, or to read the pointer that is not `e`
      rcases hok with ⟨rfl, rfl⟩ | ⟨hne, rfl⟩
      · exact ⟨⟨[(e, pe)], some true⟩, rfl, rfl, by simp [Call.lin], by simp⟩
      · refine ⟨⟨[(e, addr cur)], some false⟩, rfl, rfl, by simp [Call.lin, hne], ?_⟩
        dsimp only
        rw [if_neg (hroom rfl)]
        simp [Pc.status]
  | casDown c cur des k =>
      cases ha
      obtain ⟨rfl, -, hcell, -⟩ := hok
      have hdone : k.status.isCalled = false := isCalled_of_cell hcell
      exact .inr ⟨hdone, rfl, addr_tagDown cur, rfl⟩

end

/-! ### The registers of an updated state -/

section

variable (s : State Tid H Cell)

@[simp] theorem registers_goto [DecidableEq Tid] (t : Tid) (pc : Pc H Cell) :
    (s.goto t pc).registers = s.registers.goto t pc.status := by
  simp only [State.registers, Registers.goto, State.goto_handles, State.goto_cells,
    State.goto_flags, State.goto_pcs, Registers.mk.injEq, true_and, and_true]
  funext u
  simp only [Function.update_apply]
  split_ifs <;> rfl

@[simp] theorem registers_setHandle [DecidableEq H] (h : H) (x : Handle) :
    (s.setHandle h x).registers = s.registers.setHandle h x := rfl

@[simp] theorem registers_setCell [DecidableEq Cell] (c : Cell) (x : CellState) :
    (s.setCell c x).registers = s.registers.setReg c x.reg := by
  simp only [State.registers, Registers.setReg, State.setCell_handles, State.setCell_cells,
    State.setCell_flags, State.setCell_pcs, Registers.mk.injEq, true_and, and_true]
  funext d
  simp only [Function.update_apply]
  split_ifs <;> rfl

@[simp] theorem registers_setHeap (p : Addr) (n : Option ℕ) :
    (s.setHeap p n).registers = s.registers := rfl

@[simp] theorem registers_handles : s.registers.handles = s.handles := rfl

@[simp] theorem registers_regs (c : Cell) : s.registers.regs c = (s.cells c).reg := rfl

theorem registers_status {t : Tid} {pc : Pc H Cell} (h : s.pcs t = some pc) :
    s.registers.status t = pc.status := by
  simp [State.registers, h]

theorem registers_idle {t : Tid} (h : s.pcs t = none) : s.registers.status t = .idle := by
  simp [State.registers, h]

@[simp] theorem reg_pointer (x : CellState) : x.reg.pointer = x.word.map addr := by
  cases x <;> rfl

/-- The status of a call that goes on without an effect. -/
theorem registers_goto_same [DecidableEq Tid] {t : Tid} {pc k : Pc H Cell}
    (hpc : s.pcs t = some pc) (hk : k.status = pc.status) :
    s.registers.goto t k.status = s.registers := by
  rw [hk, ← registers_status s hpc, Registers.goto, Function.update_eq_self]

end

/-! ### One step -/

section

/-- A step of a call is at most one of the specification, of the same
thread. -/
theorem lift_own (s : State Tid H Cell) (l : Tid × Act H Cell) :
    (lift s l).length ≤ 1 ∧ ∀ m ∈ lift s l, m.1 = l.1 := by
  obtain ⟨t, act⟩ := l
  cases act with
  | begin op => simp [lift]
  | go spurious =>
      simp only [lift]
      split
      · simp
      · simp
      · split
        · simp
        · split_ifs <;> simp

variable [DecidableEq Tid] [DecidableEq H] [DecidableEq Cell] {s s' : State Tid H Cell} {t : Tid}
  {act : Act H Cell} {pc : Pc H Cell}

/-- A step without an effect. -/
theorem simulates_silent {k : Pc H Cell} (hpc : s.pcs t = some pc) (hk : k.status = pc.status)
    (hlift : lift s (t, act) = []) :
    run Registers.step s.registers (lift s (t, act)) = some (s.goto t k).registers := by
  rw [hlift, run_nil, registers_goto, registers_goto_same s hpc hk]

variable [Fintype Tid]

/-- The specification begins the same calls. -/
theorem registers_begin {op : Op H Cell} (hb : begin s t op = some s') :
    s.registers.begin t op = some s'.registers := by
  cases op with
  | construct h p =>
      simp only [begin] at hb
      split_ifs at hb with hguard hp
      all_goals
        cases hb
        simp [Registers.begin, hguard.1, Pc.status]
  | copy h o | move h o | copyAssign h o | moveAssign h o =>
      simp only [begin] at hb
      split at hb
      · rename_i hh ho
        cases hb
        simp [Registers.begin, hh, ho, Pc.status]
      · cases hb
  | reset h | destroy h =>
      simp only [begin] at hb
      split at hb
      · rename_i hh
        cases hb
        simp [Registers.begin, hh, Pc.status]
      · cases hb
  | atomic c d | load c h | store c d =>
      simp only [begin] at hb
      split at hb
      · rename_i hc hd
        cases hb
        simp [Registers.begin, hc, hd, Pc.status, CellState.reg]
      · cases hb
  | exchange c d h =>
      simp only [begin] at hb
      split at hb
      · rename_i hc hd hh
        cases hb
        simp [Registers.begin, hc, hd, hh, Pc.status, CellState.reg]
      · cases hb
  | compareExchange c e d | compareExchangeWeak c e d | compareExchangeStrong c e d =>
      simp only [begin] at hb
      split at hb
      · rename_i hc he hd
        split_ifs at hb with hed
        cases hb
        simp [Registers.begin, hc, he, hd, hed, Pc.status, CellState.reg]
      · cases hb
  | destroyAtomic c =>
      simp only [begin] at hb
      split at hb
      · rename_i hc
        split_ifs at hb
        cases hb
        simp [Registers.begin, hc, Pc.status, CellState.reg]
      · cases hb

variable [Fintype H] [Fintype Cell]

theorem Inv.simulates_won (h : Inv s) {a : Attempt H Cell} (hpc : s.pcs t = some pc)
    (ha : pc.attempt = some a) (hw : (s.cells a.cell).word = some a.cur)
    (hroom : Roomy s (t, .go false) s') :
    run Registers.step s.registers (lift s (t, .go false)) = some ((s.setCell a.cell
      (if a.closes then .absent else (s.cells a.cell).setWord a.des)).goto t a.won).registers := by
  have hlift : lift s (t, .go false) = if pc.status.isCalled then [(t, .lin)] else [] := by
    cases pc with
    | ret | incr | drop => cases ha
    | _ => simp [lift, hpc, ha, hw]
  have hpointer : (s.registers.regs a.cell).pointer = some (addr a.cur) := by simp [hw]
  rcases attempt_won_status (h.lifetimes.ok hpc) ha (h.tag_up_ne_zero hroom hpc ha hw) with
    ⟨call, r, hcalled, hcell, hlin, hwon⟩ | ⟨hdone, hwon, haddr, hopen⟩
  · have hreg : (s.registers.regs a.cell).set (if a.closes then none else some (addr a.des)) =
        (if a.closes then .absent else (s.cells a.cell).setWord a.des : CellState).reg := by
      cases hc : s.cells a.cell <;> cases a.closes <;>
        simp [hc, Reg.set, CellState.reg, CellState.setWord]
    rw [hlift, hcalled]
    simp only [Status.isCalled, if_true, run_cons, run_nil, Registers.step,
      registers_status s hpc, hcalled, hcell, hpointer, Option.map_some, hlin, hreg,
      Option.bind_some, registers_goto, registers_setCell, hwon]
  · have hsame : s.registers.setReg a.cell ((s.cells a.cell).setWord a.des).reg = s.registers := by
      have hreg : ((s.cells a.cell).setWord a.des).reg = s.registers.regs a.cell := by
        cases hc : s.cells a.cell with
        | absent => simp [hc, CellState.word] at hw
        | live w | dying w =>
            simp only [hc, CellState.word, Option.some.injEq] at hw
            simp [hc, CellState.setWord, CellState.reg, haddr, hw]
      rw [hreg, Registers.setReg, Function.update_eq_self]
    rw [hlift, hdone]
    simp only [Bool.false_eq_true, if_false, run_nil, hopen, registers_goto, registers_setCell,
      hsame, registers_goto_same s hpc hwon]

/-- Each step is one of the specification, or none. -/
theorem Inv.simulates (h : Inv s) (hs : Trans s t act s') (hroom : Roomy s (t, act) s') :
    run Registers.step s.registers (lift s (t, act)) = some s'.registers := by
  cases hs with
  | begin op hpc hbegin =>
      simp [lift, Registers.step, registers_idle s hpc, registers_begin hbegin]
  | ret hpc =>
      rename_i r b
      simp only [lift, hpc, run_cons, run_nil, Registers.step, registers_status s hpc, Pc.status,
        Option.bind_some, Option.some.injEq]
      simp only [State.registers, State.finish, Registers.mk.injEq, true_and, and_true]
      funext u
      simp only [Function.update_apply]
      split_ifs <;> rfl
  | incr hpc hn | free hpc hn | decr hpc hn _ =>
      exact simulates_silent hpc rfl (by simp [lift, hpc, Pc.attempt])
  | again hpc hn => exact simulates_silent hpc rfl (by simp [lift, hpc, Pc.attempt])
  | won hpc ha hw => exact h.simulates_won hpc ha hw hroom
  | lost hpc ha hw hfail =>
      have hstatus := attempt_lost_status (h.lifetimes.ok hpc) ha _ (h.deferred_pointer hpc ha hw)
      refine simulates_silent hpc hstatus ?_
      rename_i pc a w b
      cases pc with
      | ret | incr | drop => cases ha
      | _ =>
          -- it failed, so `lift` does not take it for the effect
          have hmiss : ¬ (w = a.cur ∧ b = false) := fun hwon => by
            simp [hfail hwon.1] at hwon
          simp only [lift, hpc, ha, hw, Option.some.injEq, hmiss, and_false, if_false]
  | crashIncr hpc hn =>
      obtain ⟨n, hn'⟩ := h.incr_heap hpc
      simp [hn] at hn'
  | crashDrop hpc hn =>
      obtain ⟨n, hn'⟩ := h.drop_heap hpc
      simp [hn] at hn'
  | crashCell hpc ha hw =>
      obtain ⟨w, hw'⟩ := h.attempt_word hpc ha
      simp [hw] at hw'

/-! ### Whole runs -/

/-- Every run in which no tag overflows is one of the register of
pointers, each call taking effect at one of its own steps. -/
theorem atomic_refines_register {as : List (Tid × Act H Cell)} {s : State Tid H Cell}
    (hroom : Along step Roomy (initial Tid H Cell) as)
    (hrun : run step (initial Tid H Cell) as = some s) :
    run Registers.step (initial Tid H Cell).registers
        (liftRun step lift (initial Tid H Cell) as) = some s.registers ∧
      ∀ (u : State Tid H Cell) (l : Tid × Act H Cell),
        (lift u l).length ≤ 1 ∧ ∀ m ∈ lift u l, m.1 = l.1 := by
  refine ⟨?_, lift_own⟩
  exact run_refines (I := Inv) (C := Roomy) (fun _ _ _ h hs hc => h.run_step hs hc)
    (fun _ l _ h hs hc => h.simulates (step_trans hs).1 hc) hroom inv_initial hrun

end

/-- Both threads call `compare_exchange` with a null `e` on a cell that is
null. The first attempt of `t` at the effect fails spuriously, the next one
installs `9`, and `u` finds it. -/
def twoCompareExchanges (t u : Tid) (x y z e : H) (c : Cell) : List (Tid × Act H Cell) :=
  [(t, .begin (.construct x 0)), (t, .go false), (t, .begin (.atomic c x)), (t, .go false),
    (t, .begin (.construct y 0)), (t, .go false), (t, .begin (.construct z 9)), (t, .go false),
    (u, .begin (.construct e 0)), (u, .go false), (u, .begin (.construct x 11)), (u, .go false),
    (t, .begin (.compareExchangeStrong c y z)), (u, .begin (.compareExchangeWeak c e x)),
    (t, .go false), (u, .go false), (t, .go true), (t, .go false)] ++
  List.replicate 8 (u, .go false) ++ List.replicate 3 (t, .go false)

theorem atomic_refines_register_twoCompareExchanges :
    ∃ s, run step (initial (Fin 2) (Fin 4) (Fin 1)) (twoCompareExchanges 0 1 0 1 2 3 0) = some s ∧
      (s.flags 0 = some true ∧ s.handles 1 = .val 0) ∧
      (s.flags 1 = some false ∧ s.handles 3 = .val 9) ∧ s.cells 0 = .live 9 ∧
      run Registers.step (initial (Fin 2) (Fin 4) (Fin 1)).registers
        (liftRun step lift (initial (Fin 2) (Fin 4) (Fin 1))
          (twoCompareExchanges 0 1 0 1 2 3 0)) = some s.registers := by
  refine ⟨_, rfl, ⟨rfl, rfl⟩, ⟨rfl, rfl⟩, rfl, (atomic_refines_register ?_ rfl).1⟩
  exact along_of_invariant (I := fun _ => True) (fun _ _ _ _ _ => trivial)
    (fun _ l _ _ _ => roomy_of_card (by decide) l) trivial _

end JowiAsio.SharedPtr

import JowiAsio.SharedPtr.Safety

/-!
What keeps a call from returning.

A store, an exchange or a `compare_exchange` that could swap waits until
the tag of its cell is zero, so it spins while some other thread stands
between the increment and the decrement of that tag. Nothing else holds a
call up: without such a thread it returns after at most `Pc.steps` steps
of its own, and a thread that has raised a tag itself always does. So the
calls in progress can be finished one after the other, those that have
raised a tag first.
-/

namespace JowiAsio.SharedPtr

open Lib TaggedPtr

variable {Tid H Cell : Type}

/-- How many steps a call takes at most when it runs alone: one for the
return and for a `fetch_add`, and two for a compare-exchange, whose first
attempt may only find out what is there. -/
def Pc.steps : Pc H Cell → ℕ
  | .ret _ => 1
  | .incr _ k => k.steps + 1
  | .drop _ _ _ k | .casDown _ _ _ k => k.steps + 2
  | .load _ _ _ _ => 6
  | .loadDown _ _ _ _ | .exchange _ _ _ _ => 3
  | .store _ _ _ _ _ => 7
  | .cas _ _ _ _ _ _ _ => 12

/-- No other thread keeps the tag of the cell from becoming zero, unless
the call has raised it itself. -/
def Clear (s : State Tid H Cell) (t : Tid) (pc : Pc H Cell) : Prop :=
  ∀ c, pc.cell = some c → pc.deferred = none → ∀ u, u ≠ t → ¬ Defers (s.pcs u) c

/-! ### The steps of a call -/

section

variable {pc k : Pc H Cell} {p : Addr}

theorem Pc.steps_pos (pc : Pc H Cell) : 0 < pc.steps := by
  cases pc <;> simp [Pc.steps]

theorem copy_steps_le {m : ℕ} (hk : k.steps ≤ m) : (Pc.copy p k).steps ≤ m + 1 := by
  unfold Pc.copy
  split_ifs
  · exact hk.trans (Nat.le_succ m)
  · exact Nat.succ_le_succ hk

theorem dealloc_steps_le {m : ℕ} (hk : k.steps ≤ m) : (Pc.dealloc p k).steps ≤ m + 2 := by
  unfold Pc.dealloc
  split_ifs
  · exact hk.trans (Nat.le_add_right m 2)
  · exact Nat.add_le_add_right hk 2

theorem casReturn_steps_le {e : H} {pd : Addr} {wrapped b : Bool} :
    (Pc.casReturn e p pd wrapped b : Pc H Cell).steps ≤ 3 := by
  unfold Pc.casReturn
  split_ifs
  · exact dealloc_steps_le (Nat.le_refl 1)
  · exact Nat.le_add_left 1 2

variable {a : Attempt H Cell}

theorem attempt_won_steps (ha : pc.attempt = some a) : a.won.steps + 2 ≤ pc.steps := by
  cases pc with
  | ret | incr | drop => cases ha
  | load c cur des h =>
      cases ha
      exact Nat.add_le_add_right (copy_steps_le (Nat.le_refl 3)) 2
  | loadDown | exchange | casDown =>
      cases ha
      exact Nat.le_refl _
  | store c cur des p closing =>
      cases ha
      exact Nat.add_le_add_right (dealloc_steps_le (dealloc_steps_le (Nat.le_refl 1))) 2
  | cas c cur des e pe pd wrapped =>
      cases ha
      dsimp only
      split_ifs
      · have hreturn : (Pc.casReturn e pe pd wrapped true : Pc H Cell).steps ≤ 8 :=
          casReturn_steps_le.trans (by decide)
        exact Nat.add_le_add_right (dealloc_steps_le hreturn) 2
      · have hdown : (Pc.casDown c des (tagDown des)
            (.dealloc pd (.casReturn e (addr des) pd wrapped false)) : Pc H Cell).steps ≤ 7 :=
          Nat.add_le_add_right (dealloc_steps_le casReturn_steps_le) 2
        exact Nat.add_le_add_right (dealloc_steps_le (copy_steps_le hdown)) 2

/-- A call that has changed the word of its cell is done with it, or has
raised its tag. -/
theorem attempt_won_clear (hok : pc.Ok) (ha : pc.attempt = some a) :
    a.won.cell = none ∨ a.won.deferred ≠ none := by
  cases pc with
  | ret | incr | drop => cases ha
  | load c cur des h =>
      cases ha
      exact .inr (by simp [Pc.deferred])
  | loadDown | exchange =>
      cases ha
      exact .inl rfl
  | store c cur des p closing =>
      cases ha
      exact .inl (by simp [Pc.cell])
  | cas c cur des e pe pd wrapped =>
      cases ha
      dsimp only
      split_ifs
      · exact .inl (by simp)
      · exact .inr (by simp [Pc.deferred])
  | casDown c cur des k =>
      cases ha
      exact .inl hok.2.2.1

/-- After an attempt that failed the next one expects the word that the
cell held. -/
theorem attempt_lost_cur (ha : pc.attempt = some a) {w : Word}
    (htag : pc.deferred = none → tag 6 2 w = 0) :
    ∃ b, (a.lost w).attempt = some b ∧ b.cell = a.cell ∧ b.cur = w ∧
      (a.lost w).steps = pc.steps := by
  have huntagged : pc.deferred = none → untagged (addr w) = w := fun hd => by
    conv_rhs => rw [← pack_addr_tag w, htag hd]
    rfl
  cases pc with
  | ret | incr | drop => cases ha
  | load | loadDown | casDown =>
      cases ha
      exact ⟨_, rfl, rfl, rfl, rfl⟩
  | exchange | store =>
      cases ha
      exact ⟨_, rfl, rfl, huntagged rfl, rfl⟩
  | cas c cur des e pe pd wrapped =>
      cases ha
      dsimp only
      split_ifs with he
      · exact ⟨_, rfl, rfl, he ▸ huntagged rfl, rfl⟩
      · exact ⟨_, rfl, rfl, rfl, rfl⟩

theorem tagDown_ne_tagUp (w : Word) : tagDown w ≠ tagUp w := by
  intro h
  have htag := congrArg (tag 6 2) h
  rw [tag_tagDown, tag_tagUp] at htag
  generalize tag 6 2 w = x at htag
  have hsub := congrArg BitVec.toNat htag
  simp only [BitVec.toNat_sub, BitVec.toNat_add] at hsub
  have hlt := x.isLt
  have hone : (1 : BitVec (8 * 2)).toNat = 1 := rfl
  omega

/-- A loop that lowers a tag does not raise it. -/
theorem attempt_of_deferred (hok : pc.Ok) (ha : pc.attempt = some a) (hd : pc.deferred ≠ none) :
    a.des ≠ tagUp a.cur := by
  cases pc with
  | loadDown c cur des h =>
      cases ha
      obtain rfl : des = tagDown cur := hok
      exact tagDown_ne_tagUp cur
  | casDown c cur des k =>
      cases ha
      obtain ⟨rfl, -⟩ := hok
      exact tagDown_ne_tagUp cur
  | ret | incr | drop => cases ha
  | load | exchange | store | cas => exact absurd rfl hd

end

/-- The call goes on with the same cell, has raised its tag, or is done
with it. -/
theorem Clear.goOn {s s' : State Tid H Cell} {t : Tid} {pc k : Pc H Cell} (hclear : Clear s t pc)
    (hothers : ∀ u, u ≠ t → s'.pcs u = s.pcs u)
    (hk : (k.cell = pc.cell ∧ k.deferred = pc.deferred) ∨ k.cell = none ∨ k.deferred ≠ none) :
    Clear s' t k := by
  intro c hc hd u hu
  rw [hothers u hu]
  rcases hk with ⟨hcell, hdeferred⟩ | hcell | hdeferred
  · exact hclear c (hcell ▸ hc) (hdeferred ▸ hd) u hu
  · rw [hcell] at hc
    cases hc
  · exact absurd hd hdeferred

/-- Some call in progress has a clear cell. -/
theorem exists_clear {s : State Tid H Cell} {t : Tid} {pc : Pc H Cell} (hbusy : s.pcs t = some pc) :
    ∃ u pd, s.pcs u = some pd ∧ Clear s u pd := by
  by_cases hd : ∃ u pd, s.pcs u = some pd ∧ pd.deferred ≠ none
  · obtain ⟨u, pd, hu, hne⟩ := hd
    exact ⟨u, pd, hu, fun _ _ hnone => absurd hnone hne⟩
  · refine ⟨t, pc, hbusy, ?_⟩
    rintro c - - u - ⟨pd, p, hu, hp⟩
    exact hd ⟨u, pd, hu, by simp [hp]⟩

theorem deferrers_of_clear [Fintype Tid] [DecidableEq Cell] {s : State Tid H Cell} {t : Tid}
    {pc : Pc H Cell} {c : Cell} (hpc : s.pcs t = some pc) (hclear : Clear s t pc)
    (hc : pc.cell = some c) (hd : pc.deferred = none) : s.deferrers c = 0 := by
  refine Finset.card_eq_zero.2 (Finset.filter_eq_empty_iff.2 fun u _ hu => ?_)
  rcases eq_or_ne u t with rfl | hne
  · rw [hpc, defers_some, hd] at hu
    obtain ⟨p, hp⟩ := hu
    cases hp
  · exact hclear c hc hd u hne hu

/-! ### What the steps lead to -/

section

variable [DecidableEq Tid] {s : State Tid H Cell} {t : Tid} {pc k : Pc H Cell} {a : Attempt H Cell}

theorem dealloc_won_eq {p : Addr} {cur des : ℕ} (hn : s.heap p = some cur) :
    s.dealloc t false p cur des k =
      (s.setHeap p (if cur = 1 ∧ des = 0 then none else some des)).goto t k := by
  simp [State.dealloc, hn, casWeak]

theorem dealloc_lost_eq {p : Addr} {cur des n : ℕ} (hn : s.heap p = some n) (hne : n ≠ cur) :
    s.dealloc t false p cur des k = s.goto t (.drop p n (n - 1) k) := by
  simp [State.dealloc, hn, casWeak, hne]

variable [DecidableEq Cell]

theorem attempt_won_eq (hw : (s.cells a.cell).word = some a.cur) :
    s.attempt t false a = (s.setCell a.cell
      (if a.closes then .absent else (s.cells a.cell).setWord a.des)).goto t a.won := by
  simp [State.attempt, hw, casWeak]

theorem attempt_lost_eq {w : Word} (hw : (s.cells a.cell).word = some w) (hne : w ≠ a.cur) :
    s.attempt t false a = s.goto t (a.lost w) := by
  simp [State.attempt, hw, casWeak, hne]

variable [DecidableEq H]

theorem exec_attempt (ha : pc.attempt = some a) (f : Bool) :
    s.exec t f pc = s.attempt t f a := by
  cases pc with
  | ret | incr | drop => cases ha
  | _ =>
      cases ha
      rfl

theorem step_go [Fintype Tid] (hrunning : s.crashed = false) (hpc : s.pcs t = some pc) :
    step s (t, .go false) = some (s.exec t false pc) := by
  simp [step, hrunning, hpc]

end

/-! ### A call that runs alone -/

section

variable [Fintype Tid] [Fintype H] [Fintype Cell] [DecidableEq Cell] {s s' s'' : State Tid H Cell}
  {t : Tid} {pc k : Pc H Cell}

/-- A thread for which no other one keeps a tag up may raise it. -/
theorem Inv.roomy_of_clear (h : Inv s) (hpc : s.pcs t = some pc) (hclear : Clear s t pc) :
    Roomy s (t, .go false) s' := by
  rintro - c ⟨pd, a, hpd, ha, rfl, hup, -⟩
  rw [hpc, Option.some.injEq] at hpd
  subst hpd
  have hd : pc.deferred = none := by
    by_contra hne
    exact attempt_of_deferred (h.lifetimes.ok hpc) ha hne hup
  have hnone := deferrers_of_clear hpc hclear (attempt_cell ha) hd
  omega

/-- The tag that a call waits for is zero. -/
theorem Inv.tag_of_clear (h : Inv s) (hpc : s.pcs t = some pc) (hclear : Clear s t pc)
    {a : Attempt H Cell} (ha : pc.attempt = some a) {w : Word}
    (hw : (s.cells a.cell).word = some w) (hd : pc.deferred = none) : tag 6 2 w = 0 := by
  have htag := h.counted.tags hw
  rw [deferrers_of_clear hpc hclear (attempt_cell ha) hd] at htag
  exact BitVec.eq_of_toNat_eq htag

variable [DecidableEq Tid] [DecidableEq H]

/-- Thread `t` takes `n` steps, none of which fails spuriously. -/
structure Alone (t : Tid) (n : ℕ) (s s' : State Tid H Cell) : Prop where
  run : run step s (List.replicate n (t, .go false)) = some s'
  roomy : Along step Roomy s (List.replicate n (t, .go false))
  inv : Inv s'
  others : ∀ u, u ≠ t → s'.pcs u = s.pcs u

theorem Alone.trans {m n : ℕ} (h : Alone t m s s') (h' : Alone t n s' s'') :
    Alone t (m + n) s s'' where
  run := by
    rw [← List.replicate_append_replicate]
    exact run_trans h.run h'.run
  roomy := by
    rw [← List.replicate_append_replicate]
    exact h.roomy.append h.run h'.roomy
  inv := h'.inv
  others u hu := (h'.others u hu).trans (h.others u hu)

theorem Inv.alone_one (h : Inv s) (hpc : s.pcs t = some pc) (hclear : Clear s t pc)
    {x : Option (Pc H Cell)} (hs' : s.exec t false pc = s')
    (hpcs : s'.pcs = Function.update s.pcs t x) : Alone t 1 s s' ∧ s'.pcs t = x := by
  have hroom : Roomy s (t, .go false) s' := h.roomy_of_clear hpc hclear
  have hs : SharedPtr.step s (t, .go false) = some s' := hs' ▸ step_go h.lifetimes.running hpc
  refine ⟨⟨?_, ?_, h.run_step hs hroom, fun u hu => ?_⟩, ?_⟩
  · rw [List.replicate_one, run_cons, hs, Option.bind_some, run_nil]
  · rw [List.replicate_one, along_cons hs]
    exact ⟨hroom, trivial⟩
  · rw [hpcs, Function.update_of_ne hu]
  · rw [hpcs, Function.update_self]

/-- What a call has reached after some steps of its own. -/
structure Reaches (t : Tid) (s : State Tid H Cell) (pc k : Pc H Cell) : Prop where
  reached : ∃ n s', Alone t n s s' ∧ s'.pcs t = some k ∧ Clear s' t k ∧ k.steps + n ≤ pc.steps
  less : k.steps < pc.steps

/-- A call that changes the word of its cell. -/
theorem Inv.reaches_won (h : Inv s) (hpc : s.pcs t = some pc) (hclear : Clear s t pc)
    {a : Attempt H Cell} (ha : pc.attempt = some a) (hw : (s.cells a.cell).word = some a.cur) :
    ∃ s', Alone t 1 s s' ∧ s'.pcs t = some a.won ∧ Clear s' t a.won := by
  obtain ⟨hone, hwon⟩ := h.alone_one hpc hclear
    ((exec_attempt ha false).trans (attempt_won_eq hw)) rfl
  exact ⟨_, hone, hwon, hclear.goOn hone.others
    (.inr (attempt_won_clear (h.lifetimes.ok hpc) ha))⟩

theorem Inv.reaches_attempt (h : Inv s) (hpc : s.pcs t = some pc) (hclear : Clear s t pc)
    {a : Attempt H Cell} (ha : pc.attempt = some a) : ∃ k, Reaches t s pc k := by
  have hsteps := attempt_won_steps ha
  obtain ⟨w, hw⟩ := h.attempt_word hpc ha
  by_cases hcur : w = a.cur
  · subst hcur
    obtain ⟨s', hone, hwon, hclear'⟩ := h.reaches_won hpc hclear ha hw
    exact ⟨a.won, ⟨1, s', hone, hwon, hclear', by omega⟩, by omega⟩
  · -- the first attempt reads the word, and the second one expects it
    obtain ⟨hone, hlost⟩ := h.alone_one hpc hclear
      ((exec_attempt ha false).trans (attempt_lost_eq hw hcur)) rfl
    obtain ⟨b, hb, hcell, rfl, hsame⟩ := attempt_lost_cur ha (h.tag_of_clear hpc hclear ha hw)
    have hfollows := attempt_lost (h.lifetimes.ok hpc) ha b.cur (h.deferred_pointer hpc ha hw)
    have hclear' := hclear.goOn hone.others (.inl ⟨hfollows.2.2.1, hfollows.2.2.2.2.1⟩)
    obtain ⟨s', hone', hwon, hclear''⟩ := hone.inv.reaches_won hlost hclear' hb (hcell ▸ hw)
    have hsteps' := attempt_won_steps hb
    exact ⟨b.won, ⟨2, s', hone.trans hone', hwon, hclear'', by omega⟩, by omega⟩

theorem Inv.reaches_drop (h : Inv s) {p : Addr} {cur des : ℕ}
    (hpc : s.pcs t = some (.drop p cur des k)) (hclear : Clear s t (.drop p cur des k)) :
    ∃ l, Reaches t s (.drop p cur des k) l := by
  have hless : k.steps < (Pc.drop p cur des k).steps := Nat.lt_add_of_pos_right (by decide)
  obtain ⟨n, hn⟩ := h.drop_heap hpc
  by_cases hcur : n = cur
  · subst hcur
    obtain ⟨hone, hwon⟩ := h.alone_one hpc hclear (dealloc_won_eq hn) rfl
    exact ⟨k, ⟨1, _, hone, hwon, hclear.goOn hone.others (.inl ⟨rfl, rfl⟩), Nat.le_succ _⟩, hless⟩
  · obtain ⟨hone, hlost⟩ := h.alone_one hpc hclear (dealloc_lost_eq hn hcur) rfl
    have hclear' := hclear.goOn hone.others (.inl ⟨rfl, rfl⟩)
    obtain ⟨hone', hwon⟩ := hone.inv.alone_one hlost hclear' (dealloc_won_eq hn) rfl
    exact ⟨k, ⟨2, _, hone.trans hone', hwon, hclear'.goOn hone'.others (.inl ⟨rfl, rfl⟩),
      Nat.le_refl _⟩, hless⟩

/-- A call gets on, unless it returns. -/
theorem Inv.gets_on (h : Inv s) (hpc : s.pcs t = some pc) (hclear : Clear s t pc) :
    (∃ s', Alone t 1 s s' ∧ s'.pcs t = none) ∨ ∃ k, Reaches t s pc k := by
  cases pc with
  | ret r =>
      obtain ⟨hone, hdone⟩ := h.alone_one hpc hclear (x := none) rfl rfl
      exact .inl ⟨_, hone, hdone⟩
  | incr p k =>
      obtain ⟨n, hn⟩ := h.incr_heap hpc
      have hexec : s.exec t false (.incr p k) = (s.setHeap p (some (n + 1))).goto t k := by
        simp [State.exec, hn]
      obtain ⟨hone, hk⟩ := h.alone_one hpc hclear hexec rfl
      exact .inr ⟨k, ⟨1, _, hone, hk, hclear.goOn hone.others (.inl ⟨rfl, rfl⟩), Nat.le_refl _⟩,
        Nat.lt_succ_self _⟩
  | drop p cur des k => exact .inr (h.reaches_drop hpc hclear)
  | load | loadDown | exchange | store | cas | casDown =>
      exact .inr (h.reaches_attempt hpc hclear rfl)

/-- A call whose cell is clear returns. -/
theorem Inv.returns_alone (h : Inv s) (hpc : s.pcs t = some pc) (hclear : Clear s t pc) :
    ∃ n ≤ pc.steps, ∃ s', Alone t n s s' ∧ s'.pcs t = none := by
  induction hm : pc.steps using Nat.strongRecOn generalizing s pc with
  | ind m ih =>
      subst hm
      rcases h.gets_on hpc hclear with ⟨s', hone, hdone⟩ | ⟨k, ⟨m, s', hm, hk, hclear', hle⟩, hless⟩
      · exact ⟨1, pc.steps_pos, s', hone, hdone⟩
      · obtain ⟨n, hn, s'', hrest, hdone⟩ := ih k.steps hless hm.inv hk hclear' rfl
        exact ⟨m + n, by omega, s'', hm.trans hrest, hdone⟩

/-! ### Whole runs -/

/-- The threads that are inside a call. -/
def State.busy (s : State Tid H Cell) : Finset Tid := Finset.univ.filter fun t => (s.pcs t).isSome

/-- All calls in progress can be finished, one after the other. -/
theorem Inv.all_return (h : Inv s) : ∃ bs s', (∀ b ∈ bs, b.2 = .go false) ∧
    run SharedPtr.step s bs = some s' ∧ Along SharedPtr.step Roomy s bs ∧ ∀ t, s'.pcs t = none := by
  induction hm : s.busy.card using Nat.strongRecOn generalizing s with
  | ind m ih =>
      subst hm
      by_cases hbusy : ∃ t pc, s.pcs t = some pc
      · obtain ⟨t, pc, hpc⟩ := hbusy
        obtain ⟨u, pd, hu, hclear⟩ := exists_clear hpc
        obtain ⟨n, -, s', hn, hdone⟩ := h.returns_alone hu hclear
        have hless : s'.busy ⊂ s.busy := by
          refine Finset.ssubset_iff_of_subset (fun v hv => ?_) |>.2 ⟨u, ?_, ?_⟩
          · simp only [State.busy, Finset.mem_filter, Finset.mem_univ, true_and] at hv ⊢
            rcases eq_or_ne v u with rfl | hne
            · simp [hdone] at hv
            · rwa [← hn.others v hne]
          · simp [State.busy, hu]
          · simp [State.busy, hdone]
        obtain ⟨bs, s'', hgo, hrun, hroom, hall⟩ := ih _ (Finset.card_lt_card hless) hn.inv rfl
        refine ⟨_ ++ bs, s'', fun b hb => ?_, run_trans hn.run hrun, hn.roomy.append hn.run hroom,
          hall⟩
        rcases List.mem_append.1 hb with hb | hb
        · rw [List.eq_of_mem_replicate hb]
        · exact hgo b hb
      · refine ⟨[], s, by simp, rfl, trivial, fun t => ?_⟩
        rw [← Option.not_isSome_iff_eq_none, Option.isSome_iff_exists]
        exact fun ht => hbusy ⟨t, ht⟩

/-- A call spins only while another thread stands between the increment
and the decrement of the tag of its cell: where there is none, the call
returns after a bounded number of steps of its own. So the calls never
deadlock, and from every reachable state all of them can be finished. -/
theorem calls_return_unless_deferred {as : List (Tid × Act H Cell)}
    (hroom : Along step Roomy (initial Tid H Cell) as)
    (hrun : run step (initial Tid H Cell) as = some s) :
    (∀ t pc, s.pcs t = some pc → Clear s t pc → ∃ n ≤ pc.steps, ∃ s',
      run step s (List.replicate n (t, .go false)) = some s' ∧ s'.pcs t = none) ∧
      ∃ bs s', (∀ b ∈ bs, b.2 = .go false) ∧ run step s bs = some s' ∧ Along step Roomy s bs ∧
        ∀ t, s'.pcs t = none := by
  have h : Inv s := run_invariant_of_along (I := Inv) (fun _ _ _ h hs hc => h.run_step hs hc)
    hroom inv_initial hrun
  refine ⟨fun t pc hpc hclear => ?_, h.all_return⟩
  obtain ⟨n, hn, s', halone, hdone⟩ := h.returns_alone hpc hclear
  exact ⟨n, hn, s', halone.run, hdone⟩

end

theorem calls_return_unless_deferred_loadDuringExchange :
    ∃ s pc, run step (initial (Fin 2) (Fin 3) (Fin 1))
        ((loadDuringExchange 0 1 0 1 2 0).take 12) = some s ∧
      s.pcs 0 = some pc ∧ pc.deferred = some (0, 7) ∧
      (∃ n ≤ pc.steps, ∃ s', run step s (List.replicate n (0, .go false)) = some s' ∧
        s'.pcs 0 = none) ∧
      ∃ bs s', run step s bs = some s' ∧ ∀ t, s'.pcs t = none := by
  obtain ⟨s, pc, hrun, hpc, hd⟩ : ∃ s pc, run step (initial (Fin 2) (Fin 3) (Fin 1))
        ((loadDuringExchange 0 1 0 1 2 0).take 12) = some s ∧ s.pcs 0 = some pc ∧
      pc.deferred = some (0, 7) := ⟨_, _, rfl, rfl, rfl⟩
  obtain ⟨halone, bs, s', -, hbs, -, hdone⟩ := calls_return_unless_deferred
    (along_of_invariant (I := fun _ => True) (fun _ _ _ _ _ => trivial)
      (fun _ l _ _ _ => roomy_of_card (by decide) l) trivial _) hrun
  exact ⟨s, pc, hrun, hpc, hd, halone 0 pc hpc (fun _ _ hnone => absurd hnone (by simp [hd])),
    bs, s', hbs, hdone⟩

end JowiAsio.SharedPtr

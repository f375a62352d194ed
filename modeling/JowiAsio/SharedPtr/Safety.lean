import Mathlib.Algebra.BigOperators.Ring.Finset
import JowiAsio.SharedPtr.Counts

/-!
Reference counts, tags and lifetimes in every state of every run.

The invariant is `Lifetimes` together with `Counted`: the count of an
`AllocData` is the number of references to it, the tag of a cell is the
number of its deferred threads, and such a thread knows the pointer that
is in the cell. A step keeps it as long as a tag does not overflow.
-/

namespace JowiAsio.SharedPtr

open Lib TaggedPtr

variable {Tid H Cell : Type}

section

variable [Fintype Tid] [Fintype H] [Fintype Cell] [DecidableEq Cell]

structure Counted (s : State Tid H Cell) : Prop where
  pointer : ∀ {t pc c p}, s.pcs t = some pc → pc.deferred = some (c, p) →
    ∃ w, (s.cells c).word = some w ∧ addr w = p
  tags : ∀ {c w}, (s.cells c).word = some w → (tag 6 2 w).toNat = s.deferrers c
  counts : ∀ q, q ≠ 0 → s.count q = s.references q
  positive : ∀ {q n}, s.heap q = some n → 0 < n

structure Inv (s : State Tid H Cell) : Prop where
  lifetimes : Lifetimes s
  counted : Counted s

/-- A weak compare-exchange of `t` raises the tag of `c`, unless it fails
spuriously. -/
def Enters (s : State Tid H Cell) (t : Tid) (c : Cell) : Prop :=
  ∃ pc a, s.pcs t = some pc ∧ pc.attempt = some a ∧ a.cell = c ∧ a.des = tagUp a.cur ∧
    (s.cells c).word = some a.cur

/-- The condition on a step: fewer than 65536 threads are in the deferred
section of a cell when another one has entered it. -/
def Roomy (s : State Tid H Cell) (l : Tid × Act H Cell) (_ : State Tid H Cell) : Prop :=
  l.2 = .go false → ∀ c, Enters s l.1 c → s.deferrers c + 1 < 65536

end

/-! ### Deferred threads -/

section

variable {s s' : State Tid H Cell} {t : Tid} {pc k : Pc H Cell} {c : Cell}

theorem defers_some : Defers (some pc) c ↔ ∃ p, pc.deferred = some (c, p) := by
  constructor
  · rintro ⟨pd, p, he, hp⟩
    cases he
    exact ⟨p, hp⟩
  · rintro ⟨p, hp⟩
    exact ⟨pc, p, rfl, hp⟩

/-- The count of one `AllocData` is changed. -/
theorem positive_setHeap {p : Addr} {x : Option ℕ} (h : ∀ {q n}, s.heap q = some n → 0 < n)
    (hx : ∀ n, x = some n → 0 < n) {q : Addr} {n : ℕ} (hn : (s.setHeap p x).heap q = some n) :
    0 < n := by
  rw [State.setHeap_heap, Function.update_apply] at hn
  split_ifs at hn
  · exact hx n hn
  · exact h hn

theorem not_defers_none : ¬ Defers (none : Option (Pc H Cell)) c := by
  rintro ⟨pc, p, he, -⟩
  cases he

variable [Fintype Tid] [DecidableEq Cell]

theorem deferrers_pos (h : Defers (s.pcs t) c) : 0 < s.deferrers c :=
  Finset.card_pos.2 ⟨t, Finset.mem_filter.2 ⟨Finset.mem_univ t, h⟩⟩

/-- With fewer threads than that no tag overflows. -/
theorem roomy_of_card (hcard : Fintype.card Tid + 1 < 65536) (l : Tid × Act H Cell) :
    Roomy s l s' := by
  intro _ c _
  have hle := Finset.card_le_univ (Finset.univ.filter fun t => Defers (s.pcs t) c)
  have hcount : s.deferrers c ≤ Fintype.card Tid := hle
  omega

theorem deferrers_update [DecidableEq Tid] {x : Option (Pc H Cell)}
    (hpcs : s'.pcs = Function.update s.pcs t x) :
    s'.deferrers c + (if Defers (s.pcs t) c then 1 else 0) =
      s.deferrers c + if Defers x c then 1 else 0 := by
  have hsum := sum_update_add (fun x : Option (Pc H Cell) => if Defers x c then 1 else 0) s.pcs t x
  simpa only [State.deferrers, Finset.card_filter, hpcs] using hsum

theorem deferrers_eq [DecidableEq Tid] {x : Option (Pc H Cell)}
    (hpcs : s'.pcs = Function.update s.pcs t x) (h : Defers x c ↔ Defers (s.pcs t) c) :
    s'.deferrers c = s.deferrers c := by
  have hsum : s'.deferrers c + _ = s.deferrers c + _ := deferrers_update hpcs
  simp only [h] at hsum
  omega

end

/-! ### No reference is a debt -/

section

variable {s : State Tid H Cell} {t : Tid} {pc k : Pc H Cell}

theorem Handle.owns_nonneg (x : Handle) (q : Addr) : 0 ≤ x.owns q := by
  cases x <;> first | exact holds_nonneg _ _ | exact le_refl _

theorem CellState.owns_nonneg (x : CellState) (q : Addr) : 0 ≤ x.owns q := by
  unfold CellState.owns
  cases x.word with
  | none => exact le_refl _
  | some w => exact holds_nonneg _ _

theorem Lifetimes.callOwns_nonneg (h : Lifetimes s) (t : Tid) (q : Addr) :
    0 ≤ callOwns (s.pcs t) q := by
  cases hpc : s.pcs t with
  | none => exact le_refl _
  | some pc => exact (h.ok hpc).balance_nonneg q

variable [Fintype Tid] [Fintype H] [Fintype Cell]

/-- Each handle, each cell and each call owns at most all references. -/
theorem Lifetimes.owns_le_references (h : Lifetimes s) (q : Addr) :
    (∀ x, (s.handles x).owns q ≤ s.references q) ∧ (∀ c, (s.cells c).owns q ≤ s.references q) ∧
      ∀ t, callOwns (s.pcs t) q ≤ s.references q := by
  have hh : ∀ x ∈ Finset.univ, 0 ≤ (s.handles x).owns q := fun x _ => (s.handles x).owns_nonneg q
  have hc : ∀ c ∈ Finset.univ, 0 ≤ (s.cells c).owns q := fun c _ => (s.cells c).owns_nonneg q
  have ht : ∀ t ∈ Finset.univ, 0 ≤ callOwns (s.pcs t) q := fun t _ => h.callOwns_nonneg t q
  have hhandles := Finset.sum_nonneg hh
  have hcells := Finset.sum_nonneg hc
  have hcalls := Finset.sum_nonneg ht
  unfold State.references
  refine ⟨fun x => ?_, fun c => ?_, fun t => ?_⟩
  · have := Finset.single_le_sum hh (Finset.mem_univ x)
    omega
  · have := Finset.single_le_sum hc (Finset.mem_univ c)
    omega
  · have := Finset.single_le_sum ht (Finset.mem_univ t)
    omega

theorem references_idle (hidle : ∀ t, s.pcs t = none) (q : Addr) :
    s.references q = (Finset.univ.filter fun h => s.handles h = .val q).card +
      (Finset.univ.filter fun c => (s.cells c).word.map addr = some q).card := by
  have hhandle : ∀ x : Handle, x.owns q = if x = .val q then 1 else 0 := by
    intro x
    cases x <;> simp [Handle.owns, holds]
  have hcell : ∀ x : CellState, x.owns q = if x.word.map addr = some q then 1 else 0 := by
    intro x
    cases hx : x.word <;> simp [CellState.owns, holds, hx]
  simp only [State.references, hidle, callOwns, Option.elim_none, Finset.sum_const_zero, add_zero,
    hhandle, hcell, Finset.sum_boole]

/-! ### Nothing that is not there is touched -/

variable [DecidableEq Cell]

theorem Inv.heap_of_references (h : Inv s) {q : Addr} (hq : q ≠ 0) (hpos : 1 ≤ s.references q) :
    ∃ n, s.heap q = some n := by
  rw [← h.counted.counts q hq] at hpos
  cases hn : s.heap q with
  | none => simp [State.count, hn] at hpos
  | some n => exact ⟨n, rfl⟩

theorem Inv.incr_heap (h : Inv s) {p : Addr} (hpc : s.pcs t = some (.incr p k)) :
    ∃ n, s.heap p = some n := by
  obtain ⟨hp, howned, hk⟩ := h.lifetimes.ok hpc
  rcases howned with htwo | ⟨-, c, hc⟩
  · -- the call holds another reference
    have hcall := (h.lifetimes.owns_le_references p).2.2 t
    simp only [hpc, callOwns, Option.elim_some, Pc.balance, holds_self] at hcall
    exact h.heap_of_references hp (by omega)
  · -- the cell, whose tag the call has raised, holds one
    obtain ⟨w, hw, haddr⟩ := h.counted.pointer hpc hc
    have hcell := (h.lifetimes.owns_le_references p).2.1 c
    simp only [CellState.owns, hw, Option.elim_some, haddr, holds_self] at hcell
    exact h.heap_of_references hp hcell

theorem Inv.drop_heap (h : Inv s) {p : Addr} {cur des : ℕ}
    (hpc : s.pcs t = some (.drop p cur des k)) : ∃ n, s.heap p = some n := by
  obtain ⟨hp, -, hk⟩ := h.lifetimes.ok hpc
  have hcall := (h.lifetimes.owns_le_references p).2.2 t
  have hnonneg := hk.balance_nonneg p
  simp only [hpc, callOwns, Option.elim_some, Pc.balance, holds_self] at hcall
  exact h.heap_of_references hp (by omega)

theorem Inv.attempt_word (h : Inv s) {a : Attempt H Cell} (hpc : s.pcs t = some pc)
    (ha : pc.attempt = some a) : ∃ w, (s.cells a.cell).word = some w := by
  have hthere := h.lifetimes.there hpc (attempt_cell ha)
  cases hc : s.cells a.cell with
  | absent => exact absurd hc hthere
  | live w | dying w => exact ⟨w, rfl⟩

end

/-! ### Tags -/

section

theorem toNat_tag_succ {x : BitVec (8 * 2)} (h : x.toNat + 1 < 65536) :
    (x + 1).toNat = x.toNat + 1 := by
  rw [BitVec.toNat_add]
  exact Nat.mod_eq_of_lt h

theorem toNat_tag_pred {x : BitVec (8 * 2)} (h : 0 < x.toNat) : (x - 1).toNat = x.toNat - 1 := by
  have hlt := x.isLt
  rw [BitVec.toNat_sub]
  have hone : (1 : BitVec (8 * 2)).toNat = 1 := rfl
  omega

variable [Fintype Tid] [Fintype H] [Fintype Cell] [DecidableEq Cell] {s s' : State Tid H Cell}
  {t : Tid} {pc k : Pc H Cell} {act : Act H Cell}

theorem Inv.tag_up (h : Inv s) (hroom : Roomy s (t, .go false) s') {a : Attempt H Cell}
    (hpc : s.pcs t = some pc) (ha : pc.attempt = some a)
    (hw : (s.cells a.cell).word = some a.cur) (hup : a.des = tagUp a.cur) :
    (tag 6 2 a.des).toNat = s.deferrers a.cell + 1 := by
  have htag := h.counted.tags hw
  have hlt := hroom rfl a.cell ⟨pc, a, hpc, ha, rfl, hup, hw⟩
  rw [hup, tag_tagUp, toNat_tag_succ (by omega), htag]

/-- A tag that is raised does not become zero. -/
theorem Inv.tag_up_ne_zero (h : Inv s) (hroom : Roomy s (t, .go false) s') {a : Attempt H Cell}
    (hpc : s.pcs t = some pc) (ha : pc.attempt = some a)
    (hw : (s.cells a.cell).word = some a.cur) :
    a.des = tagUp a.cur → tag 6 2 a.des ≠ 0 := by
  intro hup hzero
  have htag := h.tag_up hroom hpc ha hw hup
  rw [hzero] at htag
  exact absurd htag (Nat.succ_ne_zero _).symm

/-- A deferred call knows the pointer of its cell. -/
theorem Inv.deferred_pointer (h : Inv s) {a : Attempt H Cell} {w : Word}
    (hpc : s.pcs t = some pc) (ha : pc.attempt = some a)
    (hw : (s.cells a.cell).word = some w) (c : Cell) (p : Addr)
    (hp : pc.deferred = some (c, p)) : addr w = p := by
  have hcell := cell_of_deferred hp
  rw [attempt_cell ha, Option.some.injEq] at hcell
  subst hcell
  obtain ⟨w', hw', haddr⟩ := h.counted.pointer hpc hp
  rw [hw, Option.some.injEq] at hw'
  rw [hw', haddr]

variable [DecidableEq Tid]

/-- A call goes on and leaves the cells alone. -/
theorem Counted.goOn (h : Counted s) (hpc : s.pcs t = some pc)
    (hpcs : s'.pcs = Function.update s.pcs t (some k)) (hcells : s'.cells = s.cells)
    (hdeferred : k.deferred = pc.deferred) (hcounts : ∀ q, q ≠ 0 → s'.count q = s'.references q)
    (hpositive : ∀ {q n}, s'.heap q = some n → 0 < n) : Counted s' := by
  refine ⟨fun {u pd c p} hu hp => ?_, fun {c w} hw => ?_, hcounts, hpositive⟩
  · rw [hcells]
    rw [hpcs] at hu
    rcases pcs_update hu with ⟨rfl, hx⟩ | ⟨-, hu⟩
    · cases hx
      exact h.pointer hpc (hdeferred ▸ hp)
    · exact h.pointer hu hp
  · rw [hcells] at hw
    rw [h.tags hw, deferrers_eq hpcs]
    rw [hpc, defers_some, defers_some, hdeferred]

theorem Inv.goOn (h : Inv s) (hpc : s.pcs t = some pc) (hk : k.Follows pc) (hok : k.Ok)
    (hpcs : s'.pcs = Function.update s.pcs t (some k)) (hhandles : s'.handles = s.handles)
    (hcells : s'.cells = s.cells) (hcrashed : s'.crashed = s.crashed)
    (hdeferred : k.deferred = pc.deferred)
    (hcounts : ∀ q, q ≠ 0 → s'.count q - k.balance q = s.count q - pc.balance q)
    (hpositive : ∀ {q n}, s'.heap q = some n → 0 < n) : Inv s' := by
  refine ⟨h.lifetimes.goOn hpc hk hok hpcs hhandles hcrashed (fun c hc => .inl (hcells ▸ hc))
      (fun c w hw => .inl ⟨w, hcells ▸ hw⟩) (fun c w hw => ⟨w, hcells ▸ hw⟩),
    h.counted.goOn hpc hpcs hcells hdeferred (fun q hq => ?_) hpositive⟩
  have hsum := references_goto s q t k
  have hsame : s'.references q = (s.goto t k).references q := by
    simp only [State.references, hhandles, hcells, hpcs, State.goto_handles, State.goto_cells,
      State.goto_pcs]
  have hold := h.counted.counts q hq
  have hnew := hcounts q hq
  rw [hpc] at hsum
  simp only [callOwns, Option.elim_some] at hsum
  omega

theorem Inv.incr (h : Inv s) {p : Addr} {n : ℕ} (hpc : s.pcs t = some (.incr p k))
    (hn : s.heap p = some n) : Inv ((s.setHeap p (some (n + 1))).goto t k) := by
  obtain ⟨-, -, hk⟩ := h.lifetimes.ok hpc
  refine h.goOn (k := k) hpc ⟨rfl, .inr rfl, .inr rfl⟩ hk rfl rfl rfl rfl rfl (fun q hq => ?_)
    (positive_setHeap h.counted.positive fun m hm => ?_)
  · change (s.setHeap p _).count q - _ = _
    rw [count_setHeap, Pc.balance]
    rcases eq_or_ne q p with rfl | hne
    · simp [State.count, hn]
      omega
    · simp [hne, holds, hne.symm]
  · simp only [Option.some.injEq] at hm
    omega

/-- The loop of `Deallocator` ends. -/
theorem Inv.drop (h : Inv s) {p : Addr} {cur des : ℕ} {x : Option ℕ}
    (hpc : s.pcs t = some (.drop p cur des k)) (hn : s.heap p = some cur)
    (hx : x.getD 0 = des) (hpositive : ∀ n, x = some n → 0 < n) :
    Inv ((s.setHeap p x).goto t k) := by
  obtain ⟨-, hcur, hk⟩ := h.lifetimes.ok hpc
  refine h.goOn (k := k) hpc ⟨rfl, .inr rfl, .inr rfl⟩ hk rfl rfl rfl rfl rfl (fun q hq => ?_)
    (positive_setHeap h.counted.positive hpositive)
  change (s.setHeap p x).count q - _ = _
  rw [count_setHeap, Pc.balance]
  rcases eq_or_ne q p with rfl | hne
  · simp [State.count, hn, hx, hcur]
  · simp [hne, holds, hne.symm]

theorem Inv.again (h : Inv s) {p : Addr} {cur des n : ℕ}
    (hpc : s.pcs t = some (.drop p cur des k)) (hn : s.heap p = some n) :
    Inv (s.goto t (.drop p n (n - 1) k)) := by
  obtain ⟨hp, -, hk⟩ := h.lifetimes.ok hpc
  have hpos := h.counted.positive hn
  exact h.goOn (k := .drop p n (n - 1) k) hpc ⟨rfl, .inr rfl, .inr rfl⟩ ⟨hp, by omega, hk⟩ rfl rfl
    rfl rfl rfl (fun q hq => rfl) h.counted.positive

theorem Inv.lost (h : Inv s) {a : Attempt H Cell} {w : Word} (hpc : s.pcs t = some pc)
    (ha : pc.attempt = some a) (hw : (s.cells a.cell).word = some w) :
    Inv (s.goto t (a.lost w)) := by
  obtain ⟨hok, hlocks, hcell, hcloses, hdeferred, hbalance⟩ :=
    attempt_lost (h.lifetimes.ok hpc) ha w (h.deferred_pointer hpc ha hw)
  refine h.goOn hpc ⟨hlocks, .inr hcell, .inr hcloses⟩ hok rfl rfl rfl rfl hdeferred
    (fun q hq => ?_) h.counted.positive
  rw [hbalance q]
  rfl

/-- The deferred threads of the cells after a compare-exchange that
succeeds. -/
theorem Inv.won_deferrers (h : Inv s) {a : Attempt H Cell} (hpc : s.pcs t = some pc)
    (ha : pc.attempt = some a) (hw : (s.cells a.cell).word = some a.cur)
    (hpcs : s'.pcs = Function.update s.pcs t (some a.won)) (hroom : Roomy s (t, .go false) s')
    (c : Cell) : if c = a.cell then s'.deferrers c = (tag 6 2 a.des).toNat
      else s'.deferrers c = s.deferrers c := by
  have hsum : s'.deferrers c + _ = s.deferrers c + _ := deferrers_update hpcs
  have htag := h.counted.tags hw
  simp only [hpc, defers_some] at hsum
  -- it raises the tag, lowers it, or installs a word whose tag is zero like the old one's
  rcases attempt_kind (h.lifetimes.ok hpc) ha (h.tag_up_ne_zero hroom hpc ha hw) with
    ⟨hpc', hwon, hup, -⟩ | ⟨hpc', hwon, hdown, -⟩ | ⟨hpc', hwon, hcur, hdes, -⟩
  · have hnew := h.tag_up hroom hpc ha hw hup
    by_cases hc : c = a.cell
    · subst hc
      simp [hpc', hwon] at hsum ⊢
      omega
    · simp [hpc', hwon, hc, Ne.symm hc] at hsum ⊢
      omega
  · by_cases hc : c = a.cell
    · subst hc
      have hpos : 0 < s.deferrers a.cell :=
        deferrers_pos (t := t) (by rw [hpc]; exact defers_some.2 ⟨_, hpc'⟩)
      have hpred := toNat_tag_pred (x := tag 6 2 a.cur) (by omega)
      simp [hpc', hwon, hdown] at hsum ⊢
      omega
    · simp [hpc', hwon, hc, Ne.symm hc] at hsum ⊢
      omega
  · by_cases hc : c = a.cell
    · subst hc
      simp [hpc', hwon, hdes] at hsum ⊢
      simp [hcur] at htag
      omega
    · simp [hpc', hwon, hc] at hsum ⊢
      omega

/-- A cell that is destroyed is used by this call only, and no more by
it. -/
theorem Inv.won_unused (h : Inv s) {a : Attempt H Cell} (hpc : s.pcs t = some pc)
    (ha : pc.attempt = some a) (hpcs : s'.pcs = Function.update s.pcs t (some a.won))
    (hclose : a.closes = true) : Unused s' a.cell := by
  intro u pd hu hc
  rw [hpcs] at hu
  rcases pcs_update hu with ⟨-, hx⟩ | ⟨hne, hu⟩
  · cases hx
    rcases (attempt_won_cell (h.lifetimes.ok hpc) ha).1 with hnone | ⟨-, hopen⟩
    · simp [hnone] at hc
    · simp [hclose] at hopen
  · obtain ⟨w, hdying⟩ := h.lifetimes.dying hpc (by rw [attempt_closes ha, if_pos hclose])
    exact hne (h.lifetimes.alone hdying hu hpc hc (attempt_cell ha))

theorem Inv.won_lifetimes (h : Inv s) {a : Attempt H Cell} (hpc : s.pcs t = some pc)
    (ha : pc.attempt = some a) (hpcs : s'.pcs = Function.update s.pcs t (some a.won))
    (hhandles : s'.handles = s.handles) (hcrashed : s'.crashed = s.crashed)
    (hcells : s'.cells = Function.update s.cells a.cell
      (if a.closes then .absent else (s.cells a.cell).setWord a.des)) : Lifetimes s' := by
  have hok := h.lifetimes.ok hpc
  obtain ⟨hcell, hcloses⟩ := attempt_won_cell hok ha
  have hunused := h.won_unused hpc ha hpcs
  have hother : ∀ c, c ≠ a.cell → s'.cells c = s.cells c := fun c hc => by
    rw [hcells]
    exact Function.update_of_ne hc _ _
  have hthis : s'.cells a.cell = if a.closes then .absent else (s.cells a.cell).setWord a.des := by
    rw [hcells]
    exact Function.update_self ..
  refine h.lifetimes.goOn hpc ⟨attempt_won_locks ha, ?_, .inl hcloses⟩ (attempt_won_ok hok ha)
    hpcs hhandles hcrashed (fun c hc => ?_) (fun c w hc => ?_) (fun c w hc => ?_)
  · rw [attempt_cell ha]
    exact hcell.imp_right And.left
  · rcases eq_or_ne c a.cell with rfl | hne
    · cases hclose : a.closes with
      | true => exact .inr (hunused hclose)
      | false =>
          rw [hthis, hclose] at hc
          cases hold : s.cells a.cell <;> simp [hold, CellState.setWord] at hc ⊢
    · exact .inl (hother c hne ▸ hc)
  · rcases eq_or_ne c a.cell with rfl | hne
    · cases hclose : a.closes with
      | true => exact .inr (hunused hclose)
      | false => exact .inl ⟨a.des, by rw [hthis, hclose, hc]; rfl⟩
    · exact .inl ⟨w, hother c hne ▸ hc⟩
  · rcases eq_or_ne c a.cell with rfl | hne
    · rw [hthis] at hc
      split_ifs at hc
      cases hold : s.cells a.cell <;> simp [hold, CellState.setWord] at hc ⊢
    · exact ⟨w, hother c hne ▸ hc⟩

theorem Inv.won_counts (h : Inv s) {a : Attempt H Cell} (hpc : s.pcs t = some pc)
    (ha : pc.attempt = some a) (hw : (s.cells a.cell).word = some a.cur)
    (hroom : Roomy s (t, .go false) s') {q : Addr} (hq : q ≠ 0) :
    ((s.setCell a.cell (if a.closes then .absent else
      (s.cells a.cell).setWord a.des)).goto t a.won).references q = s.count q := by
  have hok := h.lifetimes.ok hpc
  have hup := h.tag_up_ne_zero hroom hpc ha hw
  have hcell : CellState.owns (if a.closes then .absent else (s.cells a.cell).setWord a.des) q =
      holds (addr a.des) q := by
    split_ifs with hclose
    · rcases attempt_kind hok ha hup with
        ⟨-, -, -, hopen⟩ | ⟨-, -, -, hopen⟩ | ⟨-, -, -, -, hzero⟩
      · simp [hclose] at hopen
      · simp [hclose] at hopen
      · rw [hzero hclose, show holds 0 q = 0 from holds_zero hq]
        rfl
    · simp [CellState.owns, hw]
  have h₁ := references_setCell s q a.cell
    (if a.closes then .absent else (s.cells a.cell).setWord a.des)
  have h₂ := references_goto (s.setCell a.cell
    (if a.closes then .absent else (s.cells a.cell).setWord a.des)) q t a.won
  -- what the cell loses is what the call gains, and the other way round
  have h₃ := attempt_won_balance hok ha hup hq
  have h₄ := h.counted.counts q hq
  simp only [State.setCell_pcs, hpc, callOwns, Option.elim_some, CellState.owns, hw] at h₁ h₂ hcell
  omega

theorem Inv.begun (h : Inv s) (hb : Begun s s' t k) (hbalanced : Balanced s s') : Inv s' := by
  have hsame : ∀ c, s'.deferrers c = s.deferrers c := fun c => by
    rw [deferrers_eq hb.pcs]
    simp [hb.idle, not_defers_none, defers_some, hb.deferred]
  have hnone : ∀ {c}, s.cells c = .absent → s.deferrers c = 0 := by
    intro c hc
    by_contra hne
    obtain ⟨u, hu⟩ := Finset.card_pos.1 (Nat.pos_of_ne_zero hne)
    obtain ⟨pd, p, hpd, hp⟩ := (Finset.mem_filter.1 hu).2
    obtain ⟨w, hw, -⟩ := h.counted.pointer hpd hp
    simp [hc, CellState.word] at hw
  refine ⟨h.lifetimes.begun hb, fun {u pd c p} hu hp => ?_, fun {c w} hw => ?_, fun q hq => ?_,
    fun {q n} hn => ?_⟩
  · rw [hb.pcs] at hu
    rcases pcs_update hu with ⟨-, hx⟩ | ⟨-, hu⟩
    · cases hx
      rw [hb.deferred] at hp
      cases hp
    · obtain ⟨w, hw, haddr⟩ := h.counted.pointer hu hp
      rcases hb.cells c with hc | ⟨habs, -⟩ | ⟨w', hlive, hdying, -⟩
      · exact ⟨w, hc ▸ hw, haddr⟩
      · simp [habs, CellState.word] at hw
      · rw [hlive] at hw
        exact ⟨w, by rw [hdying]; exact hw, haddr⟩
  · rw [hsame]
    rcases hb.cells c with hc | ⟨habs, p, hlive⟩ | ⟨w', hlive, hdying, -⟩
    · exact h.counted.tags (hc ▸ hw)
    · rw [hlive, CellState.word, Option.some.injEq] at hw
      rw [hnone habs, ← hw, tag_untagged]
      rfl
    · rw [hdying] at hw
      exact h.counted.tags (by rw [hlive]; exact hw)
  · have hdiff := hbalanced.counts q hq
    have hold := h.counted.counts q hq
    omega
  · rcases hbalanced.heap q with hheap | ⟨-, hone⟩
    · exact h.counted.positive (hheap ▸ hn)
    · rw [hone, Option.some.injEq] at hn
      omega

variable [DecidableEq H]

/-- The pointer of a cell that has deferred threads does not change, and
the cell is not destroyed. -/
theorem Inv.pointer_stable (h : Inv s) (hs : Trans s t act s') (hroom : Roomy s (t, act) s')
    {c : Cell} (hc : 0 < s.deferrers c) :
    (s'.cells c).word.map addr = (s.cells c).word.map addr := by
  cases hs with
  | ret | incr | free | decr | again | lost | crashIncr | crashDrop | crashCell => rfl
  | begin op hpc hbegin =>
      obtain ⟨k, hbegun, -⟩ := begin_begun hpc hbegin
      rcases hbegun.cells c with hsame | ⟨habs, -⟩ | ⟨w, hl, hd, -⟩
      · rw [hsame]
      · obtain ⟨u, hu⟩ := Finset.card_pos.1 hc
        obtain ⟨pc, p, hpc, hp⟩ := (Finset.mem_filter.1 hu).2
        obtain ⟨w, hw, -⟩ := h.counted.pointer hpc hp
        simp [habs, CellState.word] at hw
      · rw [hl, hd]
        rfl
  | won hpc ha hw =>
      rename_i pc a
      rcases eq_or_ne c a.cell with rfl | hne
      · have hkeep : addr a.des = addr a.cur → a.closes = false →
            ((Function.update s.cells a.cell (if a.closes then .absent else
              (s.cells a.cell).setWord a.des)) a.cell).word.map addr =
                (s.cells a.cell).word.map addr := by
          intro haddr hcloses
          simp [hcloses, hw, haddr]
        rcases attempt_kind (h.lifetimes.ok hpc) ha (h.tag_up_ne_zero hroom hpc ha hw) with
          ⟨-, -, hup, hcloses⟩ | ⟨-, -, hdown, hcloses⟩ | ⟨-, -, htag, -⟩
        · exact hkeep (by rw [hup, addr_tagUp]) hcloses
        · exact hkeep (by rw [hdown, addr_tagDown]) hcloses
        -- a word with tag zero is replaced, but the cell has deferred threads
        · have hzero := h.counted.tags hw
          rw [htag] at hzero
          exact absurd hzero (by simpa using hc.ne)
      · simp [Function.update_of_ne hne]

theorem Inv.won (h : Inv s) {a : Attempt H Cell} (hpc : s.pcs t = some pc)
    (ha : pc.attempt = some a) (hw : (s.cells a.cell).word = some a.cur)
    (hroom : Roomy s (t, .go false) s')
    (hs' : s' = (s.setCell a.cell
      (if a.closes then .absent else (s.cells a.cell).setWord a.des)).goto t a.won) : Inv s' := by
  have hpcs : s'.pcs = Function.update s.pcs t (some a.won) := by rw [hs']; rfl
  have hstable := fun {c} => h.pointer_stable (hs' ▸ .won hpc ha hw) hroom (c := c)
  have hcells : s'.cells = Function.update s.cells a.cell
      (if a.closes then .absent else (s.cells a.cell).setWord a.des) := by rw [hs']; rfl
  refine ⟨h.won_lifetimes hpc ha hpcs (by rw [hs']; rfl) (by rw [hs']; rfl) hcells,
    fun {u pd c p} hu hp => ?_, fun {c w} hc => ?_, fun q hq => ?_, fun {q n} hn => ?_⟩
  · rw [hpcs] at hu
    rcases pcs_update hu with ⟨rfl, hx⟩ | ⟨hne, hu⟩
    · -- this call is deferred now if it has raised the tag
      cases hx
      rcases attempt_kind (h.lifetimes.ok hpc) ha (h.tag_up_ne_zero hroom hpc ha hw) with
        ⟨-, hwon, hup, hopen⟩ | ⟨-, hwon, -⟩ | ⟨-, hwon, -⟩ <;> rw [hwon] at hp
      · cases hp
        refine ⟨a.des, ?_, by rw [hup, addr_tagUp]⟩
        rw [hcells, Function.update_self, hopen]
        simp [hw]
      · cases hp
      · cases hp
    -- the other deferred threads keep the pointer from changing
    · obtain ⟨w, hold, haddr⟩ := h.counted.pointer hu hp
      have hpos : 0 < s.deferrers c :=
        deferrers_pos (t := u) (by rw [hu]; exact defers_some.2 ⟨p, hp⟩)
      have hmap := hstable hpos
      rw [hold, Option.map_some, haddr] at hmap
      exact Option.map_eq_some_iff.1 hmap
  · have hcount := h.won_deferrers hpc ha hw hpcs hroom c
    rw [hcells] at hc
    split_ifs at hcount with he
    · subst he
      rw [Function.update_self] at hc
      split_ifs at hc
      · cases hc
      · simp only [CellState.word_setWord, hw, Option.map_some, Option.some.injEq] at hc
        rw [hcount, hc]
    · rw [Function.update_of_ne he] at hc
      rw [hcount, h.counted.tags hc]
  · have hrefs := h.won_counts hpc ha hw hroom hq
    rw [← hs'] at hrefs
    rw [hrefs, hs']
    rfl
  · refine h.counted.positive (q := q) ?_
    rw [← hn, hs']
    rfl

theorem Inv.finish (h : Inv s) {r : Result H} (hpc : s.pcs t = some (.ret r)) :
    Inv (s.finish t r) := by
  refine ⟨h.lifetimes.finish hpc, fun {u pd c p} hu hp => ?_, fun {c w} hw => ?_, fun q hq => ?_,
    h.counted.positive⟩
  · rcases pcs_update hu with ⟨-, hx⟩ | ⟨-, hu⟩
    · cases hx
    · exact h.counted.pointer hu hp
  · have hsame : (s.finish t r).deferrers c = s.deferrers c :=
      deferrers_eq (t := t) (x := none) rfl
        (by simp [not_defers_none, hpc, defers_some, Pc.deferred])
    rw [h.counted.tags hw, hsame]
  · rw [references_finish s q hpc (h.lifetimes.ok hpc)
      fun w hw => h.lifetimes.busy hpc w.1 (List.mem_map_of_mem hw)]
    exact h.counted.counts q hq

theorem Inv.step (h : Inv s) (hs : Trans s t act s') (hroom : Roomy s (t, act) s') : Inv s' := by
  cases hs with
  | begin op hpc hbegin =>
      obtain ⟨k, hb, hbalanced⟩ := begin_begun hpc hbegin
      exact h.begun hb hbalanced
  | ret hpc => exact h.finish hpc
  | incr hpc hn => exact h.incr hpc hn
  | free hpc hn => exact h.drop hpc hn rfl nofun
  | decr hpc hn hlast =>
      obtain ⟨-, hcur, -⟩ := h.lifetimes.ok hpc
      refine h.drop hpc hn rfl fun n he => ?_
      simp only [Option.some.injEq] at he
      omega
  | again hpc hn => exact h.again hpc hn
  | won hpc ha hw => exact h.won hpc ha hw hroom rfl
  | lost hpc ha hw => exact h.lost hpc ha hw
  | crashIncr hpc hn =>
      obtain ⟨n, hn'⟩ := h.incr_heap hpc
      simp [hn] at hn'
  | crashDrop hpc hn =>
      obtain ⟨n, hn'⟩ := h.drop_heap hpc
      simp [hn] at hn'
  | crashCell hpc ha hw =>
      obtain ⟨w, hw'⟩ := h.attempt_word hpc ha
      simp [hw] at hw'

end

/-! ### Whole runs -/

section

variable [Fintype Tid] [Fintype H] [Fintype Cell] [DecidableEq Cell]

/-- What the counts and the tags are for. When no call is in progress the
count is the number of handles and cells that hold the pointer. -/
structure Safe (s : State Tid H Cell) : Prop where
  running : s.crashed = false
  tags : ∀ c w, (s.cells c).word = some w → (tag 6 2 w).toNat = s.deferrers c
  counts : ∀ q, q ≠ 0 → s.count q = s.references q
  positive : ∀ q n, s.heap q = some n → 0 < n
  handles : ∀ h q, s.handles h = .val q → q ≠ 0 → ∃ n, s.heap q = some n
  cells : ∀ c w, (s.cells c).word = some w → addr w ≠ 0 → ∃ n, s.heap (addr w) = some n
  idle : (∀ t, s.pcs t = none) → ∀ q, q ≠ 0 →
    s.count q = (Finset.univ.filter fun h => s.handles h = .val q).card +
      (Finset.univ.filter fun c => (s.cells c).word.map addr = some q).card

/-- The pointer of a cell does not change between the increment and the
decrement of its tag. -/
def PointerFixed (s : State Tid H Cell) (_ : Tid × Act H Cell) (s' : State Tid H Cell) : Prop :=
  ∀ c, 0 < s.deferrers c → (s'.cells c).word.map addr = (s.cells c).word.map addr

variable {s s' : State Tid H Cell} {t : Tid}

theorem Inv.safe (h : Inv s) : Safe s := by
  refine ⟨h.lifetimes.running, fun c w hw => h.counted.tags hw, h.counted.counts,
    fun q n hn => h.counted.positive hn, fun x q hx hq => ?_, fun c w hw hq => ?_,
    fun hidle q hq => ?_⟩
  · have hle := (h.lifetimes.owns_le_references q).1 x
    simp only [hx, Handle.owns, holds_self] at hle
    exact h.heap_of_references hq hle
  · have hle := (h.lifetimes.owns_le_references (addr w)).2.1 c
    simp only [CellState.owns, hw, Option.elim_some, holds_self] at hle
    exact h.heap_of_references hq hle
  · rw [h.counted.counts q hq, references_idle hidle]

theorem inv_initial : Inv (initial Tid H Cell) := by
  refine ⟨⟨rfl, nofun, nofun, nofun, nofun, nofun, nofun⟩, nofun, nofun, fun q hq => ?_, nofun⟩
  simp [State.count, State.references, initial, Handle.owns, CellState.owns, CellState.word,
    callOwns]

variable [DecidableEq Tid] [DecidableEq H]

theorem Inv.run_step (h : Inv s) {l : Tid × Act H Cell} (hs : SharedPtr.step s l = some s')
    (hroom : Roomy s l s') : Inv s' :=
  h.step (step_trans hs).1 hroom

/-- In every run in which no tag overflows, each count is the number of
references, each tag is the number of deferred threads, the pointer of a
cell with deferred threads does not change, and nothing is used that is
not there. -/
theorem reference_counts_safe {as : List (Tid × Act H Cell)}
    (hroom : Along step Roomy (initial Tid H Cell) as) :
    Visits step Safe (initial Tid H Cell) as ∧
      Along step PointerFixed (initial Tid H Cell) as := by
  constructor
  · exact visits_of_along (I := Inv) (fun _ _ _ h hs hc => h.run_step hs hc) (fun _ h => h.safe)
      hroom inv_initial
  · exact along_of_along (I := Inv) (fun _ _ _ h hs hc => h.run_step hs hc)
      (fun _ _ _ h hs hc _ hpos => h.pointer_stable (step_trans hs).1 hc hpos)
      hroom inv_initial

end

/-- Thread `u` exchanges the pointer `7` of the cell for null while thread
`t` loads it: its first two attempts fail, the second one because the tag
is not zero. -/
def loadDuringExchange (t u : Tid) (x y z : H) (c : Cell) : List (Tid × Act H Cell) :=
  [(t, .begin (.construct x 7)), (t, .go false), (t, .begin (.atomic c x)), (t, .go false),
    (t, .begin (.load c y)), (t, .go false), (t, .go false),
    (u, .begin (.construct z 0)), (u, .go false), (u, .begin (.exchange c z x)), (u, .go false),
    (u, .go false), (t, .go false), (t, .go false), (t, .go false), (u, .go false), (u, .go false)]

theorem reference_counts_safe_loadDuringExchange :
    (∃ s, run step (initial (Fin 2) (Fin 3) (Fin 1)) (loadDuringExchange 0 1 0 1 2 0) = some s ∧
        s.heap 7 = some 2 ∧ s.handles 0 = .val 7 ∧ s.handles 1 = .val 7 ∧ s.cells 0 = .live 0) ∧
      Visits step Safe (initial (Fin 2) (Fin 3) (Fin 1)) (loadDuringExchange 0 1 0 1 2 0) ∧
      Along step PointerFixed (initial (Fin 2) (Fin 3) (Fin 1))
        (loadDuringExchange 0 1 0 1 2 0) := by
  refine ⟨⟨_, rfl, rfl, rfl, rfl, rfl⟩, reference_counts_safe ?_⟩
  exact along_of_invariant (I := fun _ => True) (fun _ _ _ _ _ => trivial)
    (fun _ l _ _ _ => roomy_of_card (by decide) l) trivial _

end JowiAsio.SharedPtr

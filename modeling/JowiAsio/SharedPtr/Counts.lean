import JowiAsio.Lib.Counting
import JowiAsio.SharedPtr.Lifetimes

/-!
References and deferred threads, counted over the whole state.

`State.references q` is the number of references to `q`: those of the
handles, those of the cells and those of the calls in progress.
`State.deferrers c` is the number of threads between the increment and the
decrement of the tag of `c`. Each of the operations of the machine changes
the one by what it moves, and a call that begins moves references from
the handles it takes to itself.
-/

namespace JowiAsio.SharedPtr

open Lib TaggedPtr

variable {Tid H Cell : Type}

def Handle.owns : Handle → Addr → ℤ
  | .val p, q => holds p q
  | _, _ => 0

def CellState.owns (x : CellState) (q : Addr) : ℤ := x.word.elim 0 fun w => holds (addr w) q

/-- What the call of a thread holds, if there is one. -/
def callOwns (x : Option (Pc H Cell)) (q : Addr) : ℤ := x.elim 0 fun pc => pc.balance q

/-- The thread is between the increment and the decrement of the tag of
`c`. -/
def Defers (x : Option (Pc H Cell)) (c : Cell) : Prop :=
  ∃ pc p, x = some pc ∧ pc.deferred = some (c, p)

section

variable [Fintype Tid] [Fintype H] [Fintype Cell] [DecidableEq Cell]

def State.references (s : State Tid H Cell) (q : Addr) : ℤ :=
  (∑ h, (s.handles h).owns q) + (∑ c, (s.cells c).owns q) + ∑ t, callOwns (s.pcs t) q

instance (x : Option (Pc H Cell)) (c : Cell) : Decidable (Defers x c) :=
  decidable_of_iff ((x.bind Pc.deferred).map Prod.fst = some c) (by
    cases x with
    | none => simp [Defers]
    | some pc =>
        cases hd : pc.deferred with
        | none => simp [Defers, hd]
        | some d =>
            obtain ⟨c', p⟩ := d
            simp [Defers, hd])

def State.deferrers (s : State Tid H Cell) (c : Cell) : ℕ :=
  (Finset.univ.filter fun t => Defers (s.pcs t) c).card

/-- The count of `q`, `0` when there is no `AllocData` at `q`. -/
def State.count (s : State Tid H Cell) (q : Addr) : ℤ := (s.heap q).getD 0

end

/-! ### References -/

section

variable [Fintype Tid] [Fintype H] [Fintype Cell] (s : State Tid H Cell) (q : Addr)

theorem references_goto [DecidableEq Tid] (t : Tid) (pc : Pc H Cell) :
    (s.goto t pc).references q + callOwns (s.pcs t) q = s.references q + pc.balance q := by
  have hsum := sum_update_add (fun x => callOwns x q) s.pcs t (some pc)
  simp only [State.references, State.goto_handles, State.goto_cells, State.goto_pcs]
  simp only [callOwns, Option.elim_some] at hsum ⊢
  omega

theorem references_setHandle [DecidableEq H] (h : H) (x : Handle) :
    (s.setHandle h x).references q + (s.handles h).owns q = s.references q + x.owns q := by
  have hsum := sum_update_add (fun x => Handle.owns x q) s.handles h x
  simp only [State.references, State.setHandle_handles, State.setHandle_cells,
    State.setHandle_pcs]
  omega

theorem references_setCell [DecidableEq Cell] (c : Cell) (x : CellState) :
    (s.setCell c x).references q + (s.cells c).owns q = s.references q + x.owns q := by
  have hsum := sum_update_add (fun x => CellState.owns x q) s.cells c x
  simp only [State.references, State.setCell_handles, State.setCell_cells, State.setCell_pcs]
  omega

@[simp] theorem references_setHeap (p : Addr) (n : Option ℕ) :
    (s.setHeap p n).references q = s.references q := rfl

omit [Fintype Tid] [Fintype H] [Fintype Cell] in
theorem count_setHeap (p : Addr) (n : Option ℕ) :
    (s.setHeap p n).count q = if q = p then (n.getD 0 : ℤ) else s.count q := by
  unfold State.count
  rw [State.setHeap_heap, Function.update_apply]
  split_ifs <;> rfl

/-- The handles that a call gives back get the references it holds for
them. -/
theorem sum_owns_writes [DecidableEq H] (ws : List (H × Addr)) {f : H → Handle}
    (hnodup : (ws.map Prod.fst).Nodup) (hbusy : ∀ w ∈ ws, f w.1 = .busy) :
    ∑ h, (ws.foldl (fun hs w => Function.update hs w.1 (.val w.2)) f h).owns q =
      (∑ h, (f h).owns q) + (ws.map fun w => holds w.2 q).sum := by
  induction ws generalizing f with
  | nil => simp
  | cons w ws ih =>
      rw [List.map_cons, List.nodup_cons] at hnodup
      obtain ⟨hw, hbusy⟩ := List.forall_mem_cons.1 hbusy
      have hrest := ih (f := Function.update f w.1 (.val w.2)) hnodup.2 fun w' hw' => by
        rw [Function.update_of_ne]
        · exact hbusy w' hw'
        · exact fun he => hnodup.1 (he ▸ List.mem_map_of_mem hw')
      have hsum := sum_update_add (fun x => Handle.owns x q) f w.1 (.val w.2)
      rw [List.foldl_cons, hrest, List.map_cons, List.sum_cons]
      simp only [hw, Handle.owns] at hsum ⊢
      omega

theorem references_finish [DecidableEq Tid] [DecidableEq H] {t : Tid} {r : Result H}
    (hpc : s.pcs t = some (.ret r)) (hnodup : (r.writes.map Prod.fst).Nodup)
    (hbusy : ∀ w ∈ r.writes, s.handles w.1 = .busy) :
    (s.finish t r).references q = s.references q := by
  have hsum := sum_update_add (fun x => callOwns x q) s.pcs t none
  rw [hpc] at hsum
  simp only [callOwns, Option.elim_some, Option.elim_none, Pc.balance] at hsum
  simp only [State.references, State.finish, callOwns, sum_owns_writes q r.writes hnodup hbusy]
  omega

end

/-! ### The begin of a call -/

section

theorem setHandle_setHandle [DecidableEq H] (s : State Tid H Cell) (h : H) (x y : Handle) :
    (s.setHandle h x).setHandle h y = s.setHandle h y := by
  simp [State.setHandle]

/-- The handles that are in use stay in use. -/
theorem busy_update [DecidableEq H] {f : H → Handle} {h : H} {x : Handle}
    (hx : x = .busy ∨ f h ≠ .busy) (y : H) (hy : f y = .busy) :
    Function.update f h x y = .busy := by
  rcases eq_or_ne y h with rfl | hne
  · rw [Function.update_self]
    exact hx.resolve_right fun hne => hne hy
  · rwa [Function.update_of_ne hne]

variable [Fintype Tid] [Fintype H] [Fintype Cell] [DecidableEq Tid] [DecidableEq H]

/-- The counts change as the references do, and an `AllocData` that is made
has the count one. -/
structure Balanced (s s' : State Tid H Cell) : Prop where
  counts : ∀ q, q ≠ 0 → s'.count q - s'.references q = s.count q - s.references q
  heap : ∀ q, s'.heap q = s.heap q ∨ (q ≠ 0 ∧ s'.heap q = some 1)

variable {s s' : State Tid H Cell} {t : Tid} {k : Pc H Cell}

/-- A call begins and takes one handle. -/
theorem begun_one (hidle : s.pcs t = none) {h : H} {x : Handle} (hh : s.handles h ≠ .busy)
    (hopens : k.Opens) (hlocks : ∀ y ∈ k.locks, y = h ∧ x = .busy)
    (hcell : ∀ c, k.cell = some c → ∃ w, s.cells c = .live w)
    (hbalance : ∀ q, q ≠ 0 → k.balance q + x.owns q = (s.handles h).owns q) :
    Begun s ((s.setHandle h x).goto t k) t k ∧ Balanced s ((s.setHandle h x).goto t k) := by
  refine ⟨⟨hidle, rfl, rfl, hopens.ok, hopens.deferred, busy_update (.inr hh), fun y hy => ?_,
    fun c => .inl rfl, hcell, by simp [hopens.closes]⟩, fun q hq => ?_, fun q => .inl rfl⟩
  · obtain ⟨rfl, rfl⟩ := hlocks y hy
    exact ⟨hh, Function.update_self ..⟩
  · have h₁ := references_setHandle s q h x
    have h₂ := references_goto (s.setHandle h x) q t k
    have h₃ := hbalance q hq
    simp only [State.setHandle_pcs, hidle, callOwns, Option.elim_none] at h₂
    change s.count q - _ = _
    omega

/-- A call begins and takes two handles. -/
theorem begun_two (hidle : s.pcs t = none) {h o : H} {x y : Handle} (hne : o ≠ h)
    (hh : s.handles h ≠ .busy) (ho : s.handles o ≠ .busy) (hopens : k.Opens)
    (hlocks : ∀ z ∈ k.locks, z = h ∧ x = .busy ∨ z = o ∧ y = .busy)
    (hcell : ∀ c, k.cell = some c → ∃ w, s.cells c = .live w)
    (hbalance : ∀ q, q ≠ 0 →
      k.balance q + x.owns q + y.owns q = (s.handles h).owns q + (s.handles o).owns q) :
    Begun s (((s.setHandle h x).setHandle o y).goto t k) t k ∧
      Balanced s (((s.setHandle h x).setHandle o y).goto t k) := by
  have ho' : (s.setHandle h x).handles o = s.handles o := Function.update_of_ne hne _ _
  refine ⟨⟨hidle, rfl, rfl, hopens.ok, hopens.deferred, fun z hz => ?_, fun z hz => ?_,
    fun c => .inl rfl, hcell, by simp [hopens.closes]⟩, fun q hq => ?_, fun q => .inl rfl⟩
  · exact busy_update (.inr (ho'.symm ▸ ho)) z (busy_update (.inr hh) z hz)
  · rcases hlocks z hz with ⟨rfl, rfl⟩ | ⟨rfl, rfl⟩
    · refine ⟨hh, ?_⟩
      simp [Function.update_of_ne hne.symm]
    · exact ⟨ho, Function.update_self ..⟩
  · have h₁ := references_setHandle s q h x
    have h₂ := references_setHandle (s.setHandle h x) q o y
    have h₃ := references_goto ((s.setHandle h x).setHandle o y) q t k
    have h₄ := hbalance q hq
    rw [ho'] at h₂
    simp only [State.setHandle_pcs, hidle, callOwns, Option.elim_none] at h₃
    change s.count q - _ = _
    omega

/-- A constructor makes an `AllocData` whose one reference is the handle. -/
theorem begun_make (hidle : s.pcs t = none) {h : H} {p : Addr} (hh : s.handles h = .absent)
    (hfree : s.heap p = none) (hp : p ≠ 0) :
    Begun s (((s.setHeap p (some 1)).setHandle h .busy).goto t (.ret ⟨[(h, p)], none⟩)) t
        (.ret ⟨[(h, p)], none⟩) ∧
      Balanced s (((s.setHeap p (some 1)).setHandle h .busy).goto t
        (.ret ⟨[(h, p)], none⟩)) := by
  have hbusy : s.handles h ≠ .busy := by simp [hh]
  refine ⟨⟨hidle, rfl, rfl, List.nodup_singleton h, rfl, busy_update (.inr hbusy), ?_,
    fun c => .inl rfl, by simp [Pc.cell], by simp [Pc.closes]⟩, fun q hq => ?_, fun q => ?_⟩
  · simp [Pc.locks, hbusy]
  · have h₁ := references_setHandle (s.setHeap p (some 1)) q h .busy
    have h₂ := references_goto ((s.setHeap p (some 1)).setHandle h .busy) q t
      (.ret ⟨[(h, p)], none⟩)
    have h₃ : (((s.setHeap p (some 1)).setHandle h .busy).goto t
        (.ret ⟨[(h, p)], none⟩)).count q = s.count q + holds p q := by
      change (s.setHeap p (some 1)).count q = _
      rw [count_setHeap]
      rcases eq_or_ne p q with rfl | hne
      · simp [State.count, hfree]
      · simp [holds, hne, hne.symm]
    simp [hidle, callOwns, Handle.owns, hh, Pc.balance] at h₁ h₂
    omega
  · rcases eq_or_ne q p with rfl | hne
    · exact .inr ⟨hp, Function.update_self ..⟩
    · exact .inl (Function.update_of_ne hne _ _)

/-- A copy assignment takes one handle when it assigns a handle to itself,
and two otherwise; it may drop the reference of the first one. -/
theorem begun_copyAssign (hidle : s.pcs t = none) {h o : H} {p r : Addr}
    (hh : s.handles h = .val p) (ho : s.handles o = .val r) {k : Pc H Cell}
    (hk : k = .copy r (.dealloc p
      (.ret ⟨if h = o then [(h, r)] else [(o, r), (h, r)], none⟩))) :
    Begun s (((s.setHandle h .busy).setHandle o .busy).goto t k) t k ∧
      Balanced s (((s.setHandle h .busy).setHandle o .busy).goto t k) := by
  subst hk
  rcases eq_or_ne o h with rfl | hne
  · obtain rfl : r = p := by simpa [hh] using ho.symm
    rw [setHandle_setHandle]
    simp only [if_true]
    refine begun_one hidle (by simp [hh]) ?_ (by simp [Pc.locks]) (by simp [Pc.cell])
      fun q hq => ?_
    · refine Pc.Opens.copy (Pc.Opens.dealloc (Pc.opens_ret (List.nodup_singleton o))) fun hr => ?_
      simp [Pc.dealloc_balance hr, Pc.balance]
    · simp [Pc.copy_balance hq, Pc.dealloc_balance hq, Pc.balance, Handle.owns, hh]
  · rw [if_neg hne.symm]
    refine begun_two hidle hne (by simp [hh]) (by simp [ho]) ?_ (by simp [Pc.locks, or_comm])
      (by simp [Pc.cell]) fun q hq => ?_
    · refine Pc.Opens.copy (Pc.Opens.dealloc (Pc.opens_ret (by simpa [Pc.Ok] using hne)))
        fun hr => ?_
      have hp := holds_nonneg p r
      simp [Pc.dealloc_balance hr, Pc.balance]
      omega
    · simp [Pc.copy_balance hq, Pc.dealloc_balance hq, Pc.balance, Handle.owns, hh, ho]
      omega

/-- A move assignment, too; it drops the reference of the first handle
unless it moves a handle to itself. -/
theorem begun_moveAssign (hidle : s.pcs t = none) {h o : H} {p r : Addr}
    (hh : s.handles h = .val p) (ho : s.handles o = .val r) {k : Pc H Cell}
    (hk : k = .dealloc (if h = o then 0 else p)
      (.ret ⟨if h = o then [(h, r)] else [(o, 0), (h, r)], none⟩)) :
    Begun s (((s.setHandle h .busy).setHandle o .busy).goto t k) t k ∧
      Balanced s (((s.setHandle h .busy).setHandle o .busy).goto t k) := by
  subst hk
  rcases eq_or_ne o h with rfl | hne
  · obtain rfl : r = p := by simpa [hh] using ho.symm
    rw [setHandle_setHandle]
    simp only [if_true]
    refine begun_one hidle (by simp [hh])
      (Pc.Opens.dealloc (Pc.opens_ret (List.nodup_singleton o))) (by simp [Pc.locks])
      (by simp [Pc.cell]) fun q hq => ?_
    simp [Pc.dealloc_balance hq, Pc.balance, Handle.owns, hh, holds_zero hq]
  · simp only [if_neg hne.symm]
    refine begun_two hidle hne (by simp [hh]) (by simp [ho])
      (Pc.Opens.dealloc (Pc.opens_ret (by simpa [Pc.Ok] using hne)))
      (by simp [Pc.locks, or_comm]) (by simp [Pc.cell]) fun q hq => ?_
    simp [Pc.dealloc_balance hq, Pc.balance, Handle.owns, hh, ho, holds_zero hq]
    omega

variable [DecidableEq Cell]

/-- A constructor of a cell moves the reference of its parameter into the
cell. -/
theorem begun_atomic (hidle : s.pcs t = none) {c : Cell} {d : H} {p : Addr}
    (hc : s.cells c = .absent) (hd : s.handles d = .val p) :
    Begun s (((s.setHandle d .absent).setCell c (.live (untagged p))).goto t (.ret ⟨[], none⟩)) t
        (.ret ⟨[], none⟩) ∧
      Balanced s (((s.setHandle d .absent).setCell c (.live (untagged p))).goto t
        (.ret ⟨[], none⟩)) := by
  have hbusy : s.handles d ≠ .busy := by simp [hd]
  refine ⟨⟨hidle, rfl, rfl, List.nodup_nil, rfl, busy_update (.inr hbusy),
    by simp [Pc.locks], fun c' => ?_, by simp [Pc.cell], by simp [Pc.closes]⟩,
    fun q hq => ?_, fun q => .inl rfl⟩
  · rcases eq_or_ne c' c with rfl | hne
    · exact .inr (.inl ⟨hc, p, Function.update_self ..⟩)
    · exact .inl (Function.update_of_ne hne _ _)
  · have h₁ := references_setHandle s q d .absent
    have h₂ := references_setCell (s.setHandle d .absent) q c (.live (untagged p))
    have h₃ := references_goto ((s.setHandle d .absent).setCell c (.live (untagged p))) q t
      (.ret ⟨[], none⟩)
    simp [hidle, callOwns, Handle.owns, CellState.owns, CellState.word, hd, hc, Pc.balance]
      at h₁ h₂ h₃
    change s.count q - _ = _
    omega

omit [DecidableEq H] in
/-- The destructor of a cell, on which no other call is pending, stores
null. -/
theorem begun_destroyAtomic (hidle : s.pcs t = none) {c : Cell} {w : Word}
    (hc : s.cells c = .live w) (hfree : ∀ u, (s.pcs u).bind Pc.cell ≠ some c) :
    Begun s ((s.setCell c (.dying w)).goto t (.store c null (untagged 0) 0 true)) t
        (.store c null (untagged 0) 0 true) ∧
      Balanced s ((s.setCell c (.dying w)).goto t (.store c null (untagged 0) 0 true)) := by
  refine ⟨⟨hidle, rfl, rfl, ⟨tag_null, tag_untagged _, fun _ => addr_untagged _⟩, rfl,
    fun _ hy => hy, by simp [Pc.locks], fun c' => ?_, ?_, ?_⟩, fun q hq => ?_,
    fun q => .inl rfl⟩
  · rcases eq_or_ne c' c with rfl | hne
    · exact .inr (.inr ⟨w, hc, Function.update_self .., fun u pd hu he =>
        hfree u (by simp [hu, he])⟩)
    · exact .inl (Function.update_of_ne hne _ _)
  · simpa [Pc.cell] using ⟨w, hc⟩
  · rintro _ ⟨⟩
    exact ⟨w, Function.update_self ..⟩
  · have h₁ := references_setCell s q c (.dying w)
    have h₂ := references_goto (s.setCell c (.dying w)) q t (.store c null (untagged 0) 0 true)
    have hzero : holds 0 q = 0 := holds_zero hq
    simp only [State.setCell_pcs, hidle, callOwns, Option.elim_none, CellState.owns,
      CellState.word, hc, Pc.balance, addr_untagged, hzero] at h₁ h₂
    change s.count q - _ = _
    omega

/-- Each call that begins takes its handles, and takes over their
references. -/
theorem begin_begun {op : Op H Cell} (hidle : s.pcs t = none) (hb : begin s t op = some s') :
    ∃ k, Begun s s' t k ∧ Balanced s s' := by
  cases op with
  | construct h p =>
      simp only [begin] at hb
      split_ifs at hb with hguard hp
      · cases hb
        exact ⟨_, begun_one hidle (by simp [hguard.1])
          (Pc.opens_ret (List.nodup_singleton h)) (by simp [Pc.locks]) (by simp [Pc.cell])
          fun q hq => by simp [Pc.balance, Handle.owns, hguard.1, hp, holds_zero hq]⟩
      · cases hb
        exact ⟨_, begun_make hidle hguard.1 hguard.2 hp⟩
  | copy h o =>
      simp only [begin] at hb
      split at hb
      · rename_i p hh ho
        cases hb
        have hne : o ≠ h := by
          rintro rfl
          simp [hh] at ho
        refine ⟨_, begun_two hidle hne (by simp [hh]) (by simp [ho]) ?_
          (by simp [Pc.locks, or_comm]) (by simp [Pc.cell]) fun q hq => ?_⟩
        · refine Pc.Opens.copy (Pc.opens_ret (by simpa [Pc.Ok] using hne)) fun _ => ?_
          simp [Pc.balance]
        · simp [Pc.copy_balance hq, Pc.balance, Handle.owns, hh, ho]
      · cases hb
  | move h o =>
      simp only [begin] at hb
      split at hb
      · rename_i p hh ho
        cases hb
        have hne : o ≠ h := by
          rintro rfl
          simp [hh] at ho
        refine ⟨_, begun_two hidle hne (by simp [hh]) (by simp [ho])
          (Pc.opens_ret (by simpa [Pc.Ok] using hne)) (by simp [Pc.locks, or_comm])
          (by simp [Pc.cell]) fun q hq => ?_⟩
        simp [Pc.balance, Handle.owns, hh, ho, holds_zero hq]
      · cases hb
  | copyAssign h o =>
      simp only [begin] at hb
      split at hb
      · rename_i p r hh ho
        cases hb
        exact ⟨_, begun_copyAssign hidle hh ho rfl⟩
      · cases hb
  | moveAssign h o =>
      simp only [begin] at hb
      split at hb
      · rename_i p r hh ho
        cases hb
        exact ⟨_, begun_moveAssign hidle hh ho rfl⟩
      · cases hb
  | reset h =>
      simp only [begin] at hb
      split at hb
      · rename_i p hh
        cases hb
        refine ⟨_, begun_one hidle (by simp [hh])
          (Pc.Opens.dealloc (Pc.opens_ret (List.nodup_singleton h))) (by simp [Pc.locks])
          (by simp [Pc.cell]) fun q hq => ?_⟩
        simp [Pc.dealloc_balance hq, Pc.balance, Handle.owns, hh, holds_zero hq]
      · cases hb
  | destroy h =>
      simp only [begin] at hb
      split at hb
      · rename_i p hh
        cases hb
        refine ⟨_, begun_one hidle (by simp [hh])
          (Pc.Opens.dealloc (Pc.opens_ret List.nodup_nil)) (by simp [Pc.locks])
          (by simp [Pc.cell]) fun q hq => ?_⟩
        simp [Pc.dealloc_balance hq, Pc.balance, Handle.owns, hh]
      · cases hb
  | atomic c d =>
      simp only [begin] at hb
      split at hb
      · rename_i p hc hd
        cases hb
        exact ⟨_, begun_atomic hidle hc hd⟩
      · cases hb
  | load c h =>
      simp only [begin] at hb
      split at hb
      · rename_i w hc hh
        cases hb
        refine ⟨_, begun_one hidle (by simp [hh]) ⟨tagUp_null.symm, rfl, rfl⟩ (by simp [Pc.locks])
          (by simpa [Pc.cell] using ⟨w, hc⟩) fun q hq => ?_⟩
        simp [Pc.balance, Handle.owns, hh]
      · cases hb
  | exchange c d h =>
      simp only [begin] at hb
      split at hb
      · rename_i w p hc hd hh
        cases hb
        have hne : h ≠ d := by
          rintro rfl
          simp [hh] at hd
        refine ⟨_, begun_two hidle hne (by simp [hd]) (by simp [hh])
          ⟨⟨tag_null, tag_untagged _⟩, rfl, rfl⟩ (by simp [Pc.locks])
          (by simpa [Pc.cell] using ⟨w, hc⟩) fun q hq => ?_⟩
        simp [Pc.balance, Handle.owns, hd, hh]
      · cases hb
  | store c d =>
      simp only [begin] at hb
      split at hb
      · rename_i w p hc hd
        cases hb
        refine ⟨_, begun_one hidle (by simp [hd]) ?_ (by simp [Pc.locks])
          (by simpa [Pc.cell] using ⟨w, hc⟩) fun q hq => ?_⟩
        · refine Pc.Opens.copy ⟨⟨tag_null, tag_untagged _, by simp⟩, rfl, rfl⟩ fun _ => ?_
          simp [Pc.balance]
        · simp [Pc.copy_balance hq, Pc.balance, Handle.owns, hd]
      · cases hb
  | compareExchange c e d =>
      simp only [begin] at hb
      split at hb
      · rename_i w pe pd hc he hd
        split_ifs at hb with hed
        cases hb
        refine ⟨_, begun_two hidle (Ne.symm hed) (by simp [he]) (by simp [hd])
          ⟨.inl ⟨rfl, rfl⟩, rfl, rfl⟩ (by simp [Pc.locks])
          (by simpa [Pc.cell] using ⟨w, hc⟩) fun q hq => ?_⟩
        simp [Pc.balance, Handle.owns, he, hd]
      · cases hb
  | compareExchangeWeak c e d | compareExchangeStrong c e d =>
      simp only [begin] at hb
      split at hb
      · rename_i w pe pd hc he hd
        split_ifs at hb with hed
        cases hb
        refine ⟨_, begun_two hidle (Ne.symm hed) (by simp [he]) (by simp [hd]) ?_
          (by simp [Pc.locks]) (by simpa [Pc.cell] using ⟨w, hc⟩) fun q hq => ?_⟩
        · refine Pc.Opens.copy ⟨.inl ⟨rfl, rfl⟩, rfl, rfl⟩ fun _ => ?_
          have hpe := holds_nonneg pe pd
          simp [Pc.balance]
          omega
        · simp [Pc.copy_balance hq, Pc.balance, Handle.owns, he, hd]
      · cases hb
  | destroyAtomic c =>
      simp only [begin] at hb
      split at hb
      · rename_i w hc
        split_ifs at hb with hfree
        cases hb
        exact ⟨_, begun_destroyAtomic hidle hc hfree⟩
      · cases hb

end

end JowiAsio.SharedPtr

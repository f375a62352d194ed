import JowiAsio.SharedPtr.Balance

/-!
Who may touch which handle and which cell.

A call has the handles it works on for itself until it returns, and the
cell it works on is there. While the destructor of a cell runs, no other
call works on the cell. `Lifetimes` is the invariant; `Begun` is what the
begin of a call, of whatever kind, has done to the state.
-/

namespace JowiAsio.SharedPtr

open Lib TaggedPtr

variable {Tid H Cell : Type}

structure Lifetimes (s : State Tid H Cell) : Prop where
  running : s.crashed = false
  ok : ∀ {t pc}, s.pcs t = some pc → pc.Ok
  busy : ∀ {t pc}, s.pcs t = some pc → ∀ h ∈ pc.locks, s.handles h = .busy
  apart : ∀ {t u pc pd h}, s.pcs t = some pc → s.pcs u = some pd → h ∈ pc.locks →
    h ∈ pd.locks → t = u
  there : ∀ {t pc c}, s.pcs t = some pc → pc.cell = some c → s.cells c ≠ .absent
  dying : ∀ {t pc c}, s.pcs t = some pc → pc.closes = some c → ∃ w, s.cells c = .dying w
  alone : ∀ {c w t u pc pd}, s.cells c = .dying w → s.pcs t = some pc → s.pcs u = some pd →
    pc.cell = some c → pd.cell = some c → t = u

/-- `k` works on nothing that `pc` did not work on. -/
structure Pc.Follows (k pc : Pc H Cell) : Prop where
  locks : k.locks = pc.locks
  cell : k.cell = none ∨ k.cell = pc.cell
  closes : k.closes = none ∨ k.closes = pc.closes

/-- No call works on the cell. -/
def Unused (s : State Tid H Cell) (c : Cell) : Prop := ∀ u pd, s.pcs u = some pd → pd.cell ≠ some c

/-- The call of `t` has begun, and `k` is what it has to do. -/
structure Begun [DecidableEq Tid] (s s' : State Tid H Cell) (t : Tid) (k : Pc H Cell) : Prop where
  idle : s.pcs t = none
  pcs : s'.pcs = Function.update s.pcs t (some k)
  crashed : s'.crashed = s.crashed
  ok : k.Ok
  deferred : k.deferred = none
  handles : ∀ h, s.handles h = .busy → s'.handles h = .busy
  locks : ∀ h ∈ k.locks, s.handles h ≠ .busy ∧ s'.handles h = .busy
  cells : ∀ c, s'.cells c = s.cells c ∨
    (s.cells c = .absent ∧ ∃ p, s'.cells c = .live (untagged p)) ∨
    (∃ w, s.cells c = .live w ∧ s'.cells c = .dying w ∧ Unused s c)
  cell : ∀ c, k.cell = some c → ∃ w, s.cells c = .live w
  closes : ∀ c, k.closes = some c → ∃ w, s'.cells c = .dying w

section

variable [DecidableEq Tid] {s s' : State Tid H Cell} {t : Tid} {pc k : Pc H Cell}

/-- The program counters after a step of `t`. -/
theorem pcs_update {u : Tid} {x : Option (Pc H Cell)} {pd : Pc H Cell}
    (h : Function.update s.pcs t x u = some pd) : (u = t ∧ x = some pd) ∨
      (u ≠ t ∧ s.pcs u = some pd) := by
  rcases eq_or_ne u t with rfl | hne
  · rw [Function.update_self] at h
    exact .inl ⟨rfl, h⟩
  · rw [Function.update_of_ne hne] at h
    exact .inr ⟨hne, h⟩

/-- A call goes on, and the cells have other words or are destroyed. -/
theorem Lifetimes.goOn (h : Lifetimes s) (hpc : s.pcs t = some pc) (hk : k.Follows pc)
    (hok : k.Ok) (hpcs : s'.pcs = Function.update s.pcs t (some k))
    (hhandles : s'.handles = s.handles) (hcrashed : s'.crashed = s.crashed)
    (habsent : ∀ c, s'.cells c = .absent → s.cells c = .absent ∨ Unused s' c)
    (hdying : ∀ c w, s.cells c = .dying w → (∃ w', s'.cells c = .dying w') ∨ Unused s' c)
    (hlive : ∀ c w, s'.cells c = .dying w → ∃ w', s.cells c = .dying w') : Lifetimes s' := by
  -- each call of `s'` works on what a call of the same thread worked on in `s`
  have hold : ∀ {u pd}, s'.pcs u = some pd → pd.Ok ∧ ∃ pd₀, s.pcs u = some pd₀ ∧
      pd.locks = pd₀.locks ∧ (pd.cell = none ∨ pd.cell = pd₀.cell) ∧
      (pd.closes = none ∨ pd.closes = pd₀.closes) := by
    intro u pd hu
    rw [hpcs] at hu
    rcases pcs_update hu with ⟨rfl, hx⟩ | ⟨-, hu⟩
    · cases hx
      exact ⟨hok, pc, hpc, hk.locks, hk.cell, hk.closes⟩
    · exact ⟨h.ok hu, pd, hu, rfl, .inr rfl, .inr rfl⟩
  refine ⟨hcrashed.trans h.running, fun hu => (hold hu).1, fun hu x hx => ?_,
    fun hu hv hx hx' => ?_, fun {u pd c} hu hc => ?_, fun {u pd c} hu hc => ?_,
    fun {c w u v pd pe} hw hu hv hc hc' => ?_⟩
  · obtain ⟨-, pd₀, hu₀, hlocks, -⟩ := hold hu
    rw [hhandles]
    exact h.busy hu₀ x (hlocks ▸ hx)
  · obtain ⟨-, pd₀, hu₀, hlocks, -⟩ := hold hu
    obtain ⟨-, pe₀, hv₀, hlocks', -⟩ := hold hv
    exact h.apart hu₀ hv₀ (hlocks ▸ hx) (hlocks' ▸ hx')
  · obtain ⟨-, pd₀, hu₀, -, hcell | hcell, -⟩ := hold hu
    · simp [hcell] at hc
    -- the cell of a pending call is not destroyed by another one
    · intro habs
      rcases habsent c habs with habs₀ | hunused
      · exact h.there hu₀ (hcell ▸ hc) habs₀
      · exact hunused u pd hu hc
  · obtain ⟨-, pd₀, hu₀, -, -, hcloses | hcloses⟩ := hold hu
    · simp [hcloses] at hc
    · obtain ⟨w, hw⟩ := h.dying hu₀ (hcloses ▸ hc)
      exact (hdying c w hw).resolve_right fun hunused => hunused u pd hu (cell_of_closes hc)
  · obtain ⟨w₀, hw₀⟩ := hlive c w hw
    obtain ⟨-, pd₀, hu₀, -, hcell | hcell, -⟩ := hold hu
    · simp [hcell] at hc
    obtain ⟨-, pe₀, hv₀, -, hcell' | hcell', -⟩ := hold hv
    · simp [hcell'] at hc'
    exact h.alone hw₀ hu₀ hv₀ (hcell ▸ hc) (hcell' ▸ hc')

/-- The handles that a call does not give back stay as they are. -/
theorem foldl_writes [DecidableEq H] {ws : List (H × Addr)} {f : H → Handle} {x : H}
    (hx : x ∉ ws.map Prod.fst) :
    ws.foldl (fun hs w => Function.update hs w.1 (.val w.2)) f x = f x := by
  induction ws generalizing f with
  | nil => rfl
  | cons w ws ih =>
      rw [List.map_cons, List.mem_cons, not_or] at hx
      rw [List.foldl_cons, ih hx.2, Function.update_of_ne hx.1]

theorem Lifetimes.finish [DecidableEq H] (h : Lifetimes s) {r : Result H}
    (hpc : s.pcs t = some (.ret r)) : Lifetimes (s.finish t r) := by
  have hold : ∀ {u pd}, (s.finish t r).pcs u = some pd → u ≠ t ∧ s.pcs u = some pd := by
    intro u pd hu
    rcases pcs_update hu with ⟨-, hx⟩ | hold
    · cases hx
    · exact hold
  refine ⟨h.running, fun hu => h.ok (hold hu).2, fun {u pd} hu x hx => ?_,
    fun hu hv => h.apart (hold hu).2 (hold hv).2, fun hu => h.there (hold hu).2,
    fun hu => h.dying (hold hu).2, fun hw hu hv => h.alone hw (hold hu).2 (hold hv).2⟩
  refine (foldl_writes fun hmem => ?_).trans (h.busy (hold hu).2 x hx)
  exact (hold hu).1 (h.apart (hold hu).2 hpc hx hmem)

theorem Lifetimes.begun (h : Lifetimes s) (hb : Begun s s' t k) : Lifetimes s' := by
  have hlive : ∀ {c}, k.cell = some c → s'.cells c ≠ .absent ∧ ∀ w, s.cells c ≠ .dying w := by
    intro c hc
    obtain ⟨w, hw⟩ := hb.cell c hc
    refine ⟨fun habs => ?_, fun w' hw' => by simp [hw] at hw'⟩
    rcases hb.cells c with hsame | ⟨habs', -⟩ | ⟨w', -, hd, -⟩
    · rw [hsame, hw] at habs
      cases habs
    · rw [hw] at habs'
      cases habs'
    · rw [hd] at habs
      cases habs
  refine ⟨hb.crashed.trans h.running, fun {u pd} hu => ?_, fun {u pd} hu x hx => ?_,
    fun {u v pd pe x} hu hv hx hx' => ?_, fun {u pd c} hu hc => ?_, fun {u pd c} hu hc => ?_,
    fun {c w u v pd pe} hw hu hv hc hc' => ?_⟩
  · rw [hb.pcs] at hu
    rcases pcs_update hu with ⟨-, hx⟩ | ⟨-, hu⟩
    · cases hx
      exact hb.ok
    · exact h.ok hu
  · rw [hb.pcs] at hu
    rcases pcs_update hu with ⟨-, hk⟩ | ⟨-, hu⟩
    · cases hk
      exact (hb.locks x hx).2
    · exact hb.handles x (h.busy hu x hx)
  · rw [hb.pcs] at hu hv
    rcases pcs_update hu with ⟨rfl, hk⟩ | ⟨-, hu'⟩ <;>
      rcases pcs_update hv with ⟨rfl, hk'⟩ | ⟨-, hv'⟩
    · rfl
    · cases hk
      exact absurd (h.busy hv' x hx') (hb.locks x hx).1
    · cases hk'
      exact absurd (h.busy hu' x hx) (hb.locks x hx').1
    · exact h.apart hu' hv' hx hx'
  · rw [hb.pcs] at hu
    rcases pcs_update hu with ⟨-, hk⟩ | ⟨-, hu⟩
    · cases hk
      exact (hlive hc).1
    · have hthere := h.there hu hc
      rcases hb.cells c with hsame | ⟨habs, -⟩ | ⟨w', -, hd, -⟩
      · rwa [hsame]
      · exact absurd habs hthere
      · simp [hd]
  · rw [hb.pcs] at hu
    rcases pcs_update hu with ⟨-, hk⟩ | ⟨-, hu⟩
    · cases hk
      exact hb.closes c hc
    · obtain ⟨w, hw⟩ := h.dying hu hc
      rcases hb.cells c with hsame | ⟨habs, -⟩ | ⟨w', -, hd, -⟩
      · exact ⟨w, hsame.trans hw⟩
      · simp [hw] at habs
      · exact ⟨w', hd⟩
  · rw [hb.pcs] at hu hv
    -- a cell that was dying has no new call; one that is now has only this call
    have hothers : (∃ w₀, s.cells c = .dying w₀) ∨ Unused s c := by
      rcases hb.cells c with hsame | ⟨-, p, hl⟩ | ⟨w', -, -, hnone⟩
      · exact .inl ⟨w, hsame ▸ hw⟩
      · simp [hl] at hw
      · exact .inr hnone
    rcases pcs_update hu with ⟨rfl, hk⟩ | ⟨-, hu'⟩ <;>
      rcases pcs_update hv with ⟨rfl, hk'⟩ | ⟨-, hv'⟩
    · rfl
    · cases hk
      rcases hothers with ⟨w₀, hw₀⟩ | hnone
      · exact absurd hw₀ ((hlive hc).2 w₀)
      · exact absurd hc' (hnone v pe hv')
    · cases hk'
      rcases hothers with ⟨w₀, hw₀⟩ | hnone
      · exact absurd hw₀ ((hlive hc').2 w₀)
      · exact absurd hc (hnone u pd hu')
    · rcases hothers with ⟨w₀, hw₀⟩ | hnone
      · exact h.alone hw₀ hu' hv' hc hc'
      · exact absurd hc (hnone u pd hu')

end

end JowiAsio.SharedPtr

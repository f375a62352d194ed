import JowiAsio.Lib.Counting
import JowiAsio.Ringbuf.Sequential

/-!
No element is lost, under concurrency, exactly as long as no pop finds the
slot it has claimed still empty.

`pop` advances the pop index and then exchanges the slot, whether or not
the push that claimed the slot has stored into it yet. `TakesFilled` is
the condition on a step that rules this out. The counting invariant
`Balanced` carries the proof: at every slot

  occupied + pending stores = in the window + pending takes,

and every step that meets the condition keeps it. In a state without
calls in progress the pending terms vanish, so the occupied slots are the
window, and from there the single-threaded refinement takes over.
-/

namespace JowiAsio.Ringbuf

open Lib TaggedPtr
open Lib.Cyclic (next dist dist_lt next_eq_iff_dist InWindow inWindow_next_right
  inWindow_next_left not_inWindow_right inWindow_left next_lt add_dist_mod dist_add_mod)

variable {D : DeleterSize} {Tid : Type}

/-! ### The property and its condition -/

/-- No call is in progress. -/
def Quiescent (s : State Tid D) : Prop := ∀ t, s.pc t = .idle

/-- The non-empty slots are those of the window from the pop index up to,
not including, the push index. -/
def WindowOccupied (n : ℕ) (s : State Tid D) : Prop :=
  ∀ i < n, s.nodes[i]? ≠ some null ↔ InWindow n s.counter.pop s.counter.push i

/-- The pointer a returned push left in the queue. -/
def Event.inserted : Event D → Option (UniquePtr D)
  | .pushed x | .tryPushed x none => some x
  | _ => none

/-- The pointer a returned pop took out of the queue. -/
def Event.removed : Event D → Option (UniquePtr D)
  | .popped _ r => r
  | _ => none

/-- A step of a run in which only thread `t` moves, and only to pop. -/
def OnlyPops (t : Tid) : Label Tid D → Prop
  | .call u c => u = t ∧ c = .pop
  | .exec u _ => u = t

variable [DecidableEq Tid]

/-- Draining a state with pops returns `q`: the results of every run of
pops by one thread are those of a FIFO holding `q`, and some such run
returns all of `q`. -/
structure DrainsTo (n : ℕ) (s : State Tid D) (q : List (UniquePtr D)) : Prop where
  sound : ∀ t as s', (∀ a ∈ as, OnlyPops t a) → run step s as = some s' →
    ∃ evs q', s'.history = s.history ++ evs ∧
      evs.foldlM (replayEvent (n - 1)) q = some q'
  complete : ∀ t, ∃ as s', (∀ a ∈ as, OnlyPops t a) ∧ run step s as = some s' ∧
    s'.history = s.history ++ q.map fun x => .popped true (some x)

/-- In a state without calls in progress the window is occupied, and what
was inserted is what was removed together with what a drain returns. -/
def NothingLost (n : ℕ) (s : State Tid D) : Prop :=
  Quiescent s → WindowOccupied n s ∧ ∃ q, DrainsTo n s q ∧
    (s.history.filterMap Event.inserted).Perm (s.history.filterMap Event.removed ++ q)

/-- No pop that advanced the pop index has returned `nullopt`. -/
def NoEmptyPop (s : State Tid D) : Prop := .popped true none ∉ s.history

/-- The condition on a step: a pop that exchanges the slot it has claimed
finds it filled. -/
def TakesFilled (s : State Tid D) (a : Label Tid D) (_ : State Tid D) : Prop :=
  ∀ t f i, a = .exec t f → s.pc t = .take i → s.nodes[i]? ≠ some null

instance (s : State Tid D) : (a : Label Tid D) → (s' : State Tid D) →
    Decidable (TakesFilled s a s')
  | .call _ _, _ => isTrue fun _ _ _ ha => by cases ha
  | .exec t f, _ =>
      decidable_of_iff (∀ i < s.nodes.length, s.pc t = .take i → s.nodes[i]? ≠ some null)
        ⟨fun h _ _ i ha hpc hnull => by
          cases ha
          exact h i (List.getElem?_eq_some_iff.1 hnull).1 hpc hnull,
        fun h i _ hpc => h t f i rfl hpc⟩

/-! ### The plan of a pending compare-exchange -/

/-- What the `d_point` of a call does to the counter if its
compare-exchange succeeds. -/
def Planned (n : ℕ) : Pc D → Prop
  | .push _ e d | .tryPush _ e d => d = ⟨next n e.push, e.pop⟩ ∧ next n e.push ≠ e.pop
  | .pop e d => d = ⟨e.push, next n e.pop⟩ ∧ e.push ≠ e.pop
  | _ => True

omit [DecidableEq Tid] in
theorem planned_start {n : ℕ} (hn : 2 ≤ n) (c : Call D) : Planned n c.start := by
  have hnext : next n 0 = 1 := Nat.mod_eq_of_lt (by omega)
  cases c <;> simp [Call.start, Planned, pushGuess, popGuess, hnext]

theorem planned_update {n : ℕ} {pc : Tid → Pc D} (h : ∀ t, Planned n (pc t)) {t : Tid}
    {p : Pc D} (hp : Planned n p) (u : Tid) : Planned n (Function.update pc t p u) := by
  rcases eq_or_ne u t with rfl | hne
  · rwa [Function.update_self]
  · rw [Function.update_of_ne hne]
    exact h u

omit [DecidableEq Tid] in
theorem planned_pushRetry {n : ℕ} (hn : 2 ≤ n) (hn32 : n < 2 ^ 32) {c : PointerType}
    (hc : c.Below n) (x : UniquePtr D) :
    Planned n (.push x (pushRetry n c).1 (pushRetry n c).2) := by
  simp only [pushRetry, advance_eq_next hn32 hc.1]
  split_ifs with hfull
  · exact planned_start hn (.push x)
  · exact ⟨rfl, hfull⟩

omit [DecidableEq Tid] in
theorem planned_tryPushRetry {n : ℕ} (hn32 : n < 2 ^ 32) {c e d : PointerType}
    (hc : c.Below n) (x : UniquePtr D) (h : tryPushRetry n c = some (e, d)) :
    Planned n (.tryPush x e d) := by
  simp only [tryPushRetry, advance_eq_next hn32 hc.1, Option.ite_none_left_eq_some,
    Option.some.injEq, Prod.mk.injEq] at h
  obtain ⟨hfull, rfl, rfl⟩ := h
  exact ⟨rfl, hfull⟩

omit [DecidableEq Tid] in
theorem planned_popRetry {n : ℕ} (hn32 : n < 2 ^ 32) {c e d : PointerType}
    (hc : c.Below n) (h : popRetry n c = some (e, d)) : Planned n (.pop e d : Pc D) := by
  simp only [popRetry, advance_eq_next hn32 hc.2, Option.ite_none_left_eq_some,
    Option.some.injEq, Prod.mk.injEq] at h
  obtain ⟨hempty, rfl, rfl⟩ := h
  exact ⟨rfl, hempty⟩

/-! ### The elements in the slots -/

/-- The pointers in the slots, in slot order. -/
def contents (D : DeleterSize) (nodes : List Word) : List (UniquePtr D) :=
  nodes.filterMap (nodeLoad D)

/-- A slot is empty or holds a non-null pointer with its deleter. -/
def SlotOk (D : DeleterSize) (w : Word) : Prop :=
  w = null ∨ ∃ x : UniquePtr D, x.ptr ≠ 0 ∧ w = x.word

/-- The pointer a thread has not handed over yet is not null. -/
def Pc.NonNull : Pc D → Prop
  | .push x _ _ | .tryPush x _ _ | .store x _ _ => x.ptr ≠ 0
  | _ => True

omit [DecidableEq Tid] in
theorem start_nonNull {t : Tid} {c : Call D} (h : (Label.call t c).NonNull) :
    c.start.NonNull := by
  cases c <;> exact h

theorem nonNull_update {pc : Tid → Pc D} (h : ∀ t, (pc t).NonNull) {t : Tid} {p : Pc D}
    (hp : p.NonNull) (u : Tid) : (Function.update pc t p u).NonNull := by
  rcases eq_or_ne u t with rfl | hne
  · rwa [Function.update_self]
  · rw [Function.update_of_ne hne]
    exact h u

/-- Storing into an empty slot adds one element. -/
theorem contents_store {nodes : List Word} {i : ℕ} (hi : nodes[i]? = some null)
    {x : UniquePtr D} (hx : x.ptr ≠ 0) :
    (contents D (nodes.set i x.word)).Perm (x :: contents D nodes) := by
  obtain ⟨hlt, hget⟩ := List.getElem?_eq_some_iff.1 hi
  have hset := (List.set_perm_cons_eraseIdx hlt x.word).filterMap (nodeLoad D)
  have hold := (List.getElem_cons_eraseIdx_perm hlt).filterMap (nodeLoad D)
  rw [List.filterMap_cons_some (nodeLoad_word hx)] at hset
  rw [hget, List.filterMap_cons_none nodeLoad_null] at hold
  exact hset.trans (hold.cons x)

/-- Emptying a slot removes what it held. -/
theorem contents_take {nodes : List Word} {i : ℕ} {w : Word} (hi : nodes[i]? = some w) :
    ((nodeLoad D w).toList ++ contents D (nodes.set i null)).Perm (contents D nodes) := by
  obtain ⟨hlt, hget⟩ := List.getElem?_eq_some_iff.1 hi
  have hset := (List.set_perm_cons_eraseIdx hlt null).filterMap (nodeLoad D)
  have hold := (List.getElem_cons_eraseIdx_perm hlt).filterMap (nodeLoad D)
  rw [List.filterMap_cons_none nodeLoad_null] at hset
  rw [hget, List.filterMap_cons] at hold
  cases hw : nodeLoad D w with
  | none =>
      rw [hw] at hold
      exact hset.trans hold
  | some y =>
      rw [hw] at hold
      exact (hset.cons y).trans hold

/-- An event that neither inserts nor removes. -/
theorem conserved_neutral {history : List (Event D)} {xs : List (UniquePtr D)} {ev : Event D}
    (h : (history.filterMap Event.inserted).Perm (history.filterMap Event.removed ++ xs))
    (hi : ev.inserted = none) (hr : ev.removed = none) :
    ((history ++ [ev]).filterMap Event.inserted).Perm
      ((history ++ [ev]).filterMap Event.removed ++ xs) := by
  simpa [List.filterMap_append, List.filterMap_cons, hi, hr] using h

/-! ### What every reachable state satisfies -/

/-- The part of the invariant that no schedule breaks. -/
structure Wf (n : ℕ) (s : State Tid D) : Prop where
  index : IndexInv n s
  planned : ∀ t, Planned n (s.pc t)
  slots : ∀ w ∈ s.nodes, SlotOk D w
  nonnull : ∀ t, (s.pc t).NonNull
  /-- Every inserted pointer has been removed or stands in a slot. -/
  conserved : (s.history.filterMap Event.inserted).Perm
    (s.history.filterMap Event.removed ++ contents D s.nodes)

omit [DecidableEq Tid] in
theorem wf_init {n : ℕ} (hn : 2 ≤ n) : Wf n (init Tid D n) where
  index := indexInv_init hn
  planned _ := trivial
  slots w hw := .inl (List.eq_of_mem_replicate hw)
  nonnull _ := trivial
  conserved := by simp [init, contents]

theorem slotOk_set {nodes : List Word} (h : ∀ w ∈ nodes, SlotOk D w) {v : Word}
    (hv : SlotOk D v) (i : ℕ) : ∀ w ∈ nodes.set i v, SlotOk D w := by
  intro w hw
  rcases List.mem_or_eq_of_mem_set hw with hw | rfl
  · exact h w hw
  · exact hv

theorem wf_step {n : ℕ} (hn : 2 ≤ n) (hn32 : n < 2 ^ 32) {s s' : State Tid D}
    {a : Label Tid D} (hnull : a.NonNull) (h : Wf n s) (hs : step s a = some s') :
    Wf n s' := by
  have hindex' := indexInv_step hn s a s' h.index hs
  obtain ⟨hindex, hplan, hslots, hnonnull, hcons⟩ := h
  have hcap : s.capacity = n := hindex.size
  cases step_trans hs with
  | call hpc =>
      exact ⟨hindex', planned_update hplan (planned_start hn _), hslots,
        nonNull_update hnonnull (start_nonNull hnull), hcons⟩
  | @pushClaim t x e d hpc hc =>
      have hx : x.ptr ≠ 0 := by simpa [hpc, Pc.NonNull] using hnonnull t
      exact ⟨hindex', planned_update hplan trivial, hslots, nonNull_update hnonnull hx, hcons⟩
  | @pushRetry t f x e d hpc hf =>
      have hx : x.ptr ≠ 0 := by simpa [hpc, Pc.NonNull] using hnonnull t
      refine ⟨hindex', planned_update hplan ?_, hslots, nonNull_update hnonnull hx, hcons⟩
      rw [hcap]
      exact planned_pushRetry hn hn32 hindex.counter x
  | @tryPushClaim t x e d hpc hc =>
      have hx : x.ptr ≠ 0 := by simpa [hpc, Pc.NonNull] using hnonnull t
      exact ⟨hindex', planned_update hplan trivial, hslots, nonNull_update hnonnull hx, hcons⟩
  | tryPushFull hpc hf hr =>
      exact ⟨hindex', planned_update hplan trivial, hslots, nonNull_update hnonnull trivial,
        conserved_neutral hcons rfl rfl⟩
  | @tryPushRetry t f x e d e' d' hpc hf hr =>
      have hx : x.ptr ≠ 0 := by simpa [hpc, Pc.NonNull] using hnonnull t
      rw [hcap] at hr
      exact ⟨hindex', planned_update hplan (planned_tryPushRetry hn32 hindex.counter x hr),
        hslots, nonNull_update hnonnull hx, hcons⟩
  | @store t x kind i hpc hslot =>
      have hx : x.ptr ≠ 0 := by simpa [hpc, Pc.NonNull] using hnonnull t
      refine ⟨hindex', planned_update hplan trivial, slotOk_set hslots (.inr ⟨x, hx, rfl⟩) i,
        nonNull_update hnonnull trivial, ?_⟩
      have hins : (kind.returned x).inserted = some x := by cases kind <;> rfl
      have hrem : (kind.returned x).removed = none := by cases kind <;> rfl
      simp only [ret_history, setNode_history, ret_nodes, setNode_nodes, List.filterMap_append,
        List.filterMap_cons, List.filterMap_nil, hins, hrem, List.append_nil]
      -- `x` is new in the history and new in the slots
      refine (List.perm_append_singleton _ _).trans ((hcons.cons x).trans ?_)
      exact List.perm_middle.symm.trans ((contents_store hslot hx).symm.append_left _)
  | storeRetry hpc hslot hf => exact ⟨hindex, hplan, hslots, hnonnull, hcons⟩
  | popClaim hpc hc =>
      exact ⟨hindex', planned_update hplan trivial, hslots, nonNull_update hnonnull trivial,
        hcons⟩
  | popEmpty hpc hf hr =>
      exact ⟨hindex', planned_update hplan trivial, hslots, nonNull_update hnonnull trivial,
        conserved_neutral hcons rfl rfl⟩
  | popRetry hpc hf hr =>
      rw [hcap] at hr
      exact ⟨hindex', planned_update hplan (planned_popRetry hn32 hindex.counter hr), hslots,
        nonNull_update hnonnull trivial, hcons⟩
  | @take t f i w hpc hslot =>
      refine ⟨hindex', planned_update hplan trivial, slotOk_set hslots (.inl rfl) i,
        nonNull_update hnonnull trivial, ?_⟩
      have hins : [(Event.popped true (nodeLoad D w) : Event D)].filterMap Event.inserted =
          [] := rfl
      have hrem : [(Event.popped true (nodeLoad D w) : Event D)].filterMap Event.removed =
          (nodeLoad D w).toList := by
        cases nodeLoad D w <;> rfl
      simp only [ret_history, setNode_history, ret_nodes, setNode_nodes, List.filterMap_append,
        hins, hrem, List.append_nil, List.append_assoc]
      exact hcons.trans ((contents_take hslot).symm.append_left _)

/-! ### The counting invariant -/

def Pc.storesAt (i : ℕ) : Pc D → ℕ
  | .store _ _ j => if j = i then 1 else 0
  | _ => 0

def Pc.takesAt (i : ℕ) : Pc D → ℕ
  | .take j => if j = i then 1 else 0
  | _ => 0

@[simp] theorem storesAt_idle (i : ℕ) : (.idle : Pc D).storesAt i = 0 := rfl

@[simp] theorem takesAt_idle (i : ℕ) : (.idle : Pc D).takesAt i = 0 := rfl

def occupied (nodes : List Word) (i : ℕ) : ℕ := if nodes[i]? = some null then 0 else 1

def windowed (n : ℕ) (c : PointerType) (i : ℕ) : ℕ := if InWindow n c.pop c.push i then 1 else 0

/-- At every slot the store that fills it and the removal that empties it
account for the difference between occupation and window. -/
def Balanced [Fintype Tid] (n : ℕ) (s : State Tid D) : Prop :=
  ∀ i < n, occupied s.nodes i + ∑ t, (s.pc t).storesAt i =
    windowed n s.counter i + ∑ t, (s.pc t).takesAt i

theorem occupied_set_self {nodes : List Word} {i : ℕ} (hi : i < nodes.length) (w : Word) :
    occupied (nodes.set i w) i = if w = null then 0 else 1 := by
  simp [occupied, List.getElem?_set_self hi]

theorem occupied_set_ne {nodes : List Word} {i j : ℕ} (h : i ≠ j) (w : Word) :
    occupied (nodes.set i w) j = occupied nodes j := by
  simp [occupied, List.getElem?_set_ne h]

theorem windowed_push {n : ℕ} {c : PointerType} (hc : c.Below n)
    (h : next n c.push ≠ c.pop) {i : ℕ} (hi : i < n) :
    windowed n ⟨next n c.push, c.pop⟩ i = windowed n c i + if c.push = i then 1 else 0 := by
  have hwin := inWindow_next_right hc.2 hc.1 hi h
  unfold windowed
  rcases eq_or_ne c.push i with rfl | hne
  · simp [hwin, not_inWindow_right]
  · simp [hwin, hne, hne.symm]

theorem windowed_pop {n : ℕ} {c : PointerType} (hc : c.Below n) (h : c.push ≠ c.pop)
    {i : ℕ} (hi : i < n) :
    windowed n ⟨c.push, next n c.pop⟩ i + (if c.pop = i then 1 else 0) = windowed n c i := by
  have hwin := inWindow_next_left hc.2 hc.1 hi h.symm
  unfold windowed
  rcases eq_or_ne c.pop i with rfl | hne
  · simp [hwin, inWindow_left hc.2 h.symm]
  · simp [hwin, hne, hne.symm]

section

variable [Fintype Tid]

omit [DecidableEq Tid] in
theorem balanced_init (n : ℕ) : Balanced n (init Tid D n) := by
  intro i hi
  simp [init, occupied, windowed, hi, Pc.storesAt, Pc.takesAt, InWindow]

/-- A step of thread `t` keeps the balance if, at every slot, what it
changes of the slot and the counter is made up for by what it changes of
the thread's locals. -/
theorem Balanced.move {n : ℕ} {s s' : State Tid D} (h : Balanced n s) {t : Tid} {p : Pc D}
    (hpc : s'.pc = Function.update s.pc t p)
    (hslot : ∀ i < n, occupied s'.nodes i + p.storesAt i +
        (windowed n s.counter i + (s.pc t).takesAt i) =
      windowed n s'.counter i + p.takesAt i + (occupied s.nodes i + (s.pc t).storesAt i)) :
    Balanced n s' := by
  intro i hi
  have hi' := h i hi
  have hst := sum_update_add (Pc.storesAt i) s.pc t p
  have htk := sum_update_add (Pc.takesAt i) s.pc t p
  have hslot := hslot i hi
  rw [hpc]
  omega

/-- A step that touches neither the counter nor a slot and neither begins
nor ends a pending store or removal. -/
theorem Balanced.locals {n : ℕ} {s s' : State Tid D} (h : Balanced n s) {t : Tid} {p : Pc D}
    (hpc : s'.pc = Function.update s.pc t p) (hnodes : s'.nodes = s.nodes)
    (hcounter : s'.counter = s.counter)
    (hold : ∀ i, (s.pc t).storesAt i = 0 ∧ (s.pc t).takesAt i = 0)
    (hnew : ∀ i, p.storesAt i = 0 ∧ p.takesAt i = 0) : Balanced n s' := by
  refine h.move hpc fun i _ => ?_
  have := hold i
  have := hnew i
  rw [hnodes, hcounter]
  omega

/-- A compare-exchange of a push claims the slot at the push index. -/
theorem Balanced.claimPush {n : ℕ} {s : State Tid D} (h : Balanced n s)
    (hc : s.counter.Below n) {t : Tid} {x : UniquePtr D} {kind : PushKind} {d : PointerType}
    (hd : d = ⟨next n s.counter.push, s.counter.pop⟩)
    (hroom : next n s.counter.push ≠ s.counter.pop)
    (hold : ∀ i, (s.pc t).storesAt i = 0 ∧ (s.pc t).takesAt i = 0) :
    Balanced n ((s.setCounter d).setPc t (.store x kind s.counter.push)) := by
  subst hd
  refine h.move rfl fun i hi => ?_
  have hwin := windowed_push hc hroom hi
  have hold := hold i
  simp only [setPc_nodes, setPc_counter, setCounter_nodes, setCounter_counter]
  simp only [Pc.storesAt, Pc.takesAt] at hold ⊢
  omega

/-- A pending store fills its slot, or a pending removal empties it. -/
theorem Balanced.setSlot {n : ℕ} {s s' : State Tid D} (h : Balanced n s) {t : Tid} {i : ℕ}
    {w : Word} (hpc : s'.pc = Function.update s.pc t .idle) (hnodes : s'.nodes = s.nodes.set i w)
    (hcounter : s'.counter = s.counter) (hi : i < s.nodes.length)
    (hself : (if w = null then 0 else 1) + (s.pc t).takesAt i =
      occupied s.nodes i + (s.pc t).storesAt i)
    (hother : ∀ j, i ≠ j → (s.pc t).storesAt j = 0 ∧ (s.pc t).takesAt j = 0) : Balanced n s' := by
  refine h.move hpc fun j _ => ?_
  rw [hnodes, hcounter, storesAt_idle, takesAt_idle]
  rcases eq_or_ne i j with rfl | hne
  · rw [occupied_set_self hi]
    omega
  · have := hother j hne
    rw [occupied_set_ne hne]
    omega

theorem balanced_step {n : ℕ} {s s' : State Tid D} {a : Label Tid D} (hwf : Wf n s)
    (h : Balanced n s) (hs : step s a = some s') (hfilled : TakesFilled s a s') :
    Balanced n s' := by
  have hc := hwf.index.counter
  cases step_trans hs with
  | @call t c hpc =>
      refine h.locals rfl rfl rfl (fun i => ?_) (fun i => ?_)
      · simp [hpc, Pc.storesAt, Pc.takesAt]
      · cases c <;> simp [Call.start, Pc.storesAt, Pc.takesAt]
  | @pushClaim t x e d hpc heq =>
      -- the counter still holds `e`, so the plan made for `e` is one for the counter
      have hplan := hwf.planned t
      rw [hpc, ← heq] at hplan
      rw [← heq]
      exact h.claimPush hc hplan.1 hplan.2 (by simp [hpc, Pc.storesAt, Pc.takesAt])
  | @tryPushClaim t x e d hpc heq =>
      have hplan := hwf.planned t
      rw [hpc, ← heq] at hplan
      rw [← heq]
      exact h.claimPush hc hplan.1 hplan.2 (by simp [hpc, Pc.storesAt, Pc.takesAt])
  | pushRetry hpc hf | tryPushFull hpc hf hr | tryPushRetry hpc hf hr | popEmpty hpc hf hr
  | popRetry hpc hf hr =>
      exact h.locals rfl rfl rfl (by simp [hpc, Pc.storesAt, Pc.takesAt])
        (by simp [Pc.storesAt, Pc.takesAt])
  | @store t x kind i hpc hslot =>
      have hx : x.ptr ≠ 0 := by simpa [hpc, Pc.NonNull] using hwf.nonnull t
      have hlen : i < s.nodes.length := (List.getElem?_eq_some_iff.1 hslot).1
      have hword : x.word ≠ null := pack_ne_null D.le_two hx x.deleter
      refine h.setSlot rfl rfl rfl hlen ?_ fun j hj => ?_
      · -- the pending store becomes an occupied slot
        simp [hpc, occupied, hslot, hword, Pc.storesAt, Pc.takesAt]
      · simp [hpc, hj, Pc.storesAt, Pc.takesAt]
  | storeRetry hpc hslot hf => exact h
  | @popClaim t e d hpc heq =>
      have hplan := hwf.planned t
      rw [hpc, ← heq] at hplan
      obtain ⟨rfl, hne⟩ := hplan
      rw [← heq]
      refine h.move rfl fun i hi => ?_
      -- the slot leaves the window and has a pending removal instead
      have hwin := windowed_pop hc hne hi
      simp only [hpc, setPc_nodes, setPc_counter, setCounter_nodes, setCounter_counter,
        Pc.storesAt, Pc.takesAt]
      omega
  | @take t f i w hpc hslot =>
      have hlen : i < s.nodes.length := (List.getElem?_eq_some_iff.1 hslot).1
      -- without the condition the slot may be empty here, and the sums differ by one
      have hfull := hfilled t f i rfl hpc
      refine h.setSlot rfl rfl rfl hlen ?_ fun j hj => ?_
      · simp [hpc, occupied, hfull, Pc.storesAt, Pc.takesAt]
      · simp [hpc, hj, Pc.storesAt, Pc.takesAt]

omit [DecidableEq Tid] in
/-- Without calls in progress the pending terms are zero. -/
theorem Balanced.windowOccupied {n : ℕ} {s : State Tid D} (h : Balanced n s)
    (hq : Quiescent s) : WindowOccupied n s := by
  intro i hi
  have hi' := h i hi
  rw [sum_eq_zero_of (Pc.storesAt i) s.pc (fun t => by simp [hq t, Pc.storesAt]),
    sum_eq_zero_of (Pc.takesAt i) s.pc (fun t => by simp [hq t, Pc.takesAt])] at hi'
  simp only [occupied, windowed] at hi'
  split_ifs at hi' <;> simp_all

end

/-! ### Draining a state without calls in progress -/

/-- Slots that are occupied exactly up to position `len` are the words of
their contents, followed by empty slots. -/
theorem slotWord_contents {r : List Word} {len : ℕ} (hok : ∀ w ∈ r, SlotOk D w)
    (hocc : ∀ k (hk : k < r.length), r[k] ≠ null ↔ k < len) (hlen : len ≤ r.length) :
    (contents D r).length = len ∧
      ∀ k (hk : k < r.length), r[k] = slotWord (contents D r)[k]? := by
  -- the occupied slots come first, so the first empty one ends the induction
  induction r generalizing len with
  | nil =>
      simp only [List.length_nil, Nat.le_zero] at hlen
      exact ⟨by simp [contents, hlen], fun k hk => absurd hk (by simp)⟩
  | cons w r ih =>
      have hok' : ∀ v ∈ r, SlotOk D v := fun v hv => hok v (List.mem_cons_of_mem _ hv)
      have hhead := hocc 0 (by simp)
      rcases hok w List.mem_cons_self with rfl | ⟨x, hx, rfl⟩
      · obtain rfl : len = 0 := by simpa using hhead
        have htail := ih hok' (fun k hk => by
          rw [← List.getElem_cons_succ null r k (by simpa using hk),
            hocc (k + 1) (by simpa using hk)]
          omega) (Nat.zero_le r.length)
        have hnil : contents D r = [] := List.length_eq_zero_iff.1 htail.1
        have hcons : contents D (null :: r) = [] := by
          rw [contents, List.filterMap_cons_none nodeLoad_null]
          exact hnil
        refine ⟨by rw [hcons]; rfl, fun k hk => ?_⟩
        have := hocc k hk
        rw [hcons]
        simpa using this
      · have hne : x.word ≠ null := pack_ne_null D.le_two hx x.deleter
        have hpos : 0 < len := hhead.1 hne
        have htail := ih hok' (fun k hk => show _ ↔ k < len - 1 by
          rw [← List.getElem_cons_succ x.word r k (by simpa using hk),
            hocc (k + 1) (by simpa using hk)]
          omega) (by simp only [List.length_cons] at hlen; omega)
        have hcons : contents D (x.word :: r) = x :: contents D r := by
          rw [contents, List.filterMap_cons_some (nodeLoad_word hx)]
          rfl
        refine ⟨by rw [hcons, List.length_cons, htail.1]; omega, fun k hk => ?_⟩
        rw [hcons]
        cases k with
        | zero => rfl
        | succ k => simpa using htail.2 k (by simpa using hk)

/-- The elements of the window, oldest first. -/
def windowContents (s : State Tid D) : List (UniquePtr D) :=
  contents D (s.nodes.rotate s.counter.pop)

omit [DecidableEq Tid] in
theorem windowContents_perm (s : State Tid D) :
    (windowContents s).Perm (contents D s.nodes) :=
  (List.rotate_perm _ _).filterMap _

omit [DecidableEq Tid] in
/-- When the occupied slots are the window, the ring buffer is at rest with
the contents of the window. -/
theorem rest_windowContents {n : ℕ} {s : State Tid D} (hwf : Wf n s)
    (hwin : WindowOccupied n s) :
    Rest n s.counter s.nodes (windowContents s) ∧ ∀ x ∈ windowContents s, x.ptr ≠ 0 := by
  obtain rfl : s.nodes.length = n := hwf.index.size
  obtain ⟨hpush, hpop⟩ := hwf.index.counter
  have hok : ∀ w ∈ s.nodes.rotate s.counter.pop, SlotOk D w := fun w hw =>
    hwf.slots w (List.mem_rotate.1 hw)
  have hrot : ∀ k (hk : k < (s.nodes.rotate s.counter.pop).length),
      s.nodes[(s.counter.pop + k) % s.nodes.length]? = some (s.nodes.rotate s.counter.pop)[k] := by
    intro k hk
    rw [List.getElem_rotate, Nat.add_comm k, List.getElem?_eq_getElem]
  have hocc : ∀ k (hk : k < (s.nodes.rotate s.counter.pop).length),
      (s.nodes.rotate s.counter.pop)[k] ≠ null ↔
        k < dist s.nodes.length s.counter.pop s.counter.push := by
    intro k hk
    have hkn : k < s.nodes.length := by simpa using hk
    have hi := hwin _ (Nat.mod_lt (s.counter.pop + k) (Nat.zero_lt_of_lt hpop))
    rw [hrot k hk, InWindow, dist_add_mod hpop hkn, ne_eq, Option.some.injEq] at hi
    exact hi
  obtain ⟨hlength, hwords⟩ := slotWord_contents hok hocc (by
    have := dist_lt hpop hpush
    rw [List.length_rotate]
    omega)
  refine ⟨⟨⟨rfl, fun i hi => ?_⟩, hlength.symm, hpush, hpop⟩, fun x hx => ?_⟩
  · have hd := dist_lt hpop hi
    have hk : dist s.nodes.length s.counter.pop i <
        (s.nodes.rotate s.counter.pop).length := by
      simpa using hd
    have hword := hrot _ hk
    rw [add_dist_mod hpop hi] at hword
    rw [hword, hwords _ hk]
    rfl
  · obtain ⟨w, hw, hload⟩ := List.mem_filterMap.1 hx
    rcases hok w hw with rfl | ⟨y, hy, rfl⟩
    · simp at hload
    · rw [nodeLoad_word hy, Option.some.injEq] at hload
      exact hload ▸ hy

omit [DecidableEq Tid] in
/-- With no call in progress any thread may be the one that runs. -/
theorem solo_windowContents {n : ℕ} {s : State Tid D} (hwf : Wf n s) (hq : Quiescent s)
    (hwin : WindowOccupied n s) (t : Tid) : Solo n t s (windowContents s) where
  others u _ := hq u
  nonnull := (rest_windowContents hwf hwin).2
  phase := by
    rw [hq t]
    exact (rest_windowContents hwf hwin).1

/-- A run of pops by one thread returns what the abstract FIFO returns. -/
theorem solo_run_pops {n : ℕ} (hn : 2 ≤ n) (hn32 : n < 2 ^ 32) {t : Tid} {s s' : State Tid D}
    {q : List (UniquePtr D)} (h : Solo n t s q) {as : List (Label Tid D)}
    (has : ∀ a ∈ as, OnlyPops t a) (hrun : run step s as = some s') :
    ∃ evs q', Solo n t s' q' ∧ s'.history = s.history ++ evs ∧
      evs.foldlM (replayEvent (n - 1)) q = some q' := by
  refine run_invariant_of_labels (I := fun s' => ∃ evs q', Solo n t s' q' ∧
    s'.history = s.history ++ evs ∧ evs.foldlM (replayEvent (n - 1)) q = some q')
    ?_ has ⟨[], q, h, by simp, rfl⟩ hrun
  rintro s₁ a s₂ ha ⟨evs, q₁, hsolo, hhist, hevs⟩ hs
  have hlabel : a.thread = t ∧ a.NonNull ∧ ∀ x, a ≠ .call t (.push x) := by
    cases a with
    | call u c =>
        obtain ⟨rfl, rfl⟩ := ha
        exact ⟨rfl, trivial, by simp⟩
    | exec u f => exact ⟨ha, trivial, by simp⟩
  obtain ⟨q₂, hsolo₂, hemits⟩ := solo_step hn hn32 hsolo hlabel.1 hlabel.2.1
    (fun x hx => absurd hx (hlabel.2.2 x)) hs
  rcases hemits with ⟨hh, rfl⟩ | ⟨ev, hh, hev⟩
  · exact ⟨evs, q₂, hsolo₂, hh.trans hhist, hevs⟩
  · refine ⟨evs ++ [ev], q₂, hsolo₂, by rw [hh, hhist, List.append_assoc], ?_⟩
    rw [List.foldlM_append, hevs]
    simp [hev]

/-- Two attempts take the first element, once `e_point` is the counter. -/
theorem run_claimed_pop {t : Tid} {s : State Tid D} {d : PointerType} {w : Word}
    (hpc : s.pc t = .pop s.counter d) (hw : s.nodes[s.counter.pop]? = some w) :
    ∃ s', run step s [.exec t false, .exec t false] = some s' ∧
      s'.history = s.history ++ [.popped true (nodeLoad D w)] ∧ s'.pc t = .idle := by
  refine ⟨(((s.setCounter d).setPc t (.take s.counter.pop)).setNode s.counter.pop null).ret t
    (.popped true (nodeLoad D w)), ?_, rfl, by simp⟩
  simp [run, step, hpc, casWeak, hw]

/-- One pop by itself returns the oldest element. -/
theorem pop_once {n : ℕ} (hn : 2 ≤ n) (hn32 : n < 2 ^ 32) {t : Tid} {s : State Tid D}
    {y : UniquePtr D} {q : List (UniquePtr D)} (h : Solo n t s (y :: q))
    (hidle : s.pc t = .idle) : ∃ as s', (∀ a ∈ as, OnlyPops t a) ∧
      run step s as = some s' ∧ s'.history = s.history ++ [.popped true (some y)] ∧
      Solo n t s' q ∧ s'.pc t = .idle := by
  have hrest : Rest n s.counter s.nodes (y :: q) := by simpa [hidle, Phase] using h.phase
  have hw : s.nodes[s.counter.pop]? = some y.word := hrest.slots.first hrest.below.2
  have hload : nodeLoad D y.word = some y := nodeLoad_word (h.nonnull y List.mem_cons_self)
  have hne : s.counter.push ≠ s.counter.pop := fun e => by simpa using hrest.empty_iff.1 e
  -- the first attempt succeeds when the counter happens to be the guess, the second always
  obtain ⟨as, s', has, hrun, hhist, hpc⟩ : ∃ as s', (∀ a ∈ as, OnlyPops t a) ∧
      run step s as = some s' ∧ s'.history = s.history ++ [.popped true (some y)] ∧
      s'.pc t = .idle := by
    have hcall : step s (.call t .pop) = some (s.setPc t (Call.pop (D := D)).start) := by
      simp [step, hidle]
    by_cases hguess : s.counter = popGuess.1
    · obtain ⟨s', hrun, hhist, hpc⟩ := run_claimed_pop (t := t)
        (s := s.setPc t (Call.pop (D := D)).start) (d := popGuess.2) (w := y.word)
        (by simp [Call.start, hguess]) hw
      refine ⟨[.call t .pop, .exec t false, .exec t false], s', by simp [OnlyPops], ?_,
        by simpa [hload] using hhist, hpc⟩
      rw [run_cons, hcall]
      exact hrun
    · have hretry : step (s.setPc t (Call.pop (D := D)).start) (.exec t false) =
          some ((s.setPc t (Call.pop (D := D)).start).setPc t
            (.pop s.counter ⟨s.counter.push, advance n s.counter.pop⟩)) := by
        simp [step, Call.start, casWeak, hguess, popRetry, State.capacity, hrest.length, hne]
      obtain ⟨s', hrun, hhist, hpc⟩ := run_claimed_pop (t := t)
        (s := (s.setPc t (Call.pop (D := D)).start).setPc t
          (.pop s.counter ⟨s.counter.push, advance n s.counter.pop⟩))
        (d := ⟨s.counter.push, advance n s.counter.pop⟩) (w := y.word) (by simp) hw
      refine ⟨[.call t .pop, .exec t false, .exec t false, .exec t false], s',
        by simp [OnlyPops], ?_, by simpa [hload] using hhist, hpc⟩
      rw [run_cons, hcall, Option.bind_some, run_cons, hretry]
      exact hrun
  obtain ⟨evs, q', hsolo', hhist', hevs⟩ := solo_run_pops hn hn32 h has hrun
  have hev : evs = [.popped true (some y)] :=
    (List.append_cancel_left (hhist.symm.trans hhist')).symm
  have hq' : q' = q := by
    subst hev
    simpa [replayEvent, eq_comm] using hevs
  exact ⟨as, s', has, hrun, hhist, hq' ▸ hsolo', hpc⟩

theorem drainsTo_of_solo {n : ℕ} (hn : 2 ≤ n) (hn32 : n < 2 ^ 32) {s : State Tid D}
    {q : List (UniquePtr D)} (hq : Quiescent s) (h : ∀ t, Solo n t s q) : DrainsTo n s q where
  sound t as s' has hrun := by
    obtain ⟨evs, q', -, hhist, hevs⟩ := solo_run_pops hn hn32 (h t) has hrun
    exact ⟨evs, q', hhist, hevs⟩
  complete t := by
    have hsolo := h t
    have hidle := hq t
    clear h hq
    induction q generalizing s with
    | nil => exact ⟨[], s, by simp, rfl, by simp⟩
    | cons y q ih =>
        obtain ⟨as, s₁, has, hrun, hhist, hsolo₁, hidle₁⟩ := pop_once hn hn32 hsolo hidle
        obtain ⟨bs, s₂, hbs, hrun₂, hhist₂⟩ := ih hsolo₁ hidle₁
        refine ⟨as ++ bs, s₂, fun a ha => ?_, run_trans hrun hrun₂, ?_⟩
        · exact (List.mem_append.1 ha).elim (has a) (hbs a)
        · rw [hhist₂, hhist]
          simp

/-! ### The whole run -/

/-- Nothing is lost in any state the schedule visits, and no pop that
advanced the pop index has returned `nullopt` in any of them. -/
def LosesNothing (n : ℕ) (as : List (Label Tid D)) : Prop :=
  Visits step (fun s : State Tid D => NothingLost n s ∧ NoEmptyPop s) (init Tid D n) as

theorem noEmptyPop_step {s s' : State Tid D} {a : Label Tid D} (h : NoEmptyPop s)
    (hs : step s a = some s') (hfilled : TakesFilled s a s') : NoEmptyPop s' := by
  unfold NoEmptyPop at h ⊢
  cases step_trans hs with
  | call hpc | pushClaim hpc hc | pushRetry hpc hf | tryPushClaim hpc hc
  | tryPushRetry hpc hf hr | storeRetry hpc hslot hf | popClaim hpc hc
  | popRetry hpc hf hr => exact h
  | tryPushFull hpc hf hr | popEmpty hpc hf hr => simpa using h
  | @store t x kind i hpc hslot =>
      cases kind <;> simpa [PushKind.returned] using h
  | @take t f i w hpc hslot =>
      have hne : w ≠ null := fun e => hfilled t f i rfl hpc (e ▸ hslot)
      simpa [nodeLoad, hne] using h

/-- A pop that finds its slot empty returns `nullopt`. -/
theorem takesFilled_of_noEmptyPop {s s' : State Tid D} {a : Label Tid D}
    (hs : step s a = some s') (h : NoEmptyPop s') : TakesFilled s a s' := by
  rintro t f i rfl hpc hnull
  simp only [step, hpc, hnull, Option.map_some, Option.some.injEq, nodeLoad_null] at hs
  subst hs
  exact h (by simp)

theorem nothingLost_of_balanced [Fintype Tid] {n : ℕ} (hn : 2 ≤ n) (hn32 : n < 2 ^ 32)
    {s : State Tid D} (hwf : Wf n s) (h : Balanced n s) : NothingLost n s := by
  intro hq
  have hwin := h.windowOccupied hq
  refine ⟨hwin, windowContents s,
    drainsTo_of_solo hn hn32 hq (solo_windowContents hwf hq hwin), ?_⟩
  exact hwf.conserved.trans ((windowContents_perm s).symm.append_left _)

/-- For every `max_size` of at least two, a schedule of pushes of non-null
pointers and of pops loses nothing if and only if every pop finds the slot
it has claimed filled. -/
theorem loses_nothing_iff [Fintype Tid] {n : ℕ} (hn : 2 ≤ n) (hn32 : n < 2 ^ 32)
    (as : List (Label Tid D)) (hnull : ∀ a ∈ as, a.NonNull) :
    LosesNothing n as ↔ Along step TakesFilled (init Tid D n) as := by
  have hwf₀ : Wf n (init Tid D n) := wf_init hn
  have hbal₀ : Balanced n (init Tid D n) := balanced_init n
  have hev₀ : NoEmptyPop (init Tid D n) := List.not_mem_nil
  unfold LosesNothing
  generalize init Tid D n = s at hwf₀ hbal₀ hev₀ ⊢
  induction as generalizing s with
  | nil => exact ⟨fun _ => trivial, fun _ => ⟨nothingLost_of_balanced hn hn32 hwf₀ hbal₀, hev₀⟩⟩
  | cons a as ih =>
      have hnull' : ∀ b ∈ as, b.NonNull := fun b hb => hnull b (List.mem_cons_of_mem _ hb)
      constructor
      · rintro ⟨-, hrest⟩ s' hs
        have hvisits := hrest s' hs
        have hev := hvisits.head.2
        have hfilled := takesFilled_of_noEmptyPop hs hev
        exact ⟨hfilled, (ih hnull' s' (wf_step hn hn32 (hnull a List.mem_cons_self) hwf₀ hs)
          (balanced_step hwf₀ hbal₀ hs hfilled) hev).1 hvisits⟩
      · intro halong
        refine ⟨⟨nothingLost_of_balanced hn hn32 hwf₀ hbal₀, hev₀⟩, fun s' hs => ?_⟩
        obtain ⟨hfilled, hrest⟩ := halong s' hs
        exact (ih hnull' s' (wf_step hn hn32 (hnull a List.mem_cons_self) hwf₀ hs)
          (balanced_step hwf₀ hbal₀ hs hfilled)
          (noEmptyPop_step hev₀ hs hfilled)).2 hrest

/-- A push that stores while a pop is about to claim. -/
def storeBeforeClaim : List (Label (Fin 2) ⟨1, by decide⟩) :=
  [.call 0 (.push ⟨8, 1⟩), .exec 0 false, .call 1 .pop, .exec 0 false, .exec 1 false,
    .exec 1 false]

theorem loses_nothing_iff_two :
    Along step TakesFilled (init (Fin 2) ⟨1, by decide⟩ 2) storeBeforeClaim ∧
      LosesNothing 2 storeBeforeClaim := by
  have hfilled : Along step TakesFilled (init (Fin 2) ⟨1, by decide⟩ 2) storeBeforeClaim := by
    decide
  refine ⟨hfilled, (loses_nothing_iff (by decide) (by decide) _ ?_).2 hfilled⟩
  simp [storeBeforeClaim, Label.NonNull]

/-- A pop that runs between the two steps of a push: the push has claimed
slot 0, the pop claims it too and finds it empty, and then the push
stores. No call is in progress, and the element is in no window. -/
theorem pop_between_claim_and_store :
    ¬ ∀ n, 2 ≤ n → ∀ as : List (Label (Fin 2) ⟨1, by decide⟩),
      (∀ a ∈ as, a.NonNull) → LosesNothing n as := by
  intro h
  have hvisits := h 2 (le_refl 2)
    [.call 0 (.push ⟨8, 1⟩), .exec 0 false, .call 1 .pop, .exec 1 false, .exec 1 false,
      .exec 0 false] (by simp [Label.NonNull])
  have hlast := hvisits.last rfl
  have hslot := (hlast.1 (Fin.forall_fin_two.2 ⟨rfl, rfl⟩)).1 0 (by decide)
  exact absurd hslot (by decide)

end JowiAsio.Ringbuf

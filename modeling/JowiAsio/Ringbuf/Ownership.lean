import JowiAsio.Lib.Custody
import JowiAsio.Ringbuf.Conservation

/-!
Who owns a pointer that has been handed to the ring buffer.

`push` and `try_push` take a `unique_ptr`, whose `release` gives the
pointer to a slot as a tagged word, and `pop` adopts it again. In every
reachable state each pointer is in one place: with the call that has not
stored it yet, in a slot, or in what a call returned. Nothing depends on
the window here, so this holds of the runs that lose elements as well.
-/

namespace JowiAsio.Ringbuf

open Lib TaggedPtr

variable {D : DeleterSize} {Tid : Type}

/-! ### The property and its condition -/

/-- The places a pointer can be in. Returned calls are numbered in the
order of the history. -/
inductive Place (Tid : Type)
  | pending (t : Tid)
  | slot (i : ℕ)
  | back (k : ℕ)
  | popped (k : ℕ)
  deriving DecidableEq

/-- The pointer of a call that has not stored it. -/
def Pc.held : Pc D → Option (UniquePtr D)
  | .push x _ _ | .tryPush x _ _ | .store x _ _ => some x
  | _ => none

/-- The pointer that a failed `try_push` hands back. -/
def Event.back : Event D → Option (UniquePtr D)
  | .tryPushed _ r => r
  | _ => none

def State.holds (s : State Tid D) : Place Tid → Option (UniquePtr D)
  | .pending t => (s.pc t).held
  | .slot i => s.nodes[i]?.bind (nodeLoad D)
  | .back k => s.history[k]?.bind Event.back
  | .popped k => s.history[k]?.bind Event.removed

/-- The pointer that a call hands to the queue. -/
def Label.handed : Label Tid D → Option (UniquePtr D)
  | .call _ (.push x) | .call _ (.tryPush x) => some x
  | _ => none

/-- The pointers that the calls of a schedule hand to the queue. -/
def handed (as : List (Label Tid D)) : List (UniquePtr D) := as.filterMap Label.handed

/-- The destructor of the queue: that of each node loads what its slot
holds, and the `unique_ptr` frees it. -/
def destroy (s : State Tid D) : List (UniquePtr D) := s.nodes.filterMap (nodeLoad D)

/-- A slot that holds a pointer is emptied by a pop, and changed by
nothing else. -/
def KeepsOccupied [DecidableEq Tid] (s : State Tid D) (a : Label Tid D) (s' : State Tid D) :
    Prop :=
  ∀ i w, s.nodes[i]? = some w → w ≠ null → s'.nodes[i]? ≠ some w →
    ∃ t f, a = .exec t f ∧ s.pc t = .take i ∧ s'.nodes[i]? = some null

/-! ### What a step moves -/

section

variable [DecidableEq Tid] {s s' : State Tid D}

/-- What an event that is recorded last contributes. -/
theorem bind_history (history : List (Event D)) (ev : Event D)
    (f : Event D → Option (UniquePtr D)) (k : ℕ) :
    (history ++ [ev])[k]?.bind f =
      if k = history.length then f ev else history[k]?.bind f := by
  rw [List.getElem?_append]
  split_ifs with hlt heq heq
  · omega
  · rfl
  · simp [heq]
  · rw [List.getElem?_eq_none (by simp; omega), List.getElem?_eq_none (by omega)]

/-- The calls in progress, when thread `t` goes to `p`. -/
theorem holds_pending {v : State Tid D} {t : Tid} {p : Pc D}
    (hpc : v.pc = Function.update s.pc t p) (u : Tid) :
    v.holds (.pending u) = if u = t then p.held else s.holds (.pending u) := by
  simp only [State.holds, hpc, Function.update_apply]
  split_ifs <;> rfl

/-- A step that moves no pointer. -/
theorem holds_same {t : Tid} {p : Pc D} (hpc : s'.pc = Function.update s.pc t p)
    (hp : p.held = (s.pc t).held) (hnodes : s'.nodes = s.nodes)
    (hhistory : s'.history = s.history ∨
      ∃ ev : Event D, s'.history = s.history ++ [ev] ∧ ev.back = none ∧ ev.removed = none)
    (q : Place Tid) : s'.holds q = s.holds q := by
  have hrecorded : ∀ (f : Event D → Option (UniquePtr D)), (f = Event.back ∨ f = Event.removed) →
      ∀ k : ℕ, s'.history[k]?.bind f = s.history[k]?.bind f := by
    intro f hf k
    rcases hhistory with hsame | ⟨ev, hev, hback, hremoved⟩
    · rw [hsame]
    · have hnone : f ev = none := by rcases hf with rfl | rfl <;> assumption
      rw [hev, bind_history]
      split_ifs with hk
      · rw [hnone, List.getElem?_eq_none (by omega), Option.bind_none]
      · rfl
  cases q with
  | pending u =>
      rw [holds_pending hpc]
      split_ifs with hu
      · rw [hp, hu, State.holds]
      · rfl
  | slot i => simp only [State.holds, hnodes]
  | back k => exact hrecorded _ (.inl rfl) k
  | popped k => exact hrecorded _ (.inr rfl) k

/-- A call hands its pointer over when it begins. -/
theorem custody_call {as : List (Label Tid D)} {t : Tid} {c : Call D}
    (h : Custody UniquePtr.ptr s.holds (handed as)) (hpc : s.pc t = .idle)
    (hnew : ∀ x, (Label.call t c).handed = some x → ∀ y ∈ handed as, y.ptr ≠ x.ptr) :
    Custody UniquePtr.ptr (s.setPc t c.start).holds (handed (as ++ [.call t c])) := by
  have hempty : s.holds (.pending t) = none := by simp [State.holds, hpc, Pc.held]
  have hother : ∀ p, p ≠ .pending t → (s.setPc t c.start).holds p = s.holds p := by
    intro p hp
    cases p with
    | pending u =>
        rw [holds_pending rfl, if_neg]
        rintro rfl
        exact hp rfl
    | slot | back | popped => rfl
  have harrive : ∀ x, (Label.call t c).handed = some x → c.start.held = some x →
      Custody UniquePtr.ptr (s.setPc t c.start).holds (handed (as ++ [.call t c])) := by
    intro x hx hheld
    have hitems : handed (as ++ [.call t c]) = handed as ++ [x] := by
      simp [handed, hx]
    rw [hitems]
    refine h.arrive (a := .pending t) ?_ hempty hother (hnew x hx)
    rw [holds_pending rfl, if_pos rfl, hheld]
  cases c with
  | push x => exact harrive x rfl rfl
  | tryPush x => exact harrive x rfl rfl
  | pop =>
      have hitems : handed (as ++ [.call t .pop]) = handed as := by simp [handed, Label.handed]
      rw [hitems]
      exact h.congr (holds_same rfl (by simp [hpc, Call.start, Pc.held]) rfl (.inl rfl))

/-- `blocking_store` puts the pointer of its call into an empty slot. -/
theorem custody_store {items : List (UniquePtr D)} {t : Tid} {x : UniquePtr D}
    {kind : PushKind} {i : ℕ} (h : Custody UniquePtr.ptr s.holds items) (hx : x.ptr ≠ 0)
    (hpc : s.pc t = .store x kind i) (hslot : s.nodes[i]? = some null) :
    Custody UniquePtr.ptr ((s.setNode i x.word).ret t (kind.returned x)).holds items := by
  have hlen : i < s.nodes.length := (List.getElem?_eq_some_iff.1 hslot).1
  have hpending := holds_pending (s := s) (v := (s.setNode i x.word).ret t (kind.returned x))
    (t := t) (p := .idle) rfl
  have hneutral : (kind.returned x).back = none ∧ (kind.returned x).removed = none := by
    cases kind <;> exact ⟨rfl, rfl⟩
  refine h.move (a := .pending t) (b := .slot i) ?_ ?_ ?_ fun p hpa hpb => ?_
  · rw [hpending, if_pos rfl]
    rfl
  · simp [State.holds, hpc, Pc.held, List.getElem?_set_self hlen, nodeLoad_word hx]
  · simp [State.holds, hslot]
  · cases p with
    | pending u =>
        rw [hpending, if_neg]
        rintro rfl
        exact hpa rfl
    | slot j =>
        have hne : i ≠ j := by
          rintro rfl
          exact hpb rfl
        simp [State.holds, List.getElem?_set_ne hne]
    | back k | popped k =>
        simp only [State.holds, ret_history, setNode_history, bind_history, hneutral]
        split_ifs with hk
        · rw [List.getElem?_eq_none (by omega), Option.bind_none]
        · rfl

/-- `load` takes out of a slot what a pop returns. -/
theorem custody_take {items : List (UniquePtr D)} {t : Tid} {i : ℕ} {w : Word}
    (h : Custody UniquePtr.ptr s.holds items) (hpc : s.pc t = .take i)
    (hslot : s.nodes[i]? = some w) :
    Custody UniquePtr.ptr ((s.setNode i null).ret t (.popped true (nodeLoad D w))).holds
      items := by
  have hlen : i < s.nodes.length := (List.getElem?_eq_some_iff.1 hslot).1
  refine h.move (a := .slot i) (b := .popped s.history.length) ?_ ?_ ?_ fun p hpa hpb => ?_
  · simp [State.holds, List.getElem?_set_self hlen]
  · simp [State.holds, hslot, Event.removed]
  · simp [State.holds]
  · cases p with
    | pending u =>
        rw [holds_pending (s := s) (t := t) (p := .idle) rfl]
        split_ifs with hu
        · simp [State.holds, hu, hpc, Pc.held]
        · rfl
    | slot j =>
        have hne : i ≠ j := by
          rintro rfl
          exact hpa rfl
        simp [State.holds, List.getElem?_set_ne hne]
    | back k =>
        simp only [State.holds, ret_history, setNode_history, bind_history, Event.back]
        split_ifs with hk
        · rw [List.getElem?_eq_none (by omega), Option.bind_none]
        · rfl
    | popped k =>
        have hne : k ≠ s.history.length := by
          rintro rfl
          exact hpb rfl
        simp only [State.holds, ret_history, setNode_history, bind_history, if_neg hne]

/-- A `try_push` that finds no room hands its pointer back. -/
theorem custody_full {items : List (UniquePtr D)} {t : Tid} {x : UniquePtr D}
    {e d : PointerType} (h : Custody UniquePtr.ptr s.holds items)
    (hpc : s.pc t = .tryPush x e d) :
    Custody UniquePtr.ptr (s.ret t (.tryPushed x (some x))).holds items := by
  have hpending := holds_pending (s := s) (v := s.ret t (.tryPushed x (some x))) (t := t)
    (p := .idle) rfl
  refine h.move (a := .pending t) (b := .back s.history.length) ?_ ?_ ?_ fun p hpa hpb => ?_
  · rw [hpending, if_pos rfl]
    rfl
  · simp [State.holds, hpc, Pc.held, Event.back]
  · simp [State.holds]
  · cases p with
    | pending u =>
        rw [hpending, if_neg]
        rintro rfl
        exact hpa rfl
    | slot j => rfl
    | back k =>
        have hne : k ≠ s.history.length := by
          rintro rfl
          exact hpb rfl
        simp only [State.holds, ret_history, bind_history, if_neg hne]
    | popped k =>
        simp only [State.holds, ret_history, bind_history, Event.removed]
        split_ifs with hk
        · rw [List.getElem?_eq_none (by omega), Option.bind_none]
        · rfl

theorem custody_step {as : List (Label Tid D)} {a : Label Tid D}
    (h : Custody UniquePtr.ptr s.holds (handed as)) (hnonnull : ∀ t, (s.pc t).NonNull)
    (hnew : ∀ x, a.handed = some x → ∀ y ∈ handed as, y.ptr ≠ x.ptr) (hs : step s a = some s') :
    Custody UniquePtr.ptr s'.holds (handed (as ++ [a])) := by
  have hexec : ∀ {t f}, a = .exec t f → handed (as ++ [a]) = handed as := by
    rintro t f rfl
    simp [handed, Label.handed]
  cases step_trans hs with
  | call hpc => exact custody_call h hpc hnew
  | pushClaim hpc | pushRetry hpc | tryPushClaim hpc | tryPushRetry hpc | popClaim hpc
  | popRetry hpc =>
      rw [hexec rfl]
      exact h.congr (holds_same rfl (by simp [hpc, Pc.held]) rfl (.inl rfl))
  | tryPushFull hpc =>
      rw [hexec rfl]
      exact custody_full h hpc
  | @store t x kind i hpc hslot =>
      rw [hexec rfl]
      exact custody_store h (by simpa [hpc, Pc.NonNull] using hnonnull t) hpc hslot
  | storeRetry =>
      rw [hexec rfl]
      exact h
  | popEmpty hpc =>
      rw [hexec rfl]
      exact h.congr (holds_same rfl (by simp [hpc, Pc.held]) rfl (.inr ⟨_, rfl, rfl, rfl⟩))
  | take hpc hslot =>
      rw [hexec rfl]
      exact custody_take h hpc hslot

/-- No pointer that a call has not stored is null. -/
theorem nonNull_step {a : Label Tid D} (hnull : a.NonNull) (h : ∀ t, (s.pc t).NonNull)
    (hs : step s a = some s') : ∀ t, (s'.pc t).NonNull := by
  have hx : ∀ {t x}, (s.pc t).held = some x → x.ptr ≠ 0 := by
    intro t x ht
    have ht' := h t
    cases hpc : s.pc t <;> simp_all [Pc.held, Pc.NonNull]
  cases step_trans hs with
  | call => exact nonNull_update h (start_nonNull hnull)
  | pushClaim hpc | pushRetry hpc | tryPushClaim hpc | tryPushRetry hpc =>
      exact nonNull_update h (hx (by rw [hpc]; rfl))
  | tryPushFull | store | popClaim | popEmpty | popRetry | take => exact nonNull_update h trivial
  | storeRetry => exact h

theorem keepsOccupied_step {a : Label Tid D} (hs : step s a = some s') : KeepsOccupied s a s' := by
  intro i w hi hw hchanged
  cases step_trans hs with
  | call | pushClaim | pushRetry | tryPushClaim | tryPushRetry | popClaim | tryPushFull
  | storeRetry | popEmpty | popRetry => exact absurd hi hchanged
  | @store t x kind j hpc hslot =>
      -- it has found its slot empty, so it is another one
      have hne : j ≠ i := by
        rintro rfl
        rw [hi, Option.some.injEq] at hslot
        exact hw hslot
      refine absurd ?_ hchanged
      simpa [List.getElem?_set_ne hne] using hi
  | @take t f j v hpc hslot =>
      have heq : j = i := by
        by_contra hne
        refine hchanged ?_
        simpa [List.getElem?_set_ne hne] using hi
      subst heq
      refine ⟨t, f, rfl, hpc, ?_⟩
      simp [List.getElem?_set_self (List.getElem?_eq_some_iff.1 hi).1]

end

/-! ### Whole runs -/

/-- What is freed is in the slots. -/
theorem mem_destroy {s : State Tid D} {x : UniquePtr D} :
    x ∈ destroy s ↔ ∃ i, s.holds (.slot i) = some x := by
  simp only [destroy, List.mem_filterMap, State.holds, Option.bind_eq_some_iff]
  constructor
  · rintro ⟨w, hw, hx⟩
    obtain ⟨i, hi⟩ := List.mem_iff_getElem?.1 hw
    exact ⟨i, w, hi, hx⟩
  · rintro ⟨i, w, hi, hx⟩
    exact ⟨w, List.mem_of_getElem? hi, hx⟩

/-- No pointer stands in two slots, so none is freed twice. -/
theorem destroy_nodup {s : State Tid D} {items : List (UniquePtr D)}
    (h : Custody UniquePtr.ptr s.holds items) : ((destroy s).map UniquePtr.ptr).Nodup := by
  refine Custody.nodup_row fun i j x y hi hj hxy => ?_
  exact Place.slot.inj (h.once (.slot i) (.slot j) x y hi hj hxy)

theorem custody_init (n : ℕ) : Custody UniquePtr.ptr (init Tid D n).holds [] := by
  refine Custody.empty _ fun p => ?_
  cases p with
  | slot i =>
      simp only [State.holds, init, List.getElem?_replicate]
      split_ifs <;> simp
  | pending | back | popped => rfl

variable [DecidableEq Tid]

/-- Every pointer has one owner. In every reachable state a pointer that a
call has handed to the queue is in exactly one place, with the deleter it
came with, and no place holds any other pointer. No store overwrites a
pointer, and the destructor of a queue without calls in progress frees the
pointers in the slots, each of them once. -/
theorem pointers_in_one_place {n : ℕ} {as : List (Label Tid D)} {s : State Tid D}
    (hnull : ∀ a ∈ as, a.NonNull) (hdistinct : ((handed as).map UniquePtr.ptr).Nodup)
    (hrun : run step (init Tid D n) as = some s) :
    (∀ x ∈ handed as, ∃ p, s.holds p = some x ∧
        ∀ q y, s.holds q = some y → y.ptr = x.ptr → q = p ∧ y = x) ∧
      (∀ p x, s.holds p = some x → x ∈ handed as) ∧
      Along step KeepsOccupied (init Tid D n) as ∧
      (Quiescent s → ((destroy s).map UniquePtr.ptr).Nodup ∧
        ∀ x, x ∈ destroy s ↔ ∃ i, s.holds (.slot i) = some x) := by
  have hcustody : Custody UniquePtr.ptr s.holds (handed as) ∧ ∀ t, (s.pc t).NonNull := by
    have hinv := run_schedule_invariant (p := []) (I := fun s as => (∀ a ∈ as, a.NonNull) →
      ((handed as).map UniquePtr.ptr).Nodup →
        Custody UniquePtr.ptr s.holds (handed as) ∧ ∀ t, (s.pc t).NonNull) ?_
      (fun _ _ => ⟨custody_init n, fun _ => trivial⟩) hrun
    · exact hinv hnull hdistinct
    intro s a s' as ih hs hnull hdistinct
    have hsplit : handed (as ++ [a]) = handed as ++ (Label.handed a).toList := by
      cases ha : a.handed <;> simp [handed, ha]
    rw [hsplit, List.map_append, List.nodup_append] at hdistinct
    obtain ⟨hcustody, hnonnull⟩ :=
      ih (fun b hb => hnull b (List.mem_append_left _ hb)) hdistinct.1
    refine ⟨custody_step hcustody hnonnull (fun x hx y hy => ?_) hs,
      nonNull_step (hnull a (by simp)) hnonnull hs⟩
    exact hdistinct.2.2 _ (List.mem_map_of_mem hy) _ (by simp [hx])
  refine ⟨fun x hx => hcustody.1.existsUnique hx, hcustody.1.known, ?_, fun _ =>
    ⟨destroy_nodup hcustody.1, fun x => mem_destroy⟩⟩
  refine along_of_invariant (I := fun _ => True) (fun _ _ _ _ _ => trivial) ?_ trivial as
  exact fun s a s' _ hs => keepsOccupied_step hs

/-- A push that stalls between its claim and its store, a pop that claims
the same slot meanwhile, and a second push that is still pending. -/
def stalledPush (t u : Tid) (x y : UniquePtr D) : List (Label Tid D) :=
  [.call t (.push x), .exec t false, .call u .pop, .exec u false, .exec u false,
    .exec t false, .call u (.push y), .exec u false]

theorem pointers_in_one_place_stalledPush : ∃ s : State (Fin 2) ⟨1, by decide⟩,
    run step (init (Fin 2) _ 2) (stalledPush 0 1 ⟨8, 1⟩ ⟨16, 2⟩) = some s ∧
      s.holds (.slot 0) = some ⟨8, 1⟩ ∧ s.holds (.pending 1) = some ⟨16, 2⟩ ∧
      ∀ q y, s.holds q = some y → y.ptr = 8 → q = .slot 0 ∧ y = ⟨8, 1⟩ := by
  obtain ⟨s, hrun, hslot, hpending⟩ : ∃ s : State (Fin 2) ⟨1, by decide⟩,
      run step (init (Fin 2) _ 2) (stalledPush 0 1 ⟨8, 1⟩ ⟨16, 2⟩) = some s ∧
        s.holds (.slot 0) = some ⟨8, 1⟩ ∧ s.holds (.pending 1) = some ⟨16, 2⟩ :=
    ⟨_, rfl, rfl, rfl⟩
  have howned := (pointers_in_one_place (by simp [stalledPush, Label.NonNull])
    (by decide) hrun).1 ⟨8, 1⟩ (by decide)
  obtain ⟨p, -, honly⟩ := howned
  obtain ⟨rfl, -⟩ := honly _ _ hslot rfl
  exact ⟨s, hrun, hslot, hpending, honly⟩

end JowiAsio.Ringbuf

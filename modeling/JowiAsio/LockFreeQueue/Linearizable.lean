import JowiAsio.Lib.Fifo
import JowiAsio.Lib.Linearization
import JowiAsio.LockFreeQueue.Progress
import JowiAsio.LockFreeQueue.Removal

/-!
The concurrent calls as a FIFO.

A push takes effect when its compare-exchange links its node, and a call of
`__pop` when its compare-exchange removes a node or when it finds
`__head.next` null. What is returned is fixed there, and the call returns
later. `clear` calls `__pop` until the queue is empty, so it has many such
points.

The two ways to lose a node are excluded by a condition each. A pop that
has read a null successor removes its node together with what has been
linked behind it since (`NoneLinkedSince`), and a push may link its node
behind one that has been removed (`LinksBehindKept`). In all other runs
the nodes that are linked and not removed are the reachable ones, and the
calls are answered as a FIFO list answers them at their points.
-/

namespace JowiAsio.LockFreeQueue

open Lib

variable {Tid α : Type}

/-! ### What the calls are answered -/

/-- What a call is answered, or a call of `__pop` that `clear` makes and
that gives it a node. -/
inductive Answer (α : Type)
  | pushed (v : α)
  | popped (r : Option α)
  | discarded (v : α)
  | cleared
  deriving DecidableEq

/-- What is recorded when it is returned. -/
def Answer.event : Answer α → List (Event α)
  | .pushed _ => [.pushed]
  | .popped r => [.popped r]
  | .discarded _ => []
  | .cleared => [.cleared]

def Event.isSized : Event α → Bool
  | .sized _ => true
  | _ => false

/-- A FIFO list gives this answer. -/
def fifoAnswer [DecidableEq α] (q : List α) : Answer α → Option (List α)
  | .pushed v => some (q ++ [v])
  | .popped none | .cleared => if q = [] then some [] else none
  | .popped (some v) | .discarded v => if (Fifo.pop q).1 = some v then some (Fifo.pop q).2 else none

/-- `__pop` has got a node with the value `v`. -/
def Popper.took (v : α) : Popper → Answer α
  | .pop => .popped (some v)
  | .clear => .discarded v

/-- `__pop` has got no node. -/
def Popper.nothing : Popper → Answer α
  | .pop => .popped none
  | .clear => .cleared

/-- The call that takes effect at a step, with what it will return. -/
def point (s : State Tid α) : Label Tid α → List (Tid × Answer α)
  | .call _ _ => []
  | .exec t =>
      match s.pc t with
      | .linkCas n tail =>
          if s.next tail = none then (s.value n).toList.map fun v => (t, .pushed v) else []
      | .loadHead k => if s.next 0 = none then [(t, k.nothing)] else []
      | .headCas k n _ =>
          if s.next 0 = some n then (s.value n).toList.map fun v => (t, k.took v)
          else if s.next 0 = none then [(t, k.nothing)] else []
      | _ => []

/-- The call that returns at a step, with what it returns. -/
def returned (s : State Tid α) : Label Tid α → List (Tid × Answer α)
  | .call _ _ => []
  | .exec t =>
      match s.pc t with
      | .addSize n => (s.value n).toList.map fun v => (t, .pushed v)
      | .resetTail k => [(t, k.nothing)]
      | .resetNext k n => (s.value n).toList.map fun v => (t, k.took v)
      | _ => []

/-- What a call will return that has taken effect. -/
def Pc.pending (value : ℕ → Option α) : Pc → List (Answer α)
  | .storeTail n | .addSize n => (value n).toList.map .pushed
  | .resetTail k => [k.nothing]
  | .subSize k n | .resetNext k n => (value n).toList.map k.took
  | _ => []

def pending (s : State Tid α) (t : Tid) : List (Answer α) := (s.pc t).pending s.value

/-! ### The condition and the invariant -/

/-- The condition on a step: no push links its node behind one that has
been removed. -/
def LinksBehindKept (s : State Tid α) (a : Label Tid α) (_ : State Tid α) : Prop :=
  ∀ t n tail, a = .exec t → s.pc t = .linkCas n tail → s.next tail = none → tail ∉ s.removed

/-- The reachable nodes are all that have been linked and not removed, and
they hold the elements of `q`. -/
def Contains (s : State Tid α) (q : List α) (l : List ℕ) : Prop :=
  Reaches s l ∧ s.linked = s.removed ++ l ∧ l.map s.value = q.map some

structure Queued (s : State Tid α) (q : List α) : Prop where
  inv : Inv s
  valued : Valued s
  contents : ∃ l, Contains s q l

/-! ### What the steps do to the contents -/

section

variable {s s' : State Tid α} {q : List α} {l : List ℕ}

theorem Contains.congr (h : Contains s q l) (hnext : s'.next = s.next)
    (hlinked : s'.linked = s.linked) (hremoved : s'.removed = s.removed)
    (hvalue : ∀ n ∈ l, s'.value n = s.value n) : Contains s' q l := by
  obtain ⟨hreach, hsplit, hq⟩ := h
  refine ⟨?_, by rw [hlinked, hremoved, hsplit], ?_⟩
  · rw [Reaches, hnext]
    exact hreach
  · rw [← hq]
    exact List.map_congr_left hvalue

/-- The queue is empty when `__head.next` is null. -/
theorem Contains.empty (h : Contains s q l) (hnone : s.next 0 = none) : q = [] := by
  obtain ⟨hreach, -, hq⟩ := h
  rw [Reaches, hnone] at hreach
  rw [hreach.eq_nil] at hq
  exact List.map_eq_nil_iff.1 hq.symm

/-- A node is linked behind the last reachable one. -/
theorem Contains.link (hinv : Inv s) (h : Contains s q l) {a n : ℕ} {v : α} (hn : Fresh s n)
    (ha : Known s a) (hkept : a ∉ s.removed) (hend : s.next a = none) (hv : s.value n = some v) :
    Contains (s.link a n) (q ++ [v]) (l ++ [n]) := by
  obtain ⟨hreach, hsplit, hq⟩ := h
  have hnl : n ∉ l := fun hmem => hn.1 (hinv.shape.chain_linked hreach hmem)
  have hnone : s.next n = none := hinv.shape.next_fresh n hn.not_known
  refine ⟨?_, ?_, ?_⟩
  · rcases eq_or_ne a 0 with rfl | ha0
    · rw [Reaches, hend] at hreach
      obtain rfl := hreach.eq_nil
      simp [Reaches, State.link, Function.update_of_ne hn.2.1.ne', hnone]
    · have hmem : a ∈ l := by
        have hlinked := ha.resolve_left ha0
        rw [hsplit] at hlinked
        exact (List.mem_append.1 hlinked).resolve_left hkept
      have hhead : (s.link a n).next 0 = s.next 0 := Function.update_of_ne ha0.symm _ _
      rw [Reaches, hhead]
      exact hreach.link hmem hend hnl hnone
  · show s.linked ++ [n] = s.removed ++ (l ++ [n])
    rw [hsplit, List.append_assoc]
  · show (l ++ [n]).map s.value = (q ++ [v]).map some
    simp [hq, hv]

/-- The first node is removed, and its successor takes its place. -/
theorem Contains.unlink (hinv : Inv s) (h : Contains s q l) {n : ℕ} (hn : s.next 0 = some n) :
    ∃ v q' l', s.value n = some v ∧ q = v :: q' ∧ Contains (s.unlink n (s.next n)) q' l' := by
  obtain ⟨hreach, hsplit, hq⟩ := h
  have h0 : 0 ∉ l := fun hmem => hinv.shape.ne_zero (hinv.shape.chain_linked hreach hmem) rfl
  rw [Reaches, hn] at hreach
  obtain ⟨l', rfl, hrest⟩ := hreach.eq_cons
  cases q with
  | nil => cases hq
  | cons v q' =>
      obtain ⟨hv, hq'⟩ : s.value n = some v ∧ l'.map s.value = q'.map some := by simpa using hq
      refine ⟨v, q', l', hv, rfl, ?_, ?_, hq'⟩
      · have hhead : (s.unlink n (s.next n)).next 0 = s.next n := by simp [State.unlink]
        rw [Reaches, hhead]
        exact hrest.update (fun hmem => h0 (List.mem_cons_of_mem _ hmem)) _
      · show s.linked = s.removed ++ [n] ++ l'
        rw [hsplit, List.append_assoc]
        rfl

/-- The reset of a removed node is not seen. -/
theorem Contains.resetNext (hinv : Inv s) (h : Contains s q l) {n : ℕ} (hn : n ∈ s.removed) :
    Contains (s.setNext n none) q l := by
  obtain ⟨hreach, hsplit, hq⟩ := h
  have hne : 0 ≠ n := (hinv.shape.ne_zero (hinv.shape.removed_linked hn)).symm
  refine ⟨?_, hsplit, hq⟩
  have hhead : (s.setNext n none).next 0 = s.next 0 := Function.update_of_ne hne _ _
  rw [Reaches, hhead]
  exact hreach.update (fun hmem => hinv.shape.not_removed hreach hmem hn) none

end

/-! ### One step -/

/-- What is pending is known by nodes that are there already. -/
theorem Inv.pending_makeNode {s : State Tid α} (h : Inv s) (v : α) (u : Tid) :
    (s.pc u).pending (s.makeNode v).value = (s.pc u).pending s.value := by
  have hsame : ∀ n ∈ s.linked, (s.makeNode v).value n = s.value n := fun n hn =>
    Function.update_of_ne (Nat.ne_of_lt (h.shape.bound n hn).2) _ _
  have hlocal := h.locals u
  cases hpc : s.pc u <;> simp only [hpc, Local] at hlocal <;> simp only [Pc.pending]
  case storeTail n | addSize n => rw [hsame n hlocal]
  case subSize k n | resetNext k n => rw [hsame n (h.shape.removed_linked hlocal)]

section

variable [DecidableEq Tid] {s s' : State Tid α} {q q' : List α}

/-- What a step does to the FIFO list and to the answers. -/
structure StepsAs [DecidableEq α] (s : State Tid α) (a : Label Tid α) (s' : State Tid α)
    (q q' : List α) : Prop where
  legal : ((point s a).map Prod.snd).foldlM fifoAnswer q = some q'
  answers : ∀ t, pending s t ++ byThread t (point s a) =
    byThread t (returned s a) ++ pending s' t

/-- A step of thread `t` to `p` that takes effect as `pts` and returns
`rets`. -/
theorem stepsAs [DecidableEq α] {a : Label Tid α} {t : Tid} {p : Pc} (pts rets : List (Answer α))
    (hpc : s'.pc = Function.update s.pc t p) (hvalue : ∀ u, u ≠ t →
      (s.pc u).pending s'.value = (s.pc u).pending s.value)
    (hpoint : point s a = pts.map (Prod.mk t)) (hreturned : returned s a = rets.map (Prod.mk t))
    (hlegal : pts.foldlM fifoAnswer q = some q')
    (hself : (s.pc t).pending s.value ++ pts = rets ++ p.pending s'.value) :
    StepsAs s a s' q q' := by
  refine ⟨?_, fun u => ?_⟩
  · rw [hpoint, List.map_map]
    simpa using hlegal
  · rw [hpoint, hreturned]
    refine answers_of_thread ?_ (fun v hv => ?_) u
    · rwa [pending, pending, hpc, Function.update_self]
    · rw [pending, pending, hpc, Function.update_of_ne hv, hvalue v hv]

theorem queued_step [DecidableEq α] {a : Label Tid α} (h : Queued s q)
    (hs : step s a = some s') (hC : NoneLinkedSince s a s' ∧ LinksBehindKept s a s') :
    ∃ q', Queued s' q' ∧ StepsAs s a s' q q' := by
  have hinv := inv_step s a s' h.inv hs
  have hvalued := valued_step h.valued hs
  obtain ⟨l, hl⟩ := h.contents
  -- steps that leave the nodes as they are
  have hsame : s'.next = s.next → s'.linked = s.linked → s'.removed = s.removed →
      s'.value = s.value → Queued s' q := fun hnext hlinked hremoved hvalue =>
    ⟨hinv, hvalued, l, hl.congr hnext hlinked hremoved fun n _ => by rw [hvalue]⟩
  have hquiet : ∀ {t p}, s'.next = s.next → s'.linked = s.linked → s'.removed = s.removed →
      s'.value = s.value → s'.pc = Function.update s.pc t p → point s a = [] → returned s a = [] →
      (s.pc t).pending s.value = p.pending s.value → ∃ q', Queued s' q' ∧ StepsAs s a s' q q' := by
    intro t p hnext hlinked hremoved hvalue hpc hpoint hreturned hpending
    refine ⟨q, hsame hnext hlinked hremoved hvalue,
      stepsAs [] [] hpc (fun _ _ => by rw [hvalue]) hpoint hreturned rfl ?_⟩
    rw [hvalue, List.append_nil, List.nil_append, hpending]
  -- `__pop` finds `__head.next` null
  have hempty : ∀ {t k}, s.next 0 = none → s' = s.setPc t (.resetTail k) →
      point s a = [(t, k.nothing)] → returned s a = [] → (s.pc t).pending s.value = [] →
      ∃ q', Queued s' q' ∧ StepsAs s a s' q q' := by
    rintro t k hnone rfl hpoint hreturned hpending
    obtain rfl := hl.empty hnone
    refine ⟨[], hsame rfl rfl rfl rfl,
      stepsAs [k.nothing] [] rfl (fun _ _ => rfl) hpoint hreturned ?_ ?_⟩
    · cases k <;> rfl
    · rw [hpending]
      rfl
  cases step_trans hs with
  | @call t c hpc =>
      cases c with
      | push v =>
          have hold : ∀ n ∈ l, (s.makeNode v).value n = s.value n := fun n hn =>
            Function.update_of_ne (Nat.ne_of_lt (h.inv.shape.bound n
              (h.inv.shape.chain_linked hl.1 hn)).2) _ _
          refine ⟨q, ⟨hinv, hvalued, l, hl.congr rfl rfl rfl hold⟩,
            stepsAs (t := t) [] [] rfl (fun u _ => h.inv.pending_makeNode v u) rfl rfl rfl ?_⟩
          rw [hpc]
          rfl
      | pop | clear | size =>
          exact hquiet (t := t) rfl rfl rfl rfl rfl rfl rfl (by rw [hpc]; rfl)
  | @loadTail t n hpc | @linkRetry t n b c hpc ha | @loadHead t k n hpc hn | @loadNext t k n hpc
  | @unlinkRetry t k n m o hpc hm hne =>
      refine hquiet (t := t) rfl rfl rfl rfl rfl ?_ ?_ ?_ <;>
        simp_all [point, returned, Pc.pending]
  | @storeTail t n hpc | @subSize t k n hpc =>
      exact hquiet (t := t) rfl rfl rfl rfl rfl (by simp [point, hpc]) (by simp [returned, hpc])
        (by rw [hpc]; rfl)
  | @loadSize t hpc =>
      exact hquiet (t := t) rfl rfl rfl rfl rfl (by simp [point, hpc]) (by simp [returned, hpc])
        (by rw [hpc]; rfl)
  | @loadHeadEmpty t k hpc hn =>
      exact hempty hn rfl (by simp [point, hpc, hn]) (by simp [returned, hpc]) (by rw [hpc]; rfl)
  | @unlinkEmpty t k n o hpc hn =>
      exact hempty hn rfl (by simp [point, hpc, hn]) (by simp [returned, hpc]) (by rw [hpc]; rfl)
  | @link t n b hpc hb =>
      obtain ⟨hn, hknown⟩ : Fresh s n ∧ Known s b := by simpa [hpc, Local] using h.inv.locals t
      obtain ⟨v, hv⟩ := Option.ne_none_iff_exists'.1 (h.valued n hn.2.1 hn.2.2)
      have hlinked := hl.link h.inv hn hknown (hC.2 t n b rfl hpc hb) hb hv
      refine ⟨q ++ [v], ⟨hinv, hvalued, l ++ [n], hlinked⟩,
        stepsAs [.pushed v] [] rfl (fun _ _ => rfl) ?_ ?_ rfl ?_⟩
      · simp [point, hpc, hb, hv]
      · simp [returned, hpc]
      · show (s.pc t).pending s.value ++ [.pushed v] = [] ++ (s.value n).toList.map .pushed
        rw [hpc, hv]
        rfl
  | @unlink t k n o hpc hn =>
      -- the successor that is installed is the current one
      obtain rfl : s.next n = o := by
        have hlocal := h.inv.locals t
        rw [hpc] at hlocal
        rcases hlocal.2.2 hn with rfl | hnext
        · exact hC.1 n ⟨t, k, rfl, hpc, hn⟩
        · exact hnext
      obtain ⟨v, q', l', hv, rfl, hl'⟩ := hl.unlink h.inv hn
      refine ⟨q', ⟨hinv, hvalued, l', hl'⟩,
        stepsAs [k.took v] [] rfl (fun _ _ => rfl) ?_ ?_ ?_ ?_⟩
      · simp [point, hpc, hn, hv]
      · simp [returned, hpc]
      · cases k <;> simp [Popper.took, fifoAnswer]
      · show (s.pc t).pending s.value ++ [k.took v] = [] ++ (s.value n).toList.map k.took
        rw [hpc, hv]
        rfl
  | @addSize t n hpc =>
      refine ⟨q, hsame rfl rfl rfl rfl, stepsAs [] ((s.value n).toList.map .pushed) rfl
        (fun _ _ => rfl) ?_ ?_ rfl ?_⟩
      · simp [point, hpc]
      · simp [returned, hpc]
      · rw [hpc]
        rfl
  | @resetTail t k hpc =>
      refine ⟨q, hsame rfl rfl rfl rfl, stepsAs [] [k.nothing] rfl (fun _ _ => rfl) ?_ ?_ rfl ?_⟩
      · simp [point, hpc]
      · simp [returned, hpc]
      · rw [hpc]
        rfl
  | @resetNext t n v hpc hv =>
      have hn : n ∈ s.removed := by simpa [hpc, Local] using h.inv.locals t
      refine ⟨q, ⟨hinv, hvalued, l, (hl.resetNext h.inv hn).congr rfl rfl rfl fun _ _ => rfl⟩,
        stepsAs [] [.popped (some v)] rfl (fun _ _ => rfl) ?_ ?_ rfl ?_⟩
      · simp [point, hpc]
      · simp [returned, hpc, hv, Popper.took]
      · rw [hpc, Pc.pending, hv]
        rfl
  | @resetNextAgain t n hpc =>
      have hn : n ∈ s.removed := by simpa [hpc, Local] using h.inv.locals t
      refine ⟨q, ⟨hinv, hvalued, l, (hl.resetNext h.inv hn).congr rfl rfl rfl fun _ _ => rfl⟩,
        stepsAs [] ((s.value n).toList.map .discarded) rfl (fun _ _ => rfl) ?_ ?_ rfl ?_⟩
      · simp [point, hpc]
      · simp [returned, hpc, Popper.took]
      · rw [hpc]
        rfl

end

/-! ### Whole runs -/

section

variable [DecidableEq Tid] {s s' : State Tid α}

omit [DecidableEq Tid] in
theorem queued_init : Queued (init Tid α) [] where
  inv := inv_init
  valued n hpos hn := absurd hn (by simp [init]; omega)
  contents := ⟨[], rfl, rfl, rfl⟩

/-- What is recorded, the answers of `size` apart, is what is returned. -/
theorem returned_event {a : Label Tid α} (hinv : Inv s) (hvalued : Valued s)
    (hs : step s a = some s') :
    s'.history.filter (fun ev => !ev.isSized) = s.history.filter (fun ev => !ev.isSized) ++
      (returned s a).flatMap fun p => p.2.event := by
  have hnothing : ∀ {t}, s'.history = s.history → returned s (.exec t) = [] →
      s'.history.filter (fun ev => !ev.isSized) = s.history.filter (fun ev => !ev.isSized) ++
        (returned s (.exec t)).flatMap fun p => p.2.event := by
    intro t hhistory hreturned
    rw [hhistory, hreturned, List.flatMap_nil, List.append_nil]
  cases step_trans hs with
  | @call t c hpc => cases c <;> exact (List.append_nil _).symm
  | @addSize t n hpc =>
      have hn : n ∈ s.linked := by simpa [hpc, Local] using hinv.locals t
      obtain ⟨hpos, hlt⟩ := hinv.shape.bound n hn
      obtain ⟨v, hv⟩ := Option.ne_none_iff_exists'.1 (hvalued n hpos hlt)
      simp [returned, hpc, hv, State.ret, State.addSize, List.filter_append, Event.isSized,
        Answer.event]
  | @resetTail t k hpc =>
      cases k <;> simp [returned, hpc, State.ret, State.setTail, List.filter_append, Event.isSized,
        Answer.event, Popper.empty, Popper.nothing]
  | @resetNext t n v hpc hv =>
      simp [returned, hpc, hv, State.ret, State.setNext, List.filter_append, Event.isSized,
        Answer.event, Popper.took]
  | @resetNextAgain t n hpc =>
      cases hv : s.value n <;> simp [returned, hpc, hv, State.setPc, State.setNext, Answer.event,
        Popper.took]
  | @loadSize t hpc =>
      simp [returned, hpc, State.ret, List.filter_append, Event.isSized]
  | @loadTail t n hpc | @link t n b hpc hb | @linkRetry t n b c hpc hb | @storeTail t n hpc
  | @loadHead t k n hpc hn | @loadHeadEmpty t k hpc hn | @loadNext t k n hpc
  | @unlink t k n o hpc hn | @unlinkRetry t k n m o hpc hm hne | @unlinkEmpty t k n o hpc hn
  | @subSize t k n hpc => exact hnothing rfl (by simp [returned, hpc])

/-- The calls that have returned are those of the log, `size` apart. -/
structure Recorded (s : State Tid α) (log : List (Tid × Answer α)) : Prop where
  inv : Inv s
  valued : Valued s
  history : s.history.filter (fun ev => !ev.isSized) = log.flatMap fun p => p.2.event

theorem returned_history {as : List (Label Tid α)} (hrun : run step (init Tid α) as = some s) :
    s.history.filter (fun ev => !ev.isSized) =
      (liftRun step returned (init Tid α) as).flatMap fun p => p.2.event := by
  have hstep : ∀ u a v (log : List (Tid × Answer α)), Recorded u log → step u a = some v →
      Recorded v (log ++ returned u a) := fun u a v log hu hv =>
    { inv := inv_step u a v hu.inv hv
      valued := valued_step hu.valued hv
      history := by
        rw [returned_event hu.inv hu.valued hv, hu.history, List.flatMap_append] }
  have hnil : Recorded (init Tid α) [] := ⟨queued_init.inv, queued_init.valued, rfl⟩
  exact (run_log_invariant hstep hnil hrun).history

/-- Without the two ways to lose a node the concurrent calls are
linearizable: no push links its node behind a removed one, and no pop that
has read a null successor removes a node behind which another one has been
linked since. Then the pushes, the pops and the calls of `__pop` that
`clear` makes are answered as a FIFO list answers them one after the
other, each at its point between its beginning and its return; a `clear`
returns on an empty queue; and the elements of the list are those that can
be reached from `__head`. -/
theorem queue_calls_linearizable [DecidableEq α] {as : List (Label Tid α)}
    (hlinked : Along step LinksBehindKept (init Tid α) as)
    (hnone : Along step NoneLinkedSince (init Tid α) as)
    (hrun : run step (init Tid α) as = some s) :
    (∃ q l, Reaches s l ∧ l.map s.value = q.map some ∧
      Linearizes fifoAnswer [] q (liftRun step point (init Tid α) as)
        (liftRun step returned (init Tid α) as) (pending s)) ∧
      s.history.filter (fun ev => !ev.isSized) =
        (liftRun step returned (init Tid α) as).flatMap fun p => p.2.event := by
  obtain ⟨q, hq, hlinearizes⟩ := run_linearizes (I := Queued)
    (fun u a v q hu hv hc => by
      obtain ⟨q', hq', hlegal, hanswers⟩ := queued_step hu hv hc
      exact ⟨q', hq', hlegal, hanswers⟩)
    (along_and.2 ⟨hnone, hlinked⟩) queued_init (fun _ => rfl) hrun
  obtain ⟨l, hreach, -, hvalues⟩ := hq.contents
  exact ⟨⟨q, l, hreach, hvalues, hlinearizes⟩, returned_history hrun⟩

end

/-! ### Two pushes, a pop and a clear that overlap -/

section

variable [DecidableEq Tid]

instance (s s' : State Tid α) : (a : Label Tid α) → Decidable (LinksBehindKept s a s')
  | .call _ _ => isTrue nofun
  | .exec t =>
      match hpc : s.pc t with
      | .linkCas n tail =>
          decidable_of_iff (s.next tail = none → tail ∉ s.removed) (by
            refine ⟨fun h u m b hu hb => ?_, fun h => h t n tail rfl hpc⟩
            obtain rfl := Label.exec.inj hu
            rw [hpc, Pc.linkCas.injEq] at hb
            exact hb.2 ▸ h)
      | .idle | .loadTail _ | .storeTail _ | .addSize _ | .loadHead _ | .resetTail _
      | .loadNext _ _ | .headCas _ _ _ | .subSize _ _ | .resetNext _ _ | .loadSize =>
          isTrue fun u m b hu hb => by
            obtain rfl := Label.exec.inj hu
            rw [hpc] at hb
            cases hb

instance (s s' : State Tid α) : (a : Label Tid α) → Decidable (NoneLinkedSince s a s')
  | .call _ _ => isTrue fun _ h => by
      obtain ⟨_, _, h, -⟩ := h
      cases h
  | .exec t =>
      match hpc : s.pc t with
      | .headCas k n none =>
          decidable_of_iff (s.next 0 = some n → s.next n = none) (by
            refine ⟨fun h m hm => ?_, fun h hn => h n ⟨t, k, rfl, hpc, hn⟩⟩
            obtain ⟨u, l, hu, hb, hn⟩ := hm
            obtain rfl := Label.exec.inj hu
            rw [hpc, Pc.headCas.injEq] at hb
            exact hb.2.1 ▸ h (hb.2.1 ▸ hn))
      | .headCas _ _ (some _) | .idle | .loadTail _ | .linkCas _ _ | .storeTail _ | .addSize _
      | .loadHead _ | .resetTail _ | .loadNext _ _ | .subSize _ _ | .resetNext _ _ | .loadSize =>
          isTrue fun m hm => by
            obtain ⟨u, l, hu, hb, -⟩ := hm
            obtain rfl := Label.exec.inj hu
            rw [hpc] at hb
            cases hb

end

/-- The push that begins first finds the node of the other one behind the
tail it has read and links its own behind that node. The pop returns
before it does, and the `clear` discards the element that is left. -/
def pushPopClear (t u v : Tid) (x y : α) : List (Label Tid α) :=
  [.call t (.push x), .exec t, .call u (.push y), .exec u, .exec u, .call v .pop, .exec t,
    .exec v, .exec t, .exec v, .exec u, .exec t, .exec v, .exec v, .exec u, .exec v, .exec t] ++
    .call v .clear :: List.replicate 7 (.exec v)

theorem queue_calls_linearizable_pushPopClear :
    ∃ s : State (Fin 3) ℕ, run step (init _ _) (pushPopClear 0 1 2 5 6) = some s ∧
      s.history = [.pushed, .popped (some 6), .pushed, .cleared] ∧
      ∃ q l, Reaches s l ∧ l.map s.value = q.map some ∧
        Linearizes fifoAnswer [] q (liftRun step point (init _ _) (pushPopClear 0 1 2 5 6))
          (liftRun step returned (init _ _) (pushPopClear 0 1 2 5 6)) (pending s) := by
  obtain ⟨s, hrun, hhistory⟩ : ∃ s : State (Fin 3) ℕ,
      run step (init _ _) (pushPopClear 0 1 2 5 6) = some s ∧
        s.history = [.pushed, .popped (some 6), .pushed, .cleared] := ⟨_, rfl, rfl⟩
  exact ⟨s, hrun, hhistory, (queue_calls_linearizable (by decide) (by decide) hrun).1⟩

end JowiAsio.LockFreeQueue

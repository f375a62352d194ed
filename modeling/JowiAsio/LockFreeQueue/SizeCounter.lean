import JowiAsio.Lib.Custody
import JowiAsio.LockFreeQueue.Delivery

/-!
The counter `__size` under concurrency.

A node can be popped as soon as it is linked, while the push that linked
it raises the counter two steps later. A pop lowers the counter right
after its compare-exchange, so it may do so first, and then the counter
wraps around.

The calls are counted by their nodes: those of the pushes that have begun,
of the pushes that have raised the counter, of the pops and clears that
have lowered it, and those whose values pops have returned.
-/

namespace JowiAsio.LockFreeQueue

open Lib

variable {Tid α : Type}

structure Counted (Tid α : Type) where
  queue : State Tid α
  begun : List ℕ
  raised : List ℕ
  lowered : List ℕ
  returned : List ℕ

/-- The node of the push that the step begins. -/
def begunNode (s : State Tid α) : Label Tid α → List ℕ
  | .call _ (.push _) => [s.allocated]
  | _ => []

/-- The node of the push that raises the counter. -/
def raisedNode (s : State Tid α) : Label Tid α → List ℕ
  | .call _ _ => []
  | .exec t =>
      match s.pc t with
      | .addSize n => [n]
      | _ => []

/-- The node for which a pop or a clear lowers the counter. -/
def loweredNode (s : State Tid α) : Label Tid α → List ℕ
  | .call _ _ => []
  | .exec t =>
      match s.pc t with
      | .subSize _ n => [n]
      | _ => []

def initCounted (Tid α : Type) : Counted Tid α := ⟨init Tid α, [], [], [], []⟩

section

variable [DecidableEq Tid]

def stepCounted (c : Counted Tid α) (a : Label Tid α) : Option (Counted Tid α) :=
  (step c.queue a).map fun s =>
    { queue := s
      begun := c.begun ++ begunNode c.queue a
      raised := c.raised ++ raisedNode c.queue a
      lowered := c.lowered ++ loweredNode c.queue a
      returned := c.returned ++ returnedNode c.queue a }

/-- What `size` reads is at most the number of pushes that have begun less
that of the pops that have returned a value. -/
def SizeBounded (c : Counted Tid α) : Prop :=
  c.queue.size + (c.queue.history.filterMap Event.poppedValue).length ≤ c.begun.length

/-- The counter is not lowered below zero. -/
def NotBelowZero (c : Counted Tid α) (a : Label Tid α) (_ : Counted Tid α) : Prop :=
  ∀ t k n, a = .exec t → c.queue.pc t = .subSize k n → c.queue.size ≠ 0

/-- The condition on a step: when it lowers the counter, more pushes have
raised the counter than pops and clears have lowered it. -/
def EnoughRaised (c : Counted Tid α) (a : Label Tid α) (_ : Counted Tid α) : Prop :=
  ∀ t k n, a = .exec t → c.queue.pc t = .subSize k n → c.lowered.length < c.raised.length

end

/-! ### The pushes -/

/-- The node of a `push` that has not raised the counter yet. -/
def Pc.pushing : Pc → Option ℕ
  | .loadTail n | .linkCas n _ | .storeTail n | .addSize n => some n
  | _ => none

/-- A push that has begun is in progress, or it has raised the counter. -/
def Counted.pushPlace (c : Counted Tid α) : Tid ⊕ ℕ → Option ℕ
  | .inl t => (c.queue.pc t).pushing
  | .inr i => c.raised[i]?

structure Pushes (c : Counted Tid α) : Prop where
  custody : Custody id c.pushPlace c.begun
  bound : ∀ n ∈ c.begun, n < c.queue.allocated

variable {c c' : Counted Tid α}

theorem Pushes.raised_le (h : Pushes c) : c.raised.length ≤ c.begun.length := by
  have hplace : ∀ i x, c.raised[i]?.bind some = some x → c.pushPlace (.inr i) = some x := by
    intro i x hi
    simpa [Counted.pushPlace] using hi
  have hnodup : ((c.raised.filterMap some).map id).Nodup :=
    Custody.nodup_row fun i j x y hi hj hxy =>
      Sum.inr.inj (h.custody.once _ _ x y (hplace i x hi) (hplace j y hj) hxy)
  rw [List.filterMap_some, List.map_id] at hnodup
  refine (List.subperm_of_subset hnodup fun n hn => ?_).length_le
  obtain ⟨i, hi⟩ := List.mem_iff_getElem?.1 hn
  exact h.custody.known (.inr i) n hi

section

variable [DecidableEq Tid]

/-- A step by thread `t` that keeps its node where it is. -/
theorem Pushes.same (h : Pushes c) {s : State Tid α} {t : Tid} {p : Pc} {lowered returned : List ℕ}
    (hpc : s.pc = Function.update c.queue.pc t p) (hp : p.pushing = (c.queue.pc t).pushing)
    (hallocated : s.allocated = c.queue.allocated) :
    Pushes ⟨s, c.begun ++ [], c.raised ++ [], lowered, returned⟩ := by
  simp only [List.append_nil]
  refine ⟨h.custody.congr fun q => ?_, fun n hn => hallocated ▸ h.bound n hn⟩
  cases q with
  | inl u =>
      simp only [Counted.pushPlace, hpc]
      rcases eq_or_ne u t with rfl | hne
      · rw [Function.update_self, hp]
      · rw [Function.update_of_ne hne]
  | inr i => rfl

/-- A push begins with a new node. -/
theorem Pushes.begin (h : Pushes c) {t : Tid} (hpc : c.queue.pc t = .idle) (v : α)
    {lowered returned : List ℕ} :
    Pushes ⟨c.queue.begin t (.push v), c.begun ++ [c.queue.allocated], c.raised ++ [],
      lowered, returned⟩ := by
  rw [List.append_nil]
  refine ⟨h.custody.arrive (a := .inl t) ?_ ?_ ?_ ?_, fun n hn => ?_⟩
  · simp [Counted.pushPlace, State.begin, State.setPc, Pc.pushing]
  · simp [Counted.pushPlace, hpc, Pc.pushing]
  · intro q hq
    cases q with
    | inl u =>
        have hne : u ≠ t := fun e => hq (congrArg _ e)
        simp [Counted.pushPlace, State.begin, State.setPc, State.makeNode, hne]
    | inr i => rfl
  · exact fun n hn => Nat.ne_of_lt (h.bound n hn)
  · rcases List.mem_append.1 hn with hn | hn
    · exact Nat.lt_succ_of_lt (h.bound n hn)
    · rw [List.mem_singleton.1 hn]
      exact Nat.lt_succ_self _

/-- A push raises the counter and returns. -/
theorem Pushes.addSize (h : Pushes c) {t : Tid} {n : ℕ} (hpc : c.queue.pc t = .addSize n)
    {lowered returned : List ℕ} :
    Pushes ⟨c.queue.addSize.ret t .pushed, c.begun ++ [], c.raised ++ [n], lowered, returned⟩ := by
  rw [List.append_nil]
  refine ⟨h.custody.move (a := .inl t) (b := .inr c.raised.length) ?_ ?_ ?_ ?_, h.bound⟩
  · simp [Counted.pushPlace, State.ret, Pc.pushing]
  · simp [Counted.pushPlace, hpc, Pc.pushing]
  · simp [Counted.pushPlace]
  · intro q hq hq'
    cases q with
    | inl u =>
        have hne : u ≠ t := fun e => hq (congrArg _ e)
        simp [Counted.pushPlace, State.ret, State.addSize, hne]
    | inr i =>
        have hne : i ≠ c.raised.length := fun e => hq' (congrArg _ e)
        simp only [Counted.pushPlace, List.getElem?_append]
        split_ifs with hlt
        · rfl
        · rw [List.getElem?_eq_none (by simp; omega), List.getElem?_eq_none (by omega)]

theorem Pushes.step (h : Pushes c) {a : Label Tid α} (hs : stepCounted c a = some c') :
    Pushes c' := by
  obtain ⟨s, hq, rfl⟩ := Option.map_eq_some_iff.1 hs
  cases step_trans hq with
  | @call t x hpc =>
      cases x with
      | push v => exact h.begin hpc v
      | pop | clear | size => exact h.same rfl (by simp [hpc, Pc.pushing]) rfl
  | addSize hpc =>
      simp only [raisedNode, hpc, begunNode]
      exact h.addSize hpc
  | loadTail hpc | link hpc | linkRetry hpc | storeTail hpc | loadHead hpc | loadHeadEmpty hpc
  | resetTail hpc | loadNext hpc | unlink hpc | unlinkRetry hpc | unlinkEmpty hpc | subSize hpc
  | resetNext hpc | resetNextAgain hpc | loadSize hpc =>
      simp only [raisedNode, hpc, begunNode]
      exact h.same rfl (by simp [hpc, Pc.pushing]) rfl

end

/-! ### The pops -/

/-- A pop that returns has lowered the counter for its node. -/
structure Lowers (c : Counted Tid α) : Prop where
  taken : ∀ t k n, c.queue.pc t = .resetNext k n → n ∈ c.lowered
  returned : ∀ n ∈ c.returned, n ∈ c.lowered

/-- The tally of the counter, as a word. -/
structure Tallies (c : Counted Tid α) : Prop where
  size_lt : c.queue.size < 2 ^ 64
  size_mod : (c.queue.size + c.lowered.length) % 2 ^ 64 = c.raised.length % 2 ^ 64

theorem Lowers.pops_le (h : Lowers c) (hdelivers : Delivers c.queue c.returned) :
    (c.queue.history.filterMap Event.poppedValue).length ≤ c.lowered.length := by
  rw [hdelivers.values]
  exact (List.length_filterMap_le _ _).trans
    (List.subperm_of_subset hdelivers.nodup h.returned).length_le

/-- When no more calls have lowered the counter than raised it, it is what
they leave. -/
theorem Tallies.size_le (h : Tallies c) (hle : c.lowered.length ≤ c.raised.length) :
    c.queue.size + c.lowered.length ≤ c.raised.length := by
  have hlt := h.size_lt
  have hmod := h.size_mod
  omega

section

variable [DecidableEq Tid]

theorem Lowers.move (h : Lowers c) {s : State Tid α} {t : Tid} {p : Pc}
    {begun raised lowered returned : List ℕ} (hpc : s.pc = Function.update c.queue.pc t p)
    (hp : ∀ k n, p = .resetNext k n → n ∈ c.lowered ++ lowered)
    (hreturned : ∀ n ∈ returned, n ∈ c.lowered) :
    Lowers ⟨s, begun, raised, c.lowered ++ lowered, c.returned ++ returned⟩ := by
  refine ⟨fun u k n hu => ?_, fun n hn => List.mem_append_left _ ?_⟩
  · rcases eq_or_ne u t with rfl | hne
    · simp only [hpc, Function.update_self] at hu
      exact hp k n hu
    · simp only [hpc, Function.update_of_ne hne] at hu
      exact List.mem_append_left _ (h.taken u k n hu)
  · rcases List.mem_append.1 hn with hn | hn
    · exact h.returned n hn
    · exact hreturned n hn

theorem Lowers.step (h : Lowers c) {a : Label Tid α} (hs : stepCounted c a = some c') :
    Lowers c' := by
  obtain ⟨s, hq, rfl⟩ := Option.map_eq_some_iff.1 hs
  cases step_trans hq with
  | @call t x hpc =>
      cases x <;> exact h.move rfl (by simp) (by simp [returnedNode])
  | subSize hpc =>
      refine h.move rfl (fun k n hp => ?_) (by simp [returnedNode, hpc])
      obtain ⟨-, rfl⟩ := Pc.resetNext.inj hp
      simp [loweredNode, hpc]
  | @resetNext t n v hpc hv =>
      refine h.move rfl (by simp) fun m hm => ?_
      simp only [returnedNode, hpc, List.mem_singleton] at hm
      exact hm ▸ h.taken t .pop n hpc
  | loadTail hpc | link hpc | linkRetry hpc | storeTail hpc | addSize hpc | loadHead hpc
  | loadHeadEmpty hpc | resetTail hpc | loadNext hpc | unlink hpc | unlinkRetry hpc
  | unlinkEmpty hpc | resetNextAgain hpc | loadSize hpc =>
      exact h.move rfl (by simp) (by simp [returnedNode, hpc])

omit [DecidableEq Tid] in
/-- A step that leaves the counter alone. -/
theorem Tallies.same (h : Tallies c) {s : State Tid α} {begun raised lowered returned : List ℕ}
    (hsize : s.size = c.queue.size) (hraised : raised = []) (hlowered : lowered = []) :
    Tallies ⟨s, begun, c.raised ++ raised, c.lowered ++ lowered, returned⟩ := by
  subst hraised hlowered
  simp only [List.append_nil]
  exact ⟨hsize ▸ h.size_lt, hsize ▸ h.size_mod⟩

theorem Tallies.step (h : Tallies c) {a : Label Tid α} (hs : stepCounted c a = some c') :
    Tallies c' := by
  obtain ⟨s, hq, rfl⟩ := Option.map_eq_some_iff.1 hs
  have hlt := h.size_lt
  have hmod := h.size_mod
  cases step_trans hq with
  | @call t x hpc => cases x <;> exact h.same rfl rfl rfl
  | addSize hpc =>
      simp only [raisedNode, loweredNode, hpc, List.append_nil]
      refine ⟨Nat.mod_lt _ (by decide), ?_⟩
      simp only [State.ret, State.addSize, List.length_append, List.length_singleton]
      omega
  | subSize hpc =>
      simp only [raisedNode, loweredNode, hpc, List.append_nil]
      refine ⟨?_, ?_⟩
      · simp only [State.setPc, State.subSize]
        split_ifs <;> omega
      · simp only [State.setPc, State.subSize, List.length_append, List.length_singleton]
        split_ifs <;> omega
  | loadTail hpc | link hpc | linkRetry hpc | storeTail hpc | loadHead hpc | loadHeadEmpty hpc
  | resetTail hpc | loadNext hpc | unlink hpc | unlinkRetry hpc | unlinkEmpty hpc | resetNext hpc
  | resetNextAgain hpc | loadSize hpc =>
      exact h.same rfl (by simp [raisedNode, hpc]) (by simp [loweredNode, hpc])

end

/-! ### Whole runs -/

structure Counts (c : Counted Tid α) : Prop where
  delivers : Delivers c.queue c.returned
  pushes : Pushes c
  lowers : Lowers c
  tallies : Tallies c

/-- No more calls have lowered the counter than raised it. -/
def Balanced (c : Counted Tid α) : Prop := c.lowered.length ≤ c.raised.length

theorem Counts.sizeBounded (h : Counts c) (hbalanced : Balanced c) : SizeBounded c := by
  have hsize := h.tallies.size_le hbalanced
  have hpops := h.lowers.pops_le h.delivers
  have hraised := h.pushes.raised_le
  unfold SizeBounded
  omega

section

variable [DecidableEq Tid]

theorem counts_init : Counts (initCounted Tid α) where
  delivers := delivers_init
  pushes := ⟨Custody.empty id fun q => by cases q <;> rfl, fun _ hn => absurd hn List.not_mem_nil⟩
  lowers := ⟨nofun, fun _ hn => absurd hn List.not_mem_nil⟩
  tallies := ⟨Nat.two_pow_pos 64, rfl⟩

theorem Counts.step (h : Counts c) {a : Label Tid α} (hs : stepCounted c a = some c') :
    Counts c' := by
  refine ⟨?_, h.pushes.step hs, h.lowers.step hs, h.tallies.step hs⟩
  obtain ⟨s, hq, rfl⟩ := Option.map_eq_some_iff.1 hs
  exact delivers_step h.delivers hq

/-- The lists only change for a step that lowers the counter, one that
raises it, and so on. -/
theorem stepCounted_lists {a : Label Tid α} (hs : stepCounted c a = some c') :
    c'.begun = c.begun ++ begunNode c.queue a ∧ c'.raised = c.raised ++ raisedNode c.queue a ∧
      c'.lowered = c.lowered ++ loweredNode c.queue a := by
  obtain ⟨s, -, rfl⟩ := Option.map_eq_some_iff.1 hs
  exact ⟨rfl, rfl, rfl⟩

omit [DecidableEq Tid] in
theorem loweredNode_eq_nil {s : State Tid α} {a : Label Tid α}
    (h : ∀ t k n, a = .exec t → s.pc t ≠ .subSize k n) : loweredNode s a = [] := by
  cases a with
  | call => rfl
  | exec t =>
      cases hpc : s.pc t with
      | subSize k n => exact absurd hpc (h t k n rfl)
      | _ => simp [loweredNode, hpc]

theorem Balanced.step (h : Balanced c) {a : Label Tid α} (hs : stepCounted c a = some c')
    (henough : EnoughRaised c a c') : Balanced c' := by
  obtain ⟨-, hraised, hlowered⟩ := stepCounted_lists hs
  rw [Balanced, hraised, hlowered, List.length_append, List.length_append]
  by_cases hsub : ∃ t k n, a = .exec t ∧ c.queue.pc t = .subSize k n
  · obtain ⟨t, k, n, rfl, hpc⟩ := hsub
    have hlt := henough t k n rfl hpc
    simp only [loweredNode, hpc, List.length_singleton]
    omega
  · rw [loweredNode_eq_nil fun t k n ha hpc => hsub ⟨t, k, n, ha, hpc⟩]
    exact Nat.le_trans h (Nat.le_add_right _ _)

/-- A pop that lowers the counter too early leaves it at its greatest
value. -/
theorem Counts.enoughRaised (h : Counts c) (hbalanced : Balanced c) {a : Label Tid α}
    (hs : stepCounted c a = some c') (hsize : SizeBounded c')
    (hfew : c'.begun.length < 2 ^ 64 - 1) : EnoughRaised c a c' := by
  rintro t k n rfl hpc
  have hcounts := (h.step hs).tallies
  have hlt := hcounts.size_lt
  have hmod := hcounts.size_mod
  obtain ⟨-, hraised, hlowered⟩ := stepCounted_lists hs
  simp only [raisedNode, loweredNode, hpc, List.append_nil] at hraised hlowered
  rw [hraised, hlowered, List.length_append, List.length_singleton] at hmod
  unfold Balanced at hbalanced
  unfold SizeBounded at hsize
  omega

/-- With few pushes the words of the tally are its numbers. -/
theorem Counts.notBelowZero (h : Counts c) {a : Label Tid α} (hs : stepCounted c a = some c')
    (henough : EnoughRaised c a c') (hfew : c'.begun.length < 2 ^ 64 - 1) :
    NotBelowZero c a c' := by
  rintro t k n rfl hpc hzero
  have hlt := henough t k n rfl hpc
  have hmod := h.tallies.size_mod
  have hraised := h.pushes.raised_le
  have hbegun : c.begun.length ≤ c'.begun.length := by
    rw [(stepCounted_lists hs).1, List.length_append]
    exact Nat.le_add_right _ _
  rw [hzero, Nat.zero_add] at hmod
  omega

/-- The calls of `push` that have begun are those of the schedule. -/
theorem visits_begun {bound : ℕ} (as : List (Label Tid α))
    (h : c.begun.length + (as.filterMap Label.pushedValue).length < bound) :
    Visits stepCounted (fun c => c.begun.length < bound) c as := by
  induction as generalizing c with
  | nil => exact h
  | cons a as ih =>
      refine ⟨Nat.lt_of_le_of_lt (Nat.le_add_right _ _) h, fun d hs => ih ?_⟩
      have hnode : (begunNode c.queue a).length + (as.filterMap Label.pushedValue).length =
          ((a :: as).filterMap Label.pushedValue).length := by
        cases a with
        | exec t => simp [begunNode, Label.pushedValue, List.filterMap_cons]
        | call t x =>
            cases x <;> simp [begunNode, Label.pushedValue, List.filterMap_cons, Nat.add_comm]
      rw [(stepCounted_lists hs).1, List.length_append]
      omega

/-- In a run in which the counter is only lowered after more pushes have
raised it than pops and clears have lowered it, what `size` reads is at
most the number of pushes that have begun less that of the pops that have
returned. With fewer pushes than the counter has values this is also the
only case, and the counter is then never lowered below zero. -/
theorem size_bounded (as : List (Label Tid α)) :
    (Along stepCounted EnoughRaised (initCounted Tid α) as →
        Visits stepCounted SizeBounded (initCounted Tid α) as) ∧
      ((as.filterMap Label.pushedValue).length < 2 ^ 64 - 1 →
        (Visits stepCounted SizeBounded (initCounted Tid α) as →
            Along stepCounted EnoughRaised (initCounted Tid α) as) ∧
          (Along stepCounted EnoughRaised (initCounted Tid α) as →
            Along stepCounted NotBelowZero (initCounted Tid α) as)) := by
  have hinit : Counts (initCounted Tid α) ∧ Balanced (initCounted Tid α) :=
    ⟨counts_init, Nat.le_refl 0⟩
  let I : Counted Tid α → Prop := fun c => Counts c ∧ Balanced c
  have hstep : ∀ c a d, I c → stepCounted c a = some d → EnoughRaised c a d → I d :=
    fun c a d hc hs he => ⟨hc.1.step hs, hc.2.step hs he⟩
  refine ⟨fun h => ?_, fun hfew => ?_⟩
  · exact visits_of_along hstep (fun c hc => hc.1.sizeBounded hc.2) h hinit
  have hbegun : Along stepCounted (fun _ _ d => d.begun.length < 2 ^ 64 - 1)
      (initCounted Tid α) as := by
    refine (visits_iff_along.1 (visits_begun as ?_)).2
    show 0 + _ < _
    rw [Nat.zero_add]
    exact hfew
  refine ⟨fun h => ?_, fun h => ?_⟩
  · have hearly : ∀ c a d, I c → stepCounted c a = some d →
        SizeBounded d ∧ d.begun.length < 2 ^ 64 - 1 → EnoughRaised c a d :=
      fun c a d hc hs hd => hc.1.enoughRaised hc.2 hs hd.1 hd.2
    exact along_of_along (fun c a d hc hs hd => hstep c a d hc hs (hearly c a d hc hs hd)) hearly
      (along_and.2 ⟨(visits_iff_along.1 h).2, hbegun⟩) hinit
  · exact along_of_along (fun c a d hc hs hd => hstep c a d hc hs hd.1)
      (fun c a d hc hs hd => hc.1.notBelowZero hs hd.1 hd.2) (along_and.2 ⟨h, hbegun⟩) hinit

end

/-- One push links its node, and a pop lowers the counter for it before
the push raises it. -/
theorem size_of_popped_early :
    (∃ c, run stepCounted (initCounted (Fin 2) ℕ) [.call 0 (.push 5), .exec 0, .exec 0,
        .call 1 .pop, .exec 1, .exec 1, .exec 1, .exec 1] = some c ∧
        c.queue.size = 2 ^ 64 - 1 ∧ c.begun.length = 1) ∧
      ¬∀ as, Visits stepCounted SizeBounded (initCounted (Fin 2) ℕ) as := by
  have hrun : ∃ c, run stepCounted (initCounted (Fin 2) ℕ) [.call 0 (.push 5), .exec 0, .exec 0,
      .call 1 .pop, .exec 1, .exec 1, .exec 1, .exec 1] = some c ∧
      c.queue.size = 2 ^ 64 - 1 ∧ c.begun.length = 1 := ⟨_, rfl, rfl, rfl⟩
  refine ⟨hrun, fun h => ?_⟩
  obtain ⟨c, hc, hsize, hbegun⟩ := hrun
  have hlast := (h _).last hc
  rw [SizeBounded, hsize, hbegun] at hlast
  omega

end JowiAsio.LockFreeQueue

import JowiAsio.Lib.Fifo
import JowiAsio.LockFreeQueue.Shape

/-!
The queue used by one thread.

`__tail` caches the last node, and what it points at between two calls is
one of three things (`Cache`). Normally it is the last node of the queue,
or `__head` when there is none. A pop that takes the last element leaves
it at the popped node, since only a pop that finds the queue empty resets
it. A push that comes next links its node behind the popped one, where no
pop finds it. So the calls agree with a FIFO list until a pop or a `clear`
comes after such a push.
-/

namespace JowiAsio.LockFreeQueue

open Lib

variable {Tid α : Type}

/-! ### The abstract queue -/

/-- A call on the abstract FIFO list: the list afterwards and what is
returned. -/
def fifoCall (q : List α) : Call α → List α × Event α
  | .push v => (q ++ [v], .pushed)
  | .pop => ((Fifo.pop q).2, .popped (Fifo.pop q).1)
  | .clear => ([], .cleared)
  | .size => (q, .sized q.length)

/-- What `__tail` points at between two calls of a single thread. -/
inductive Cache
  /-- the last node of the queue, or `__head` when it is empty -/
  | current
  /-- the node that a pop took from the queue when it was the last one -/
  | drained
  /-- a node that was pushed behind such a node -/
  | misplaced
  deriving DecidableEq

/-- The cache after a call made when the queue holds `q`. There is none
after a pop or a `clear` that looks for a misplaced node. -/
def Cache.after (q : List α) : Cache → Call α → Option Cache
  | c, .size => some c
  | .current, .push _ => some .current
  | .current, .pop => if q.length = 1 then some .drained else some .current
  | .drained, .pop => some .current
  | .current, .clear | .drained, .clear => some .current
  | .drained, .push _ | .misplaced, .push _ => some .misplaced
  | .misplaced, .pop | .misplaced, .clear => none

/-- No pop and no `clear` comes after a push that follows, `size` calls
apart, a pop that took the only element; and the elements can be counted
in 64 bits. -/
def WellCached : Cache → List α → List (Call α) → Prop
  | _, _, [] => True
  | c, q, call :: calls => (fifoCall q call).1.length < 2 ^ 64 ∧
      ∃ c', c.after q call = some c' ∧ WellCached c' (fifoCall q call).1 calls

variable [DecidableEq Tid]

/-- Thread `t` makes the call `c` and runs it to its end, alone. -/
def Performs (t : Tid) (s : State Tid α) (c : Call α) (s' : State Tid α) : Prop :=
  s.pc t = .idle ∧ ∃ k, run step (s.begin t c) (List.replicate k (.exec t)) = some s' ∧
    s'.pc t = .idle

/-- Thread `t` makes the calls one after the other; each of them ends,
returns what the FIFO list returns and leaves `__size` at the length of
the list. -/
def AgreesWithFifo (t : Tid) : State Tid α → List α → List (Call α) → Prop
  | _, _, [] => True
  | s, q, call :: calls => ∃ s', Performs t s call s' ∧
      s'.history = s.history ++ [(fifoCall q call).2] ∧
      s'.size = (fifoCall q call).1.length ∧ AgreesWithFifo t s' (fifoCall q call).1 calls

/-! ### Running one thread alone -/

section

variable (s : State Tid α) (t : Tid) (p : Pc)

@[simp] theorem setPc_pc_self : (s.setPc t p).pc t = p := by simp [State.setPc]

@[simp] theorem ret_pc_self (ev : Event α) : (s.ret t ev).pc t = .idle := by simp [State.ret]

@[simp] theorem setPc_size : (s.setPc t p).size = s.size := rfl

@[simp] theorem setPc_next : (s.setPc t p).next = s.next := rfl

@[simp] theorem setPc_tail : (s.setPc t p).tail = s.tail := rfl

@[simp] theorem setPc_value : (s.setPc t p).value = s.value := rfl

@[simp] theorem setPc_ret (ev : Event α) : (s.setPc t p).ret t ev = s.ret t ev := by
  simp [State.setPc, State.ret]

@[simp] theorem setPc_link (a n : ℕ) : (s.setPc t p).link a n = (s.link a n).setPc t p := rfl

@[simp] theorem setPc_unlink (n : ℕ) (o : Option ℕ) :
    (s.setPc t p).unlink n o = (s.unlink n o).setPc t p := rfl

@[simp] theorem setPc_setNext (a : ℕ) (b : Option ℕ) :
    (s.setPc t p).setNext a b = (s.setNext a b).setPc t p := rfl

@[simp] theorem setPc_setTail (a : ℕ) : (s.setPc t p).setTail a = (s.setTail a).setPc t p := rfl

@[simp] theorem setPc_addSize : (s.setPc t p).addSize = s.addSize.setPc t p := rfl

@[simp] theorem setPc_subSize : (s.setPc t p).subSize = s.subSize.setPc t p := rfl

@[simp] theorem setPc_popReturned (n : ℕ) (k : Popper) :
    (s.setPc t p).popReturned t n k = s.popReturned t n k := by
  cases k <;> simp [State.popReturned]

end

/-- The first attempt of a thread that runs alone. -/
theorem run_exec {s u s' : State Tid α} {t : Tid} {k : ℕ} (h : step s (.exec t) = some u)
    (h' : run step u (List.replicate k (.exec t)) = some s') :
    run step s (List.replicate (k + 1) (.exec t)) = some s' := by
  rw [List.replicate_succ, run_cons, h, Option.bind_some, h']

theorem performs_unique {t : Tid} {s s₁ s₂ : State Tid α} {c : Call α}
    (h₁ : Performs t s c s₁) (h₂ : Performs t s c s₂) : s₁ = s₂ := by
  obtain ⟨-, k₁, hrun₁, hidle₁⟩ := h₁
  obtain ⟨-, k₂, hrun₂, hidle₂⟩ := h₂
  -- the longer run would have to go on from an idle state
  have hlonger : ∀ {k d : ℕ} {u u' : State Tid α},
      run step (s.begin t c) (List.replicate k (.exec t)) = some u → u.pc t = .idle →
      run step (s.begin t c) (List.replicate (k + d) (.exec t)) = some u' → u = u' := by
    intro k d u u' hu hidle hu'
    rw [List.replicate_add, run_append, hu, Option.bind_some] at hu'
    cases d with
    | zero => simpa using hu'
    | succ d => simp [List.replicate_succ, step, hidle] at hu'
  rcases Nat.le_total k₁ k₂ with hle | hle
  · obtain ⟨d, rfl⟩ := Nat.exists_eq_add_of_le hle
    exact hlonger hrun₁ hidle₁ hrun₂
  · obtain ⟨d, rfl⟩ := Nat.exists_eq_add_of_le hle
    exact (hlonger hrun₂ hidle₂ hrun₁).symm

theorem inv_performs {t : Tid} {s s' : State Tid α} {c : Call α} (h : Inv s)
    (hp : Performs t s c s') : Inv s' := by
  obtain ⟨hidle, k, hrun, -⟩ := hp
  exact run_invariant inv_step (inv_begin h t c) hrun

/-- A push that finds its cached node to be one without a successor. -/
theorem performs_push {t : Tid} {s : State Tid α} (hidle : s.pc t = .idle)
    (hend : s.next s.tail = none) (v : α) : Performs t s (.push v)
      (((((s.makeNode v).link s.tail s.allocated).setTail s.allocated).addSize).ret t
        .pushed) := by
  have hend' : (s.makeNode v).next s.tail = none := hend
  refine ⟨hidle, 4, ?_, by simp⟩
  refine run_exec (u := (s.makeNode v).setPc t (.linkCas s.allocated s.tail))
    (by simp [step, State.begin, State.makeNode]) ?_
  refine run_exec (u := ((s.makeNode v).link s.tail s.allocated).setPc t
    (.storeTail s.allocated)) (by simp [step, hend']) ?_
  refine run_exec (u := (((s.makeNode v).link s.tail s.allocated).setTail s.allocated).setPc t
    (.addSize s.allocated)) (by simp [step]) ?_
  exact run_exec (by simp [step]) rfl

/-- `__pop` finds the queue empty. -/
theorem run_pop_empty {t : Tid} {s : State Tid α} (k : Popper) (hempty : s.next 0 = none) :
    run step (s.setPc t (.loadHead k)) (List.replicate 2 (.exec t)) =
      some ((s.setTail 0).ret t k.empty) := by
  refine run_exec (u := s.setPc t (.resetTail k)) (by simp [step, hempty]) ?_
  exact run_exec (by simp [step]) rfl

/-- `__pop` takes the first node, and the caller goes on. -/
theorem run_pop_first {t : Tid} {s : State Tid α} {k : Popper} {n : ℕ}
    (hn : s.next 0 = some n) {s' : State Tid α}
    (hret : ((s.unlink n (s.next n)).subSize.setNext n none).popReturned t n k = some s') :
    run step (s.setPc t (.loadHead k)) (List.replicate 5 (.exec t)) = some s' := by
  refine run_exec (u := s.setPc t (.loadNext k n)) (by simp [step, hn]) ?_
  refine run_exec (u := s.setPc t (.headCas k n (s.next n))) (by simp [step]) ?_
  refine run_exec (u := (s.unlink n (s.next n)).setPc t (.subSize k n))
    (by simp [step, casStrong, casWeak, hn]) ?_
  refine run_exec (u := (s.unlink n (s.next n)).subSize.setPc t (.resetNext k n))
    (by simp [step]) ?_
  exact run_exec (by simp [step, hret]) rfl

/-! ### The states between two calls -/

/-- The queue holds `q`, and `__tail` points at its last node. -/
def Holds (s : State Tid α) (q : List α) (l : List ℕ) : Prop :=
  Chain s.next (s.next 0) l ∧ l.map s.value = q.map some ∧ (l = [] ∧ s.tail = 0 ∨ s.tail ∈ l)

def Cache.Describes (s : State Tid α) (q : List α) : Cache → Prop
  | .current => ∃ l, Holds s q l
  | .drained => s.next 0 = none ∧ s.tail ≠ 0 ∧ q = []
  | .misplaced => s.next 0 = none ∧ s.tail ≠ 0 ∧ q ≠ []

structure Between (t : Tid) (s : State Tid α) (q : List α) (c : Cache) : Prop where
  inv : Inv s
  idle : s.pc t = .idle
  tail_end : s.next s.tail = none
  size : s.size = q.length
  size_lt : q.length < 2 ^ 64
  cache : c.Describes s q

omit [DecidableEq Tid] in
theorem between_init (t : Tid) : Between t (init Tid α) [] .current where
  inv := inv_init
  idle := rfl
  tail_end := rfl
  size := rfl
  size_lt := by simp
  cache := ⟨[], rfl, rfl, .inl ⟨rfl, rfl⟩⟩

section

variable {s : State Tid α} {q : List α} {l : List ℕ}

omit [DecidableEq Tid] in
/-- The node of the next `push` is not in use. -/
theorem Inv.unallocated (h : Inv s) : ¬ Known s s.allocated := by
  rintro (h0 | hmem)
  · exact absurd h.shape.allocated (by omega)
  · exact absurd (h.shape.bound _ hmem).2 (lt_irrefl _)

omit [DecidableEq Tid] in
theorem Inv.zero_not_mem (h : Inv s) (hl : Chain s.next (s.next 0) l) : 0 ∉ l :=
  fun hmem => h.shape.ne_zero (h.shape.chain_linked hl hmem) rfl

omit [DecidableEq Tid] in
/-- Linking the next node behind the last one appends to the queue. -/
theorem Holds.push (hinv : Inv s) (h : Holds s q l) (hend : s.next s.tail = none) (v : α) :
    Holds (((s.makeNode v).link s.tail s.allocated).setTail s.allocated) (q ++ [v])
      (l ++ [s.allocated]) := by
  obtain ⟨hchain, hvalue, htail⟩ := h
  have hnone : s.next s.allocated = none := hinv.shape.next_fresh _ hinv.unallocated
  have hnew : s.allocated ∉ l := fun hmem =>
    hinv.unallocated (.inr (hinv.shape.chain_linked hchain hmem))
  have h0 : s.allocated ≠ 0 := hinv.shape.allocated.ne'
  refine ⟨?_, ?_, .inr (List.mem_append_right _ (List.mem_singleton_self _))⟩
  · rcases htail with ⟨rfl, htail0⟩ | hmem
    · simp [State.setTail, State.link, State.makeNode, htail0, Function.update_of_ne h0, hnone]
    · have hne : (0 : ℕ) ≠ s.tail := fun e => hinv.zero_not_mem hchain (e ▸ hmem)
      change Chain (Function.update s.next s.tail (some s.allocated))
        (Function.update s.next s.tail (some s.allocated) 0) (l ++ [s.allocated])
      rw [Function.update_of_ne hne]
      exact hchain.link hmem hend hnew hnone
  · change (l ++ [s.allocated]).map (Function.update s.value s.allocated (some v)) =
      (q ++ [v]).map some
    have hold : l.map (Function.update s.value s.allocated (some v)) = l.map s.value :=
      List.map_congr_left fun n hn => by
        have hne : n ≠ s.allocated := fun e => hnew (e ▸ hn)
        rw [Function.update_of_ne hne]
    simp [hold, hvalue]

/-- What `__pop` leaves when it has taken the first node `n`. -/
def State.popFirst (s : State Tid α) (n : ℕ) : State Tid α :=
  (s.unlink n (s.next n)).subSize.setNext n none

omit [DecidableEq Tid] in
theorem popFirst_next (s : State Tid α) (n a : ℕ) :
    (s.popFirst n).next a = if a = n then none else if a = 0 then s.next n else s.next a := by
  simp [State.popFirst, State.setNext, State.subSize, State.unlink, Function.update_apply]

omit [DecidableEq Tid] in
/-- The rest of the queue without its first node. -/
theorem chain_popFirst {n : ℕ} (h : Chain s.next (s.next 0) (n :: l)) (h0 : 0 ∉ n :: l) :
    Chain (s.popFirst n).next ((s.popFirst n).next 0) l := by
  obtain ⟨hn0, h0l⟩ : 0 ≠ n ∧ 0 ∉ l := by simpa using h0
  have hnl : n ∉ l := (List.nodup_cons.1 h.nodup).1
  have hhead : (s.popFirst n).next 0 = s.next n := by rw [popFirst_next, if_neg hn0, if_pos rfl]
  rw [hhead]
  exact (h.2.update h0l (s.next n)).update hnl none

end

section

variable {t : Tid} {s : State Tid α} {q : List α} {c : Cache}

/-- After `reset_tail` on an empty queue. -/
theorem Between.reset (h : Between t s q c) {call : Call α} {s' : State Tid α}
    (hp : Performs t s call s') (hempty : s'.next 0 = none) (htail : s'.tail = 0)
    (hsize : s'.size = 0) : Between t s' [] .current where
  inv := inv_performs h.inv hp
  idle := by
    obtain ⟨-, k, -, hidle⟩ := hp
    exact hidle
  tail_end := by rw [htail, hempty]
  size := hsize
  size_lt := by simp
  cache := ⟨[], hempty, rfl, .inl ⟨rfl, htail⟩⟩

theorem Between.push (h : Between t s q c) (v : α) (hlt : q.length + 1 < 2 ^ 64) :
    ∃ s', Performs t s (.push v) s' ∧ s'.history = s.history ++ [.pushed] ∧
      Between t s' (q ++ [v]) (if c = .current then .current else .misplaced) := by
  have hp := performs_push h.idle h.tail_end v
  have hinv := inv_performs h.inv hp
  have hne : s.allocated ≠ s.tail := fun e => h.inv.unallocated (e ▸ h.inv.shape.tail)
  have hnone : s.next s.allocated = none := h.inv.shape.next_fresh _ h.inv.unallocated
  have h0 : s.allocated ≠ 0 := h.inv.shape.allocated.ne'
  refine ⟨_, hp, rfl, hinv, ret_pc_self _ _ _, ?_, ?_, ?_, ?_⟩
  · change Function.update s.next s.tail (some s.allocated) s.allocated = none
    rw [Function.update_of_ne hne, hnone]
  · change (s.size + 1) % 2 ^ 64 = _
    rw [h.size, Nat.mod_eq_of_lt hlt, List.length_append, List.length_singleton]
  · rwa [List.length_append, List.length_singleton]
  · have hlost : s.next 0 = none → s.tail ≠ 0 →
        (Function.update s.next s.tail (some s.allocated)) 0 = none := fun hnext htail => by
      rw [Function.update_of_ne htail.symm, hnext]
    have hcache := h.cache
    cases c with
    | current =>
        obtain ⟨l, hl⟩ := hcache
        exact ⟨l ++ [s.allocated], hl.push h.inv h.tail_end v⟩
    -- the node is linked behind one that is not reachable from `__head`
    | drained => exact ⟨hlost hcache.1 hcache.2.1, h0, by simp⟩
    | misplaced => exact ⟨hlost hcache.1 hcache.2.1, h0, by simp⟩

/-- `__pop` on an empty queue, called by `pop` or by `clear`. -/
theorem performs_empty {t : Tid} {s : State Tid α} (hidle : s.pc t = .idle)
    (hempty : s.next 0 = none) :
    Performs t s .pop ((s.setTail 0).ret t (.popped none)) ∧
      Performs t s .clear ((s.setTail 0).ret t .cleared) :=
  ⟨⟨hidle, 2, run_pop_empty .pop hempty, by simp⟩,
    hidle, 2, run_pop_empty .clear hempty, by simp⟩

theorem Between.pop_current (h : Between t s q .current) :
    ∃ s', Performs t s .pop s' ∧ s'.history = s.history ++ [.popped (Fifo.pop q).1] ∧
      Between t s' (Fifo.pop q).2 (if q.length = 1 then .drained else .current) := by
  obtain ⟨l, hchain, hvalue, htail⟩ := h.cache
  cases l with
  | nil =>
      obtain rfl : q = [] := List.map_eq_nil_iff.1 hvalue.symm
      exact ⟨_, (performs_empty h.idle hchain).1, rfl,
        h.reset (performs_empty h.idle hchain).1 hchain rfl h.size⟩
  | cons n l =>
      obtain ⟨v, q, rfl⟩ : ∃ v q', q = v :: q' := by
        cases q with
        | nil => simp at hvalue
        | cons v q => exact ⟨v, q, rfl⟩
      obtain ⟨hv, hvalue⟩ : s.value n = some v ∧ l.map s.value = q.map some := by
        simpa using hvalue
      have h0 := h.inv.zero_not_mem hchain
      have hnl : n ∉ l := (List.nodup_cons.1 hchain.nodup).1
      have hp : Performs t s .pop ((s.popFirst n).ret t (.popped (some v))) := by
        refine ⟨h.idle, 5, run_pop_first hchain.1 ?_, by simp⟩
        have hv' : (s.popFirst n).value n = some v := hv
        simp only [State.popReturned]
        rw [show ((s.unlink n (s.next n)).subSize.setNext n none) = s.popFirst n from rfl, hv']
        rfl
      have htail0 : s.tail ≠ 0 := fun e => h0 (e ▸ htail.resolve_left (by simp))
      have hlen : l.length = q.length := by simpa using congrArg List.length hvalue
      refine ⟨_, hp, rfl, inv_performs h.inv hp, ret_pc_self _ _ _, ?_, ?_, ?_, ?_⟩
      · change (s.popFirst n).next s.tail = none
        rw [popFirst_next, if_neg htail0, h.tail_end, ite_self]
      · have hsize := h.size
        simp only [List.length_cons] at hsize
        change (if s.size = 0 then 2 ^ 64 - 1 else s.size - 1) = q.length
        rw [hsize, if_neg (Nat.succ_ne_zero _), Nat.add_sub_cancel]
      · exact lt_of_le_of_lt (by simp) h.size_lt
      -- `__tail` is the popped node exactly when that was the only one
      · rcases List.mem_cons.1 (htail.resolve_left (by simp)) with htn | htl
        · have hnone : s.next n = none := htn ▸ h.tail_end
          have hl := hchain.2
          rw [hnone] at hl
          obtain rfl := hl.eq_nil
          obtain rfl : q = [] := List.length_eq_zero_iff.1 (by simpa using hlen.symm)
          exact ⟨chain_popFirst hchain h0, htail0, rfl⟩
        · have hq : (v :: q).length ≠ 1 := by
            intro e
            have : l = [] := List.length_eq_zero_iff.1 (by simpa [hlen] using e)
            exact absurd htl (by simp [this])
          rw [if_neg hq]
          exact ⟨l, chain_popFirst hchain h0, hvalue, .inr htl⟩

/-- `clear` takes the nodes one after the other. -/
theorem run_clear {l : List ℕ} (hchain : Chain s.next (s.next 0) l) (h0 : 0 ∉ l)
    (hsize : s.size = l.length) : ∃ k s',
      run step (s.setPc t (.loadHead .clear)) (List.replicate k (.exec t)) = some s' ∧
      s'.history = s.history ++ [.cleared] ∧ s'.pc t = .idle ∧ s'.next 0 = none ∧
      s'.tail = 0 ∧ s'.size = 0 := by
  induction l generalizing s with
  | nil =>
      exact ⟨2, _, run_pop_empty .clear hchain, rfl, by simp, hchain, rfl, hsize⟩
  | cons n l ih =>
      have hsize' : (s.popFirst n).size = l.length := by
        change (if s.size = 0 then 2 ^ 64 - 1 else s.size - 1) = l.length
        rw [hsize, List.length_cons, if_neg (Nat.succ_ne_zero _), Nat.add_sub_cancel]
      obtain ⟨k, s', hrun, hrest⟩ := ih (s := s.popFirst n) (chain_popFirst hchain h0)
        (fun hmem => h0 (List.mem_cons_of_mem _ hmem)) hsize'
      refine ⟨5 + k, s', ?_, hrest⟩
      rw [List.replicate_add]
      exact run_trans (run_pop_first hchain.1 rfl) hrun

theorem Between.clear (h : Between t s q c) (hc : c ≠ .misplaced) :
    ∃ s', Performs t s .clear s' ∧ s'.history = s.history ++ [.cleared] ∧
      Between t s' [] .current := by
  obtain ⟨l, hchain, hsize⟩ : ∃ l, Chain s.next (s.next 0) l ∧ s.size = l.length := by
    cases c with
    | current =>
        obtain ⟨l, hchain, hvalue, -⟩ := h.cache
        refine ⟨l, hchain, ?_⟩
        rw [h.size]
        simpa using (congrArg List.length hvalue).symm
    | drained =>
        obtain ⟨hempty, -, rfl⟩ := h.cache
        exact ⟨[], hempty, h.size⟩
    | misplaced => exact absurd rfl hc
  obtain ⟨k, s', hrun, hhist, hidle, hempty, htail, hzero⟩ :=
    run_clear (t := t) hchain (h.inv.zero_not_mem hchain) hsize
  have hp : Performs t s .clear s' := ⟨h.idle, k, hrun, hidle⟩
  exact ⟨s', hp, hhist, h.reset hp hempty htail hzero⟩

theorem Between.pop_drained (h : Between t s q .drained) :
    ∃ s', Performs t s .pop s' ∧ s'.history = s.history ++ [.popped (Fifo.pop q).1] ∧
      Between t s' (Fifo.pop q).2 .current := by
  obtain ⟨hempty, -, rfl⟩ := h.cache
  have hp := (performs_empty h.idle hempty).1
  exact ⟨_, hp, rfl, h.reset hp hempty rfl h.size⟩

theorem Between.read_size (h : Between t s q c) :
    ∃ s', Performs t s .size s' ∧ s'.history = s.history ++ [.sized q.length] ∧
      Between t s' q c := by
  have hp : Performs t s .size (s.ret t (.sized s.size)) :=
    ⟨h.idle, 1, by simp [State.begin, step], by simp⟩
  refine ⟨_, hp, by rw [h.size]; rfl, inv_performs h.inv hp, ret_pc_self _ _ _,
    h.tail_end, h.size, h.size_lt, ?_⟩
  cases c <;> exact h.cache

/-! ### One call and all calls -/

/-- A call that leaves a cache agrees with the FIFO. -/
theorem Between.call (h : Between t s q c) {call : Call α} {c' : Cache}
    (hc : c.after q call = some c') (hlt : (fifoCall q call).1.length < 2 ^ 64) :
    ∃ s', Performs t s call s' ∧ s'.history = s.history ++ [(fifoCall q call).2] ∧
      Between t s' (fifoCall q call).1 c' := by
  cases call with
  | push v =>
      have hlt' : q.length + 1 < 2 ^ 64 := by
        simpa only [fifoCall, List.length_append, List.length_singleton] using hlt
      obtain ⟨s', hp, hhist, hb⟩ := h.push v hlt'
      refine ⟨s', hp, hhist, ?_⟩
      cases c <;> simp only [Cache.after, Option.some.injEq] at hc <;> subst hc <;> exact hb
  | pop =>
      cases c with
      | current =>
          obtain ⟨s', hp, hhist, hb⟩ := h.pop_current
          refine ⟨s', hp, hhist, ?_⟩
          have hc' : c' = if q.length = 1 then .drained else .current := by
            simp only [Cache.after] at hc
            split_ifs at hc ⊢ <;> exact (Option.some.inj hc).symm
          exact hc' ▸ hb
      | drained =>
          obtain rfl : Cache.current = c' := Option.some.inj hc
          exact h.pop_drained
      | misplaced => exact absurd hc (by simp [Cache.after])
  | clear =>
      cases c with
      | current | drained =>
          obtain rfl : Cache.current = c' := Option.some.inj hc
          exact h.clear (by simp)
      | misplaced => exact absurd hc (by simp [Cache.after])
  | size =>
      obtain rfl : c = c' := by cases c <;> exact Option.some.inj hc
      exact h.read_size

/-- A call that leaves none does not. -/
theorem Between.call_fails (h : Between t s q c) {call : Call α} (hc : c.after q call = none)
    {s' : State Tid α} (hp : Performs t s call s')
    (hhist : s'.history = s.history ++ [(fifoCall q call).2])
    (hsize : s'.size = (fifoCall q call).1.length) : False := by
  obtain ⟨rfl, hcall⟩ : c = .misplaced ∧ (call = .pop ∨ call = .clear) := by
    cases call <;> cases c <;> simp_all [Cache.after]
    split_ifs at hc
  obtain ⟨hempty, -, hne⟩ := h.cache
  obtain ⟨v, q', rfl⟩ := List.exists_cons_of_ne_nil hne
  rcases hcall with rfl | rfl
  · have hs' := performs_unique hp (performs_empty h.idle hempty).1
    subst hs'
    simp [State.ret, State.setTail, fifoCall] at hhist
  · have hs' := performs_unique hp (performs_empty h.idle hempty).2
    subst hs'
    have : s.size = 0 := hsize
    rw [h.size] at this
    simp at this

/-- The 64-bit counter cannot hold the length of the list any more. -/
theorem Between.call_overflows (h : Between t s q c) {call : Call α}
    (hlt : ¬ (fifoCall q call).1.length < 2 ^ 64) {s' : State Tid α} (hp : Performs t s call s')
    (hsize : s'.size = (fifoCall q call).1.length) : False := by
  have hq := h.size_lt
  cases call with
  | push v =>
      have hs' := performs_unique hp (performs_push h.idle h.tail_end v)
      subst hs'
      have hmod : (s.size + 1) % 2 ^ 64 = (q ++ [v]).length := hsize
      have := Nat.mod_lt (s.size + 1) (Nat.two_pow_pos 64)
      simp only [fifoCall] at hlt
      omega
  | pop =>
      refine hlt (lt_of_le_of_lt ?_ hq)
      cases q <;> simp [fifoCall]
  | clear => exact hlt (by simp [fifoCall])
  | size => exact hlt hq

theorem Between.agrees_iff (h : Between t s q c) (calls : List (Call α)) :
    AgreesWithFifo t s q calls ↔ WellCached c q calls := by
  induction calls generalizing s q c with
  | nil => exact Iff.rfl
  | cons call calls ih =>
      constructor
      · rintro ⟨s', hp, hhist, hsize, hrest⟩
        have hlt : (fifoCall q call).1.length < 2 ^ 64 := by
          by_contra hge
          exact h.call_overflows hge hp hsize
        cases hc : c.after q call with
        | none => exact (h.call_fails hc hp hhist hsize).elim
        | some c' =>
            obtain ⟨s'', hp', -, hb⟩ := h.call hc hlt
            obtain rfl := performs_unique hp hp'
            exact ⟨hlt, c', hc, (ih hb).1 hrest⟩
      · rintro ⟨hlt, c', hc, hrest⟩
        obtain ⟨s', hp, hhist, hb⟩ := h.call hc hlt
        exact ⟨s', hp, hhist, hb.size, (ih hb).2 hrest⟩

end

/-- The calls of one thread on a new queue agree with a FIFO list if and
only if no pop and no `clear` comes after a push that was linked behind a
popped node (and the list stays shorter than `2 ^ 64`). -/
theorem single_thread_agrees_iff (t : Tid) (calls : List (Call α)) :
    AgreesWithFifo t (init Tid α) [] calls ↔ WellCached .current [] calls :=
  (between_init t).agrees_iff calls

/-- `push(1); pop(); push(2); pop()`: the last `pop` returns `nullopt`. -/
theorem push_after_drain_is_lost :
    ¬ ∀ calls : List (Call ℕ), AgreesWithFifo () (init Unit ℕ) [] calls := by
  intro h
  obtain ⟨s₁, hp₁, -, -, s₂, hp₂, -, -, s₃, hp₃, -, -, s₄, hp₄, hhist, -⟩ :=
    h [.push 1, .pop, .push 2, .pop]
  obtain rfl := performs_unique hp₁ ⟨rfl, 4, rfl, rfl⟩
  obtain rfl := performs_unique hp₂ ⟨rfl, 5, rfl, rfl⟩
  obtain rfl := performs_unique hp₃ ⟨rfl, 4, rfl, rfl⟩
  obtain rfl := performs_unique hp₄ ⟨rfl, 2, rfl, rfl⟩
  exact absurd hhist (by decide)

end JowiAsio.LockFreeQueue

import JowiAsio.Ringbuf.Model

/-!
What one step of the ring buffer can do.

`Trans` lists the outcomes of a step with the facts that select each of
them, and `step_trans` derives it from the executable `step`. Invariant
proofs are case analyses on `Trans` and never unfold `step`.
-/

namespace JowiAsio.Ringbuf

open Lib TaggedPtr

variable {D : DeleterSize} {Tid : Type} [DecidableEq Tid]

/-! ### Reading an updated state -/

section

variable (s : State Tid D) (t : Tid)

@[simp] theorem setPc_nodes (p : Pc D) : (s.setPc t p).nodes = s.nodes := rfl

@[simp] theorem setPc_counter (p : Pc D) : (s.setPc t p).counter = s.counter := rfl

@[simp] theorem setPc_history (p : Pc D) : (s.setPc t p).history = s.history := rfl

@[simp] theorem setPc_pc (p : Pc D) : (s.setPc t p).pc = Function.update s.pc t p := rfl

@[simp] theorem ret_nodes (ev : Event D) : (s.ret t ev).nodes = s.nodes := rfl

@[simp] theorem ret_counter (ev : Event D) : (s.ret t ev).counter = s.counter := rfl

@[simp] theorem ret_history (ev : Event D) : (s.ret t ev).history = s.history ++ [ev] := rfl

@[simp] theorem ret_pc (ev : Event D) : (s.ret t ev).pc = Function.update s.pc t .idle := rfl

omit [DecidableEq Tid] in
@[simp] theorem setCounter_nodes (c : PointerType) : (s.setCounter c).nodes = s.nodes := rfl

omit [DecidableEq Tid] in
@[simp] theorem setCounter_counter (c : PointerType) : (s.setCounter c).counter = c := rfl

omit [DecidableEq Tid] in
@[simp] theorem setCounter_history (c : PointerType) :
    (s.setCounter c).history = s.history := rfl

omit [DecidableEq Tid] in
@[simp] theorem setCounter_pc (c : PointerType) : (s.setCounter c).pc = s.pc := rfl

omit [DecidableEq Tid] in
@[simp] theorem setNode_nodes (i : ℕ) (w : Word) :
    (s.setNode i w).nodes = s.nodes.set i w := rfl

omit [DecidableEq Tid] in
@[simp] theorem setNode_counter (i : ℕ) (w : Word) : (s.setNode i w).counter = s.counter := rfl

omit [DecidableEq Tid] in
@[simp] theorem setNode_history (i : ℕ) (w : Word) : (s.setNode i w).history = s.history := rfl

omit [DecidableEq Tid] in
@[simp] theorem setNode_pc (i : ℕ) (w : Word) : (s.setNode i w).pc = s.pc := rfl

end

/-! ### The outcomes of a step -/

inductive Trans (s : State Tid D) : Label Tid D → State Tid D → Prop
  | call {t : Tid} {c : Call D} (hpc : s.pc t = .idle) :
      Trans s (.call t c) (s.setPc t c.start)
  | pushClaim {t : Tid} {x : UniquePtr D} {e d : PointerType}
      (hpc : s.pc t = .push x e d) (hc : s.counter = e) :
      Trans s (.exec t false) ((s.setCounter d).setPc t (.store x .push e.push))
  | pushRetry {t : Tid} {f : Bool} {x : UniquePtr D} {e d : PointerType}
      (hpc : s.pc t = .push x e d) (hf : s.counter = e → f = true) :
      Trans s (.exec t f) (s.setPc t
        (.push x (pushRetry s.capacity s.counter).1 (pushRetry s.capacity s.counter).2))
  | tryPushClaim {t : Tid} {x : UniquePtr D} {e d : PointerType}
      (hpc : s.pc t = .tryPush x e d) (hc : s.counter = e) :
      Trans s (.exec t false) ((s.setCounter d).setPc t (.store x .tryPush e.push))
  | tryPushFull {t : Tid} {f : Bool} {x : UniquePtr D} {e d : PointerType}
      (hpc : s.pc t = .tryPush x e d) (hf : s.counter = e → f = true)
      (hr : tryPushRetry s.capacity s.counter = none) :
      Trans s (.exec t f) (s.ret t (.tryPushed x (some x)))
  | tryPushRetry {t : Tid} {f : Bool} {x : UniquePtr D} {e d e' d' : PointerType}
      (hpc : s.pc t = .tryPush x e d) (hf : s.counter = e → f = true)
      (hr : tryPushRetry s.capacity s.counter = some (e', d')) :
      Trans s (.exec t f) (s.setPc t (.tryPush x e' d'))
  | store {t : Tid} {x : UniquePtr D} {kind : PushKind} {i : ℕ}
      (hpc : s.pc t = .store x kind i) (hn : s.nodes[i]? = some null) :
      Trans s (.exec t false) ((s.setNode i x.word).ret t (kind.returned x))
  | storeRetry {t : Tid} {f : Bool} {x : UniquePtr D} {kind : PushKind} {i : ℕ} {w : Word}
      (hpc : s.pc t = .store x kind i) (hn : s.nodes[i]? = some w)
      (hf : w = null → f = true) :
      Trans s (.exec t f) s
  | popClaim {t : Tid} {e d : PointerType}
      (hpc : s.pc t = .pop e d) (hc : s.counter = e) :
      Trans s (.exec t false) ((s.setCounter d).setPc t (.take e.pop))
  | popEmpty {t : Tid} {f : Bool} {e d : PointerType}
      (hpc : s.pc t = .pop e d) (hf : s.counter = e → f = true)
      (hr : popRetry s.capacity s.counter = none) :
      Trans s (.exec t f) (s.ret t (.popped false none))
  | popRetry {t : Tid} {f : Bool} {e d e' d' : PointerType}
      (hpc : s.pc t = .pop e d) (hf : s.counter = e → f = true)
      (hr : popRetry s.capacity s.counter = some (e', d')) :
      Trans s (.exec t f) (s.setPc t (.pop e' d'))
  | take {t : Tid} {f : Bool} {i : ℕ} {w : Word}
      (hpc : s.pc t = .take i) (hn : s.nodes[i]? = some w) :
      Trans s (.exec t f) ((s.setNode i null).ret t (.popped true (nodeLoad D w)))

theorem step_trans {s s' : State Tid D} {a : Label Tid D} (h : step s a = some s') :
    Trans s a s' := by
  cases a with
  | call t c =>
      simp only [step, Option.ite_none_right_eq_some, Option.some.injEq] at h
      obtain ⟨hpc, rfl⟩ := h
      exact .call hpc
  | exec t f =>
      cases hpc : s.pc t with
      | idle => simp [step, hpc] at h
      | push x e d =>
          simp only [step, hpc] at h
          rcases casWeak_cases f s.counter e d with ⟨hc, rfl, hr⟩ | ⟨hf, hr⟩ <;>
            simp only [hr, if_true, Bool.false_eq_true, if_false, Option.some.injEq] at h <;>
            subst h
          · exact .pushClaim hpc hc
          · exact .pushRetry hpc hf
      | tryPush x e d =>
          simp only [step, hpc] at h
          rcases casWeak_cases f s.counter e d with ⟨hc, rfl, hr⟩ | ⟨hf, hr⟩ <;>
            simp only [hr, if_true, Bool.false_eq_true, if_false] at h
          · rw [Option.some.injEq] at h
            subst h
            exact .tryPushClaim hpc hc
          · cases hretry : tryPushRetry s.capacity s.counter with
            | none =>
                simp only [hretry, Option.some.injEq] at h
                subst h
                exact .tryPushFull hpc hf hretry
            | some p =>
                simp only [hretry, Option.some.injEq] at h
                subst h
                exact .tryPushRetry hpc hf hretry
      | store x kind i =>
          simp only [step, hpc, Option.map_eq_some_iff] at h
          obtain ⟨w, hn, h⟩ := h
          rcases casWeak_cases f w null x.word with ⟨rfl, rfl, hr⟩ | ⟨hf, hr⟩ <;>
            simp only [blockingStore, hr, if_true, Bool.false_eq_true, if_false] at h <;>
            subst h
          · exact .store hpc hn
          · exact .storeRetry hpc hn hf
      | pop e d =>
          simp only [step, hpc] at h
          rcases casWeak_cases f s.counter e d with ⟨hc, rfl, hr⟩ | ⟨hf, hr⟩ <;>
            simp only [hr, if_true, Bool.false_eq_true, if_false] at h
          · rw [Option.some.injEq] at h
            subst h
            exact .popClaim hpc hc
          · cases hretry : popRetry s.capacity s.counter with
            | none =>
                simp only [hretry, Option.some.injEq] at h
                subst h
                exact .popEmpty hpc hf hretry
            | some p =>
                simp only [hretry, Option.some.injEq] at h
                subst h
                exact .popRetry hpc hf hretry
      | take i =>
          simp only [step, hpc, Option.map_eq_some_iff] at h
          obtain ⟨w, hn, rfl⟩ := h
          exact .take hpc hn

end JowiAsio.Ringbuf

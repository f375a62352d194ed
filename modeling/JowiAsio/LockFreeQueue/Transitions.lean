import JowiAsio.LockFreeQueue.Model

/-!
What one step of the queue can do.

`Trans` lists the outcomes of a step with the facts that select each of
them, and `step_trans` derives it from the executable `step`.
-/

namespace JowiAsio.LockFreeQueue

open Lib

variable {Tid α : Type} [DecidableEq Tid]

@[simp] theorem setPc_setPc (s : State Tid α) (t : Tid) (p q : Pc) :
    (s.setPc t p).setPc t q = s.setPc t q := by
  simp [State.setPc]

inductive Trans (s : State Tid α) : Label Tid α → State Tid α → Prop
  | call {t : Tid} {c : Call α} (hpc : s.pc t = .idle) : Trans s (.call t c) (s.begin t c)
  | loadTail {t : Tid} {n : ℕ} (hpc : s.pc t = .loadTail n) :
      Trans s (.exec t) (s.setPc t (.linkCas n s.tail))
  | link {t : Tid} {n a : ℕ} (hpc : s.pc t = .linkCas n a) (ha : s.next a = none) :
      Trans s (.exec t) ((s.link a n).setPc t (.storeTail n))
  | linkRetry {t : Tid} {n a b : ℕ} (hpc : s.pc t = .linkCas n a) (ha : s.next a = some b) :
      Trans s (.exec t) (s.setPc t (.linkCas n b))
  | storeTail {t : Tid} {n : ℕ} (hpc : s.pc t = .storeTail n) :
      Trans s (.exec t) ((s.setTail n).setPc t (.addSize n))
  | addSize {t : Tid} {n : ℕ} (hpc : s.pc t = .addSize n) :
      Trans s (.exec t) (s.addSize.ret t .pushed)
  | loadHead {t : Tid} {k : Popper} {n : ℕ} (hpc : s.pc t = .loadHead k)
      (hn : s.next 0 = some n) : Trans s (.exec t) (s.setPc t (.loadNext k n))
  | loadHeadEmpty {t : Tid} {k : Popper} (hpc : s.pc t = .loadHead k) (hn : s.next 0 = none) :
      Trans s (.exec t) (s.setPc t (.resetTail k))
  | resetTail {t : Tid} {k : Popper} (hpc : s.pc t = .resetTail k) :
      Trans s (.exec t) ((s.setTail 0).ret t k.empty)
  | loadNext {t : Tid} {k : Popper} {n : ℕ} (hpc : s.pc t = .loadNext k n) :
      Trans s (.exec t) (s.setPc t (.headCas k n (s.next n)))
  | unlink {t : Tid} {k : Popper} {n : ℕ} {o : Option ℕ} (hpc : s.pc t = .headCas k n o)
      (hn : s.next 0 = some n) : Trans s (.exec t) ((s.unlink n o).setPc t (.subSize k n))
  | unlinkRetry {t : Tid} {k : Popper} {n m : ℕ} {o : Option ℕ} (hpc : s.pc t = .headCas k n o)
      (hm : s.next 0 = some m) (hne : m ≠ n) : Trans s (.exec t) (s.setPc t (.loadNext k m))
  | unlinkEmpty {t : Tid} {k : Popper} {n : ℕ} {o : Option ℕ} (hpc : s.pc t = .headCas k n o)
      (hn : s.next 0 = none) : Trans s (.exec t) (s.setPc t (.resetTail k))
  | subSize {t : Tid} {k : Popper} {n : ℕ} (hpc : s.pc t = .subSize k n) :
      Trans s (.exec t) (s.subSize.setPc t (.resetNext k n))
  | resetNext {t : Tid} {n : ℕ} {v : α} (hpc : s.pc t = .resetNext .pop n)
      (hv : s.value n = some v) :
      Trans s (.exec t) ((s.setNext n none).ret t (.popped (some v)))
  | resetNextAgain {t : Tid} {n : ℕ} (hpc : s.pc t = .resetNext .clear n) :
      Trans s (.exec t) ((s.setNext n none).setPc t (.loadHead .clear))
  | loadSize {t : Tid} (hpc : s.pc t = .loadSize) : Trans s (.exec t) (s.ret t (.sized s.size))

theorem step_trans {s s' : State Tid α} {a : Label Tid α} (h : step s a = some s') :
    Trans s a s' := by
  cases a with
  | call t c =>
      simp only [step, Option.ite_none_right_eq_some, Option.some.injEq] at h
      obtain ⟨hpc, rfl⟩ := h
      exact .call hpc
  | exec t =>
      cases hpc : s.pc t with
      | idle => simp [step, hpc] at h
      | loadTail n =>
          simp only [step, hpc, Option.some.injEq] at h
          exact h ▸ .loadTail hpc
      | linkCas n a =>
          cases ha : s.next a with
          | none =>
              simp only [step, hpc, ha, Option.some.injEq] at h
              exact h ▸ .link hpc ha
          | some b =>
              simp only [step, hpc, ha, Option.some.injEq] at h
              exact h ▸ .linkRetry hpc ha
      | storeTail n =>
          simp only [step, hpc, Option.some.injEq] at h
          exact h ▸ .storeTail hpc
      | addSize n =>
          simp only [step, hpc, Option.some.injEq] at h
          exact h ▸ .addSize hpc
      | loadHead k =>
          cases hn : s.next 0 with
          | none =>
              simp only [step, hpc, hn, Option.some.injEq] at h
              exact h ▸ .loadHeadEmpty hpc hn
          | some n =>
              simp only [step, hpc, hn, Option.some.injEq] at h
              exact h ▸ .loadHead hpc hn
      | resetTail k =>
          simp only [step, hpc, Option.some.injEq] at h
          exact h ▸ .resetTail hpc
      | loadNext k n =>
          simp only [step, hpc, Option.some.injEq] at h
          exact h ▸ .loadNext hpc
      | headCas k n o =>
          simp only [step, hpc, casStrong] at h
          rcases casWeak_cases false (s.next 0) (some n) o with ⟨hn, -, hr⟩ | ⟨hne, hr⟩ <;>
            simp only [hr, if_true, Bool.false_eq_true, if_false] at h
          · rw [Option.some.injEq] at h
            exact h ▸ .unlink hpc hn
          · cases hm : s.next 0 with
            | none =>
                simp only [hm, Option.some.injEq] at h
                exact h ▸ .unlinkEmpty hpc hm
            | some m =>
                simp only [hm, Option.some.injEq] at h
                exact h ▸ .unlinkRetry hpc hm fun e => by simp [hm, e] at hne
      | subSize k n =>
          simp only [step, hpc, Option.some.injEq] at h
          exact h ▸ .subSize hpc
      | resetNext k n =>
          cases k with
          | pop =>
              simp only [step, hpc, State.popReturned, Option.map_eq_some_iff] at h
              obtain ⟨v, hv, rfl⟩ := h
              exact .resetNext hpc hv
          | clear =>
              simp only [step, hpc, State.popReturned, Option.some.injEq] at h
              exact h ▸ .resetNextAgain hpc
      | loadSize =>
          simp only [step, hpc, Option.some.injEq] at h
          exact h ▸ .loadSize hpc

end JowiAsio.LockFreeQueue

import JowiAsio.Executor.Model

/-!
What one step with a worker can do.

`Worker.Trans` lists the outcomes of a step with the facts that select
each of them, and `Worker.step_trans` derives it from the executable
`Worker.step`. The thread's own step stays a function, which the
invariants read case by case.
-/

namespace JowiAsio.Executor

open Lib

variable {I L : Type} [DecidableEq I]

inductive Worker.Trans (r : Registry I L) (v : Worker I L) :
    Action → Worker I L → Registry I L → Prop
  | initialise (hc : v.control = .initialise) :
      Trans r v .initialise { v with word := some ⟨false, true⟩, control := .register } r
  | register (hc : v.control = .register) :
      Trans r v .register { v with control := .idle } (registerEventLoop r v.loop v.id).2
  | start (hc : v.control = .idle) :
      Trans r v .start { v with control := .starting ⟨false, false⟩ ⟨true, false⟩ } r
  | stop (hc : v.control = .idle) :
      Trans r v .stop { v with control := .stopping ⟨true, false⟩ ⟨true, true⟩ } r
  | startChanges {e d : Flags} (hc : v.control = .starting e d) (hw : v.word = some e) :
      Trans r v (.compareExchange false)
        { v with word := some d, control := .starting e ⟨true, e.stop⟩ } r
  | startFails {e d word : Flags} {spurious : Bool} (hc : v.control = .starting e d)
      (hw : v.word = some word) (hne : word = e → spurious = true) :
      Trans r v (.compareExchange spurious) { v with control := .idle } r
  | stopChanges {e d : Flags} (hc : v.control = .stopping e d) (hw : v.word = some e) :
      Trans r v (.compareExchange false)
        { v with word := some d, control := .stopping e ⟨e.start, true⟩ } r
  | stopFails {e d word : Flags} {spurious : Bool} (hc : v.control = .stopping e d)
      (hw : v.word = some word) (hne : word = e → spurious = true) :
      Trans r v (.compareExchange spurious) { v with control := .idle } r
  | destroy (hc : v.control = .idle) :
      Trans r v .destroy { v with word := some ⟨true, true⟩, control := .joining } r
  | join (hc : v.control = .joining) (ht : v.thread = .returned) :
      Trans r v .join { v with control := .destroyed } r
  | thread {f : Flags} {t : Thread L}
      (ht : v.thread.step (v.word.getD f) (getEventLoop r v.id) = some t) :
      Trans r v (.thread f) { v with thread := t } r

variable {r r' : Registry I L} {v v' : Worker I L} {a : Action}

theorem Worker.step_trans (hs : v.step r a = some (v', r')) : Worker.Trans r v a v' r' := by
  cases a with
  | thread f =>
      have hthread : (v.thread.step (v.word.getD f) (getEventLoop r v.id)).map
          (fun t => ({ v with thread := t }, r)) = some (v', r') := by
        cases hc : v.control <;> simpa [Worker.step, hc] using hs
      obtain ⟨t, ht, he⟩ := Option.map_eq_some_iff.1 hthread
      cases he
      exact .thread ht
  | compareExchange spurious =>
      cases hc : v.control with
      | starting e d =>
          simp only [Worker.step, hc] at hs
          obtain ⟨word, hw, he⟩ := Option.map_eq_some_iff.1 hs
          rcases casWeak_cases spurious word e d with ⟨rfl, rfl, hcas⟩ | ⟨hne, hcas⟩
          · simp only [startStep, hcas] at he
            cases he
            exact .startChanges hc hw
          · simp only [startStep, hcas, ← hw] at he
            cases he
            exact .startFails hc hw hne
      | stopping e d =>
          simp only [Worker.step, hc] at hs
          obtain ⟨word, hw, he⟩ := Option.map_eq_some_iff.1 hs
          rcases casWeak_cases spurious word e d with ⟨rfl, rfl, hcas⟩ | ⟨hne, hcas⟩
          · simp only [stopStep, hcas] at he
            cases he
            exact .stopChanges hc hw
          · simp only [stopStep, hcas, ← hw] at he
            cases he
            exact .stopFails hc hw hne
      | _ => simp [Worker.step, hc] at hs
  | join =>
      cases hc : v.control with
      | joining =>
          simp only [Worker.step, hc] at hs
          split at hs
          case h_1 ht =>
            cases hs
            exact .join hc ht
          case h_2 => cases hs
      | _ => simp [Worker.step, hc] at hs
  | initialise =>
      cases hc : v.control with
      | initialise =>
          simp only [Worker.step, hc] at hs
          cases hs
          exact .initialise hc
      | _ => simp [Worker.step, hc] at hs
  | register =>
      cases hc : v.control with
      | register =>
          simp only [Worker.step, hc] at hs
          cases hs
          exact .register hc
      | _ => simp [Worker.step, hc] at hs
  | start =>
      cases hc : v.control with
      | idle =>
          simp only [Worker.step, hc] at hs
          cases hs
          exact .start hc
      | _ => simp [Worker.step, hc] at hs
  | stop =>
      cases hc : v.control with
      | idle =>
          simp only [Worker.step, hc] at hs
          cases hs
          exact .stop hc
      | _ => simp [Worker.step, hc] at hs
  | destroy =>
      cases hc : v.control with
      | idle =>
          simp only [Worker.step, hc] at hs
          cases hs
          exact .destroy hc
      | _ => simp [Worker.step, hc] at hs

/-- A step with the worker `w` changes that worker and the registry. -/
theorem workerStep_trans {s t : State I L} {w : ℕ} (hs : workerStep s w a = some t) :
    ∃ v v' r', s.workers[w]? = some v ∧ Worker.Trans s.registry v a v' r' ∧
      t = ⟨r', s.workers.set w v'⟩ := by
  obtain ⟨v, hv, hs⟩ := Option.bind_eq_some_iff.1 hs
  obtain ⟨p, hp, rfl⟩ := Option.map_eq_some_iff.1 hs
  exact ⟨v, p.1, p.2, hv, Worker.step_trans hp, rfl⟩

/-- The step is one of the thread's when the label says so. -/
theorem Worker.Trans.of_thread {f : Flags} (hs : Worker.Trans r v (.thread f) v' r') :
    r' = r ∧ ∃ t, v.thread.step (v.word.getD f) (getEventLoop r v.id) = some t ∧
      v' = { v with thread := t } := by
  cases hs with
  | thread ht => exact ⟨rfl, _, ht, rfl⟩

end JowiAsio.Executor

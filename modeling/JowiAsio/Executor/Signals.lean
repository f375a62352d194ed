import JowiAsio.Executor.Model
import Mathlib.Data.List.Basic

/-!
`PoolWorker::start` and `stop` (`executor.cc`) as updates of the flags.

Both loop around a weak compare-exchange. The loop goes on after an
attempt that succeeds and ends with the first one that fails, so a call
has changed the flags as often as attempts succeeded before that. Each
attempt expects what the first one did, which a success does not change.

Any number of threads call them on one worker, and a step is one attempt
or another update of the flags. An attempt that fails for the padding of
the pair is one that fails spuriously. A call keeps a record of its own
successful attempts.
-/

namespace JowiAsio.Executor

open Lib

/-- The two calls. -/
inductive Signal
  | start
  | stop

namespace Signal

/-- What the first attempt expects. -/
def guess : Signal → Flags
  | start => ⟨false, false⟩
  | stop => ⟨true, false⟩

/-- What the first attempt writes. -/
def firstTarget : Signal → Flags
  | start => ⟨true, false⟩
  | stop => ⟨true, true⟩

/-- The pair that the loop body computes. -/
def target (e : Flags) : Signal → Flags
  | start => ⟨true, e.stop⟩
  | stop => ⟨e.start, true⟩

@[simp] theorem firstTarget_eq (sig : Signal) : sig.firstTarget = sig.target sig.guess := by
  cases sig <;> rfl

/-- One attempt and, when it succeeds, the loop body: the flags afterwards,
and what the next attempt expects and writes, if there is one. -/
def attempt (sig : Signal) (spurious : Bool) (word e d : Flags) : Flags × Option (Flags × Flags) :=
  let r := casWeak spurious word e d
  (r.cell, if r.ok then some (r.expected, sig.target r.expected) else none)

theorem attempt_cases (sig : Signal) (spurious : Bool) (word e d : Flags) :
    (word = e ∧ spurious = false ∧ sig.attempt spurious word e d = (d, some (e, sig.target e))) ∨
      ((word = e → spurious = true) ∧ sig.attempt spurious word e d = (word, none)) := by
  rw [attempt]
  rcases casWeak_cases spurious word e d with ⟨hword, hs, hcas⟩ | ⟨hmiss, hcas⟩
  · exact .inl ⟨hword, hs, by rw [hcas]; rfl⟩
  · exact .inr ⟨hmiss, by rw [hcas]; rfl⟩

/-- What the owner of a worker does after an attempt. -/
def control : Signal → Option (Flags × Flags) → Control
  | _, none => .idle
  | start, some (e, d) => .starting e d
  | stop, some (e, d) => .stopping e d

end Signal

/-- The steps of a worker's owner are these attempts. -/
theorem Worker.startStep_eq {I L : Type} (v : Worker I L) (spurious : Bool) (word e d : Flags) :
    v.startStep spurious word e d =
      { v with
        word := some (Signal.start.attempt spurious word e d).1
        control := Signal.start.control (Signal.start.attempt spurious word e d).2 } := by
  rw [Worker.startStep, Signal.attempt]
  rcases casWeak_cases spurious word e d with ⟨-, -, hcas⟩ | ⟨-, hcas⟩ <;> rw [hcas] <;> rfl

theorem Worker.stopStep_eq {I L : Type} (v : Worker I L) (spurious : Bool) (word e d : Flags) :
    v.stopStep spurious word e d =
      { v with
        word := some (Signal.stop.attempt spurious word e d).1
        control := Signal.stop.control (Signal.stop.attempt spurious word e d).2 } := by
  rw [Worker.stopStep, Signal.attempt]
  rcases casWeak_cases spurious word e d with ⟨-, -, hcas⟩ | ⟨-, hcas⟩ <;> rw [hcas] <;> rfl

/-! ### Concurrent calls -/

namespace Signals

/-- What a successful attempt replaced, and by what. -/
abbrev Record := List (Flags × Flags)

/-- A thread has returned from a call with this record, or it is about to
make its next attempt, `tries` having succeeded. -/
inductive Pc
  | returned (done : Record)
  | loop (sig : Signal) (tries : ℕ) (e d : Flags) (done : Record)

structure Shared (ι : Type*) where
  word : Flags
  pc : ι → Pc

/-- The steps: another update of the flags, the begin of a call, and an
attempt, which may fail spuriously. -/
inductive Label (ι : Type*)
  | update (word : Flags)
  | call (i : ι) (sig : Signal)
  | attempt (i : ι) (spurious : Bool)

variable {ι : Type*}

def initShared (word : Flags) : Shared ι := ⟨word, fun _ => .returned []⟩

variable [DecidableEq ι]

def attemptStep (s : Shared ι) (i : ι) (spurious : Bool) (sig : Signal) (tries : ℕ)
    (e d : Flags) (done : Record) : Shared ι :=
  match sig.attempt spurious s.word e d with
  | (word, some (e', d')) =>
      ⟨word, Function.update s.pc i (.loop sig (tries + 1) e' d' (done ++ [(s.word, word)]))⟩
  | (word, none) => ⟨word, Function.update s.pc i (.returned done)⟩

def step (s : Shared ι) : Label ι → Option (Shared ι)
  | .update word => some { s with word := word }
  | .call i sig =>
      match s.pc i with
      | .returned _ =>
          some { s with pc := Function.update s.pc i (.loop sig 0 sig.guess sig.firstTarget []) }
      | .loop .. => none
  | .attempt i spurious =>
      match s.pc i with
      | .loop sig tries e d done => some (attemptStep s i spurious sig tries e d done)
      | .returned _ => none

/-! ### What a call has to do -/

/-- A call that returns has replaced the flags once, the one flag by true
and the other one by itself. -/
def CompletesOnce (s : Shared ι) : Label ι → Shared ι → Prop
  | .attempt i _, t => ∀ sig tries e d done last, s.pc i = .loop sig tries e d done →
      t.pc i = .returned last → ∃ word, last = [(word, sig.target word)]
  | _, _ => True

/-- The first attempt of a call finds the flags it expects and does not
fail, the second one finds others or fails spuriously. -/
def SecondMisses (s : Shared ι) : Label ι → Shared ι → Prop
  | .attempt i spurious, _ => ∀ sig tries e d done, s.pc i = .loop sig tries e d done →
      (s.word = sig.guess → spurious = true) → tries = 1
  | _, _ => True

/-- A call always expects the same flags, and so it has always made the
same change. -/
def Pc.Repeats : Pc → Prop
  | .returned _ => True
  | .loop sig tries e d done => e = sig.guess ∧ d = sig.target sig.guess ∧
      done = List.replicate tries (sig.guess, sig.target sig.guess)

def AllRepeat (s : Shared ι) : Prop := ∀ i, (s.pc i).Repeats

omit [DecidableEq ι] in
theorem allRepeat_init (word : Flags) : AllRepeat (initShared word : Shared ι) := fun _ => trivial

variable {s t : Shared ι} {i : ι} {spurious : Bool} {sig : Signal} {tries : ℕ} {e d : Flags}
  {done : Record}

theorem AllRepeat.update (h : AllRepeat s) {pc : Pc} (hpc : pc.Repeats) (word : Flags) :
    AllRepeat ⟨word, Function.update s.pc i pc⟩ :=
  (Function.forall_update_iff s.pc fun _ pc => pc.Repeats).2 ⟨hpc, fun j _ => h j⟩

/-- The two outcomes of an attempt. -/
theorem attemptStep_cases (s : Shared ι) (i : ι) (spurious : Bool) (sig : Signal) (tries : ℕ)
    (e d : Flags) (done : Record) :
    (s.word = e ∧ spurious = false ∧ attemptStep s i spurious sig tries e d done =
        ⟨d, Function.update s.pc i
          (.loop sig (tries + 1) e (sig.target e) (done ++ [(s.word, d)]))⟩) ∨
      ((s.word = e → spurious = true) ∧ attemptStep s i spurious sig tries e d done =
        ⟨s.word, Function.update s.pc i (.returned done)⟩) := by
  rw [attemptStep]
  rcases sig.attempt_cases spurious s.word e d with ⟨hword, hs, ha⟩ | ⟨hmiss, ha⟩
  · exact .inl ⟨hword, hs, by rw [ha]⟩
  · exact .inr ⟨hmiss, by rw [ha]⟩

theorem step_cases {a : Label ι} (h : step s a = some t) :
    (∃ word, a = .update word ∧ t = { s with word := word }) ∨
      (∃ i sig, a = .call i sig ∧
        t = { s with pc := Function.update s.pc i (.loop sig 0 sig.guess sig.firstTarget []) }) ∨
      ∃ i spurious sig tries e d done, a = .attempt i spurious ∧
        s.pc i = .loop sig tries e d done ∧ t = attemptStep s i spurious sig tries e d done := by
  cases a with
  | update word => exact .inl ⟨word, rfl, (Option.some.inj h).symm⟩
  | call i sig =>
      cases hpc : s.pc i with
      | returned done =>
          simp only [step, hpc, Option.some.injEq] at h
          exact .inr (.inl ⟨i, sig, rfl, h.symm⟩)
      | loop sig' tries e d done => simp [step, hpc] at h
  | attempt i spurious =>
      cases hpc : s.pc i with
      | returned done => simp [step, hpc] at h
      | loop sig tries e d done =>
          simp only [step, hpc, Option.some.injEq] at h
          exact .inr (.inr ⟨i, spurious, sig, tries, e, d, done, rfl, hpc, h.symm⟩)

theorem AllRepeat.step {a : Label ι} (h : AllRepeat s) (hstep : step s a = some t) :
    AllRepeat t := by
  rcases step_cases hstep with ⟨word, -, rfl⟩ | ⟨i, sig, -, rfl⟩ |
    ⟨i, spurious, sig, tries, e, d, done, -, hpc, rfl⟩
  · exact h
  · refine h.update (show Pc.Repeats (.loop ..) from ⟨rfl, ?_, rfl⟩) s.word
    exact sig.firstTarget_eq
  · have hrepeats := h i
    rw [hpc] at hrepeats
    obtain ⟨rfl, rfl, rfl⟩ := hrepeats
    rcases attemptStep_cases s i spurious sig tries sig.guess (sig.target sig.guess)
      (List.replicate tries (sig.guess, sig.target sig.guess)) with ⟨hword, -, hs⟩ | ⟨-, hs⟩
    · rw [hs, hword]
      refine h.update (show Pc.Repeats (.loop ..) from ⟨rfl, rfl, ?_⟩) _
      exact List.replicate_succ'.symm
    · rw [hs]
      exact h.update (show Pc.Repeats (.returned _) from trivial) s.word

/-- A record of repetitions is that of a complete call if there is one. -/
theorem replicate_eq_singleton (sig : Signal) (tries : ℕ) :
    (∃ word, List.replicate tries (sig.guess, sig.target sig.guess) =
      [(word, sig.target word)]) ↔ tries = 1 := by
  constructor
  · rintro ⟨word, hrec⟩
    simpa using congrArg List.length hrec
  · rintro rfl
    exact ⟨sig.guess, rfl⟩

omit [DecidableEq ι] in
/-- The property, of an attempt of a known call. -/
theorem completesOnce_attempt (hpc : s.pc i = .loop sig tries e d done) :
    CompletesOnce s (.attempt i spurious) t ↔
      ∀ last, t.pc i = .returned last → ∃ word, last = [(word, sig.target word)] := by
  constructor
  · exact fun h last hlast => h sig tries e d done last hpc hlast
  · intro h sig' tries' e' d' done' last hpc' hlast
    obtain ⟨rfl, -⟩ := Pc.loop.inj (hpc.symm.trans hpc')
    exact h last hlast

omit [DecidableEq ι] in
theorem secondMisses_attempt (hpc : s.pc i = .loop sig tries e d done) :
    SecondMisses s (.attempt i spurious) t ↔
      ((s.word = sig.guess → spurious = true) → tries = 1) := by
  constructor
  · exact fun h => h sig tries e d done hpc
  · intro h sig' tries' e' d' done' hpc' hmiss
    obtain ⟨rfl, rfl, -⟩ := Pc.loop.inj (hpc.symm.trans hpc')
    exact h hmiss

theorem completesOnce_iff {a : Label ι} (h : AllRepeat s) (hstep : step s a = some t) :
    CompletesOnce s a t ↔ SecondMisses s a t := by
  rcases step_cases hstep with ⟨word, rfl, -⟩ | ⟨i, sig, rfl, -⟩ |
    ⟨i, spurious, sig, tries, e, d, done, rfl, hpc, rfl⟩
  · exact Iff.rfl
  · exact Iff.rfl
  · have hrepeats := h i
    rw [hpc] at hrepeats
    obtain ⟨rfl, rfl, rfl⟩ := hrepeats
    rw [completesOnce_attempt hpc, secondMisses_attempt hpc]
    rcases attemptStep_cases s i spurious sig tries sig.guess (sig.target sig.guess)
      (List.replicate tries (sig.guess, sig.target sig.guess)) with ⟨hword, hs, ht⟩ | ⟨hmiss, ht⟩
    · -- the attempt succeeds and the call goes on
      rw [ht]
      refine iff_of_true (fun last hlast => ?_) fun hmiss => ?_
      · simp only [Function.update_self] at hlast
        cases hlast
      · rw [hmiss hword] at hs
        cases hs
    · -- the call returns, with the record so far
      rw [ht, ← replicate_eq_singleton sig tries]
      constructor
      · exact fun hlast _ => hlast _ (Function.update_self ..)
      · intro hone last hlast
        simp only [Function.update_self] at hlast
        obtain rfl := Pc.returned.inj hlast
        exact hone hmiss

/-- Along a run every call that returns has changed the flags once, by the
pair that its body computes, if and only if the first attempt of every
call succeeds and the second one fails. -/
theorem completesOnce_along_iff (word : Flags) (as : List (Label ι)) :
    Along step CompletesOnce (initShared word : Shared ι) as ↔
      Along step SecondMisses (initShared word : Shared ι) as :=
  along_congr (I := AllRepeat) (fun _ _ _ hs ht => hs.step ht)
    (fun _ _ _ hs ht => completesOnce_iff hs ht) (allRepeat_init word) as

/-- `start` on the flags that the constructor stores returns after one
attempt and changes nothing. -/
theorem not_completesOnce_constructed :
    (∃ t : Shared Unit, run step (initShared ⟨false, true⟩)
        [.call () .start, .attempt () false] = some t ∧
        t.word = ⟨false, true⟩ ∧ t.pc () = .returned []) ∧
      ¬∀ (word : Flags) (as : List (Label Unit)),
        Along step CompletesOnce (initShared word : Shared Unit) as := by
  refine ⟨⟨_, rfl, rfl, rfl⟩, fun h => ?_⟩
  have hattempt :=
    (((h ⟨false, true⟩ [.call () .start, .attempt () false]) _ rfl).2 _ rfl).1
  obtain ⟨word, hword⟩ := hattempt .start 0 _ _ [] [] rfl rfl
  cases hword

end Signals

end JowiAsio.Executor

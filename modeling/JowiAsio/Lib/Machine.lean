import Mathlib.Data.List.Basic
import Mathlib.Order.Basic

/-!
Labelled machines and what holds along their runs.

A machine is a partial step function: at a state, a label names one
atomic step, and `none` says that this step is not possible there. A
schedule is a list of labels, so a run is determined by its schedule and
a concrete run can be evaluated. Everything that is nondeterministic in
the modelled program (which thread moves, whether a weak
compare-exchange fails spuriously) is in the label.

Three rules carry the developments that use this file:

* `run_invariant`, for what every reachable state satisfies;
* `along_congr` and `along_of_invariant`, for what every *step* of a run
  satisfies, which is how a condition on schedules is stated;
* `run_refines`, the forward simulation.
-/

namespace JowiAsio.Lib

variable {σ α τ β : Type*}

/-- The state a schedule leads to, when each of its steps is possible. -/
def run (step : σ → α → Option σ) : σ → List α → Option σ
  | s, [] => some s
  | s, a :: as => (step s a).bind fun t => run step t as

/-- `P` holds of every step the schedule takes from `s`. -/
def Along (step : σ → α → Option σ) (P : σ → α → σ → Prop) : σ → List α → Prop
  | _, [] => True
  | s, a :: as => ∀ t, step s a = some t → P s a t ∧ Along step P t as

/-- `P` holds of every state the schedule visits, the first one included. -/
def Visits (step : σ → α → Option σ) (P : σ → Prop) : σ → List α → Prop
  | s, [] => P s
  | s, a :: as => P s ∧ ∀ t, step s a = some t → Visits step P t as

variable {step : σ → α → Option σ}

@[simp] theorem run_nil (s : σ) : run step s [] = some s := rfl

@[simp] theorem run_cons (s : σ) (a : α) (as : List α) :
    run step s (a :: as) = (step s a).bind fun t => run step t as := rfl

theorem run_append (s : σ) (as bs : List α) :
    run step s (as ++ bs) = (run step s as).bind fun t => run step t bs := by
  induction as generalizing s with
  | nil => rfl
  | cons a as ih =>
      simp only [List.cons_append, run_cons, Option.bind_assoc]
      exact congrArg _ (funext fun t => ih t)

theorem run_trans {s t u : σ} {as bs : List α} (h : run step s as = some t)
    (h' : run step t bs = some u) : run step s (as ++ bs) = some u := by
  rw [run_append, h, Option.bind_some, h']

/-! ### Invariants -/

/-- What one step preserves under labels satisfying `L`, a run over such
labels preserves. -/
theorem run_invariant_of_labels {I : σ → Prop} {L : α → Prop}
    (hstep : ∀ s a t, L a → I s → step s a = some t → I t) {s t : σ} {as : List α}
    (hL : ∀ a ∈ as, L a) (hs : I s) (hrun : run step s as = some t) : I t := by
  induction as generalizing s with
  | nil =>
      simp only [run_nil, Option.some.injEq] at hrun
      exact hrun ▸ hs
  | cons a as ih =>
      rw [run_cons, Option.bind_eq_some_iff] at hrun
      obtain ⟨u, hu, hrest⟩ := hrun
      exact ih (fun b hb => hL b (List.mem_cons_of_mem _ hb))
        (hstep s a u (hL a List.mem_cons_self) hs hu) hrest

/-- What one step preserves, a run preserves. -/
theorem run_invariant {I : σ → Prop} (hstep : ∀ s a t, I s → step s a = some t → I t)
    {s t : σ} {as : List α} (hs : I s) (hrun : run step s as = some t) : I t :=
  run_invariant_of_labels (L := fun _ => True) (fun s a t _ => hstep s a t)
    (fun _ _ => trivial) hs hrun

/-- The same for a property of a state and of the schedule that led to it. -/
theorem run_schedule_invariant {I : σ → List α → Prop}
    (hstep : ∀ s a t as, I s as → step s a = some t → I t (as ++ [a])) {s t : σ}
    {as p : List α} (hs : I s p) (hrun : run step s as = some t) : I t (p ++ as) := by
  induction as generalizing s p with
  | nil =>
      simp only [run_nil, Option.some.injEq] at hrun
      rw [List.append_nil]
      exact hrun ▸ hs
  | cons a as ih =>
      rw [run_cons, Option.bind_eq_some_iff] at hrun
      obtain ⟨u, hu, hrest⟩ := hrun
      rw [List.append_cons]
      exact ih (hstep s a u p hs hu) hrest

/-! ### Conditions on every step of a run -/

@[simp] theorem along_nil (P : σ → α → σ → Prop) (s : σ) : Along step P s [] := trivial

theorem along_cons {P : σ → α → σ → Prop} {s t : σ} {a : α} {as : List α}
    (h : step s a = some t) : Along step P s (a :: as) ↔ P s a t ∧ Along step P t as := by
  constructor
  · exact fun hp => hp t h
  · intro hp u hu
    rw [h, Option.some.injEq] at hu
    exact hu ▸ hp

/-- A condition that can be checked at every step can be checked along a
run. -/
instance alongDecidable {P : σ → α → σ → Prop} [∀ s a t, Decidable (P s a t)] :
    (s : σ) → (as : List α) → Decidable (Along step P s as)
  | _, [] => isTrue trivial
  | s, a :: as =>
      match h : step s a with
      | none => isTrue fun t ht => absurd (h.symm.trans ht) (by simp)
      | some t =>
          have : Decidable (Along step P t as) := alongDecidable t as
          decidable_of_iff (P s a t ∧ Along step P t as) (along_cons h).symm

/-- A condition on the labels alone. -/
theorem along_of_labels {L : α → Prop} {as : List α} (hL : ∀ a ∈ as, L a) (s : σ) :
    Along step (fun _ a _ => L a) s as := by
  induction as generalizing s with
  | nil => trivial
  | cons a as ih =>
      exact fun t _ =>
        ⟨hL a List.mem_cons_self, ih (fun b hb => hL b (List.mem_cons_of_mem _ hb)) t⟩

theorem labels_of_along {L : α → Prop} {s t : σ} {as : List α} (hrun : run step s as = some t)
    (h : Along step (fun _ a _ => L a) s as) : ∀ a ∈ as, L a := by
  induction as generalizing s with
  | nil => simp
  | cons a as ih =>
      rw [run_cons, Option.bind_eq_some_iff] at hrun
      obtain ⟨u, hu, hrest⟩ := hrun
      obtain ⟨ha, h⟩ := h u hu
      rintro b (_ | ⟨_, hb⟩)
      · exact ha
      · exact ih hrest h b hb

theorem Along.last {P : σ → α → σ → Prop} {s t u : σ} {as : List α} {a : α}
    (h : Along step P s (as ++ [a])) (hrun : run step s as = some t)
    (hstep : step t a = some u) : P t a u := by
  induction as generalizing s with
  | nil =>
      simp only [run_nil, Option.some.injEq] at hrun
      subst hrun
      exact (h u hstep).1
  | cons b as ih =>
      rw [run_cons, Option.bind_eq_some_iff] at hrun
      obtain ⟨v, hv, hrest⟩ := hrun
      exact ih (h v hv).2 hrest

theorem Along.first {P : σ → α → σ → Prop} {s : σ} {as bs : List α}
    (h : Along step P s (as ++ bs)) : Along step P s as := by
  induction as generalizing s with
  | nil => trivial
  | cons a as ih => exact fun t ht => ⟨(h t ht).1, ih (h t ht).2⟩

/-- What holds along a run holds along the rest of it. -/
theorem Along.rest {P : σ → α → σ → Prop} {s t : σ} {as bs : List α}
    (h : Along step P s (as ++ bs)) (hrun : run step s as = some t) : Along step P t bs := by
  induction as generalizing s with
  | nil =>
      simp only [run_nil, Option.some.injEq] at hrun
      exact hrun ▸ h
  | cons a as ih =>
      rw [run_cons, Option.bind_eq_some_iff] at hrun
      obtain ⟨u, hu, hrest⟩ := hrun
      exact ih (h u hu).2 hrest

theorem Along.append {P : σ → α → σ → Prop} {s t : σ} {as bs : List α} (h : Along step P s as)
    (hrun : run step s as = some t) (hbs : Along step P t bs) : Along step P s (as ++ bs) := by
  induction as generalizing s with
  | nil =>
      simp only [run_nil, Option.some.injEq] at hrun
      exact hrun ▸ hbs
  | cons a as ih =>
      rw [run_cons, Option.bind_eq_some_iff] at hrun
      obtain ⟨u, hu, hrest⟩ := hrun
      obtain ⟨ha, h⟩ := h u hu
      exact (along_cons hu).2 ⟨ha, ih h hrest⟩

/-- Two conditions that agree on the steps taken from states satisfying
an invariant agree along every run that starts in it. -/
theorem along_congr {I : σ → Prop} {P Q : σ → α → σ → Prop}
    (hstep : ∀ s a t, I s → step s a = some t → I t)
    (hPQ : ∀ s a t, I s → step s a = some t → (P s a t ↔ Q s a t))
    {s : σ} (hs : I s) (as : List α) : Along step P s as ↔ Along step Q s as := by
  induction as generalizing s with
  | nil => exact Iff.rfl
  | cons a as ih =>
      constructor
      · intro h t ht
        exact ⟨(hPQ s a t hs ht).1 (h t ht).1, (ih (hstep s a t hs ht)).1 (h t ht).2⟩
      · intro h t ht
        exact ⟨(hPQ s a t hs ht).2 (h t ht).1, (ih (hstep s a t hs ht)).2 (h t ht).2⟩

/-- What every step from an invariant satisfies holds along every run. -/
theorem along_of_invariant {I : σ → Prop} {P : σ → α → σ → Prop}
    (hstep : ∀ s a t, I s → step s a = some t → I t)
    (hP : ∀ s a t, I s → step s a = some t → P s a t) {s : σ} (hs : I s) (as : List α) :
    Along step P s as := by
  induction as generalizing s with
  | nil => trivial
  | cons a as ih => exact fun t ht => ⟨hP s a t hs ht, ih (hstep s a t hs ht)⟩

/-- An invariant that a step preserves only under a condition `C` holds
of the last state of every run whose steps all meet `C`. -/
theorem run_invariant_of_along {I : σ → Prop} {C : σ → α → σ → Prop}
    (hstep : ∀ s a t, I s → step s a = some t → C s a t → I t) {s t : σ} {as : List α}
    (hC : Along step C s as) (hs : I s) (hrun : run step s as = some t) : I t := by
  induction as generalizing s with
  | nil =>
      simp only [run_nil, Option.some.injEq] at hrun
      exact hrun ▸ hs
  | cons a as ih =>
      rw [run_cons, Option.bind_eq_some_iff] at hrun
      obtain ⟨u, hu, hrest⟩ := hrun
      obtain ⟨hc, hC⟩ := hC u hu
      exact ih hC (hstep s a u hs hu hc) hrest

theorem visits_of_along {I P : σ → Prop} {C : σ → α → σ → Prop}
    (hstep : ∀ s a t, I s → step s a = some t → C s a t → I t) (hP : ∀ s, I s → P s)
    {s : σ} {as : List α} (hC : Along step C s as) (hs : I s) : Visits step P s as := by
  induction as generalizing s with
  | nil => exact hP s hs
  | cons a as ih =>
      refine ⟨hP s hs, fun t ht => ?_⟩
      obtain ⟨hc, hC⟩ := hC t ht
      exact ih hC (hstep s a t hs ht hc)

/-- What every state satisfying an invariant satisfies holds of every state
that a run visits. -/
theorem visits_of_invariant {I P : σ → Prop}
    (hstep : ∀ s a t, I s → step s a = some t → I t) (hP : ∀ s, I s → P s) {s : σ} (hs : I s)
    (as : List α) : Visits step P s as := by
  induction as generalizing s with
  | nil => exact hP s hs
  | cons a as ih => exact ⟨hP s hs, fun t ht => ih (hstep s a t hs ht)⟩

/-- The same for what every step of the run satisfies. -/
theorem along_of_along {I : σ → Prop} {P C : σ → α → σ → Prop}
    (hstep : ∀ s a t, I s → step s a = some t → C s a t → I t)
    (hP : ∀ s a t, I s → step s a = some t → C s a t → P s a t)
    {s : σ} {as : List α} (hC : Along step C s as) (hs : I s) : Along step P s as := by
  induction as generalizing s with
  | nil => trivial
  | cons a as ih =>
      intro t ht
      obtain ⟨hc, hC⟩ := hC t ht
      exact ⟨hP s a t hs ht hc, ih hC (hstep s a t hs ht hc)⟩

/-- Where a property of steps means the same as a condition that keeps an
invariant, it holds along a run if and only if the condition does. -/
theorem along_iff {I : σ → Prop} {P C : σ → α → σ → Prop}
    (hstep : ∀ s a t, I s → step s a = some t → C s a t → I t)
    (hPC : ∀ s a t, I s → step s a = some t → (P s a t ↔ C s a t)) {s : σ} (hs : I s)
    (as : List α) : Along step P s as ↔ Along step C s as := by
  constructor
  · exact fun h => along_of_along (fun s a t hs ht hp => hstep s a t hs ht ((hPC s a t hs ht).1 hp))
      (fun s a t hs ht => (hPC s a t hs ht).1) h hs
  · exact fun h => along_of_along hstep (fun s a t hs ht => (hPC s a t hs ht).2) h hs

theorem along_and {P Q : σ → α → σ → Prop} {s : σ} {as : List α} :
    Along step (fun s a t => P s a t ∧ Q s a t) s as ↔ Along step P s as ∧ Along step Q s as := by
  induction as generalizing s with
  | nil => exact ⟨fun _ => ⟨trivial, trivial⟩, fun _ => trivial⟩
  | cons a as ih =>
      constructor
      · exact fun h => ⟨fun t ht => ⟨(h t ht).1.1, (ih.1 (h t ht).2).1⟩,
          fun t ht => ⟨(h t ht).1.2, (ih.1 (h t ht).2).2⟩⟩
      · exact fun h t ht => ⟨⟨(h.1 t ht).1, (h.2 t ht).1⟩, ih.2 ⟨(h.1 t ht).2, (h.2 t ht).2⟩⟩

/-- The states a run visits are the first one and those its steps lead
to. -/
theorem visits_iff_along {P : σ → Prop} {s : σ} {as : List α} :
    Visits step P s as ↔ P s ∧ Along step (fun _ _ t => P t) s as := by
  induction as generalizing s with
  | nil => exact ⟨fun h => ⟨h, trivial⟩, fun h => h.1⟩
  | cons a as ih =>
      constructor
      · exact fun h => ⟨h.1, fun t ht => ih.1 (h.2 t ht)⟩
      · exact fun h => ⟨h.1, fun t ht => ih.2 (h.2 t ht)⟩

theorem Visits.head {P : σ → Prop} {s : σ} {as : List α} (h : Visits step P s as) : P s := by
  cases as with
  | nil => exact h
  | cons a as => exact h.1

theorem Visits.last {P : σ → Prop} {s t : σ} {as : List α} (h : Visits step P s as)
    (hrun : run step s as = some t) : P t := by
  induction as generalizing s with
  | nil =>
      simp only [run_nil, Option.some.injEq] at hrun
      exact hrun ▸ h
  | cons a as ih =>
      rw [run_cons, Option.bind_eq_some_iff] at hrun
      obtain ⟨u, hu, hrest⟩ := hrun
      exact ih (h.2 u hu) hrest

/-- With one label no run is longer than one that has come to an end. -/
theorem length_le_of_end {step : σ → Unit → Option σ} {s t u : σ} {as bs : List Unit}
    (hend : run step s bs = some u) (hstop : step u () = none) (hrun : run step s as = some t) :
    as.length ≤ bs.length := by
  induction bs generalizing s as with
  | nil =>
      obtain rfl : s = u := by simpa using hend
      cases as with
      | nil => exact Nat.le_refl _
      | cons a as => simp [hstop] at hrun
  | cons b bs ih =>
      cases as with
      | nil => exact Nat.zero_le _
      | cons a as =>
          rw [run_cons, Option.bind_eq_some_iff] at hend hrun
          obtain ⟨v, hv, hend⟩ := hend
          obtain ⟨v', hv', hrun⟩ := hrun
          obtain rfl : v = v' := Option.some.inj (hv.symm.trans hv')
          exact Nat.succ_le_succ (ih hend hrun)

/-! ### Forward simulation -/

/-- The abstract schedule a concrete one is matched with. -/
def liftRun (step : σ → α → Option σ) (lift : σ → α → List β) : σ → List α → List β
  | _, [] => []
  | s, a :: as => lift s a ++ ((step s a).map fun t => liftRun step lift t as).getD []

theorem mem_liftRun {lift : σ → α → List β} {s : σ} {as : List α} {b : β}
    (h : b ∈ liftRun step lift s as) : ∃ t a, b ∈ lift t a := by
  induction as generalizing s with
  | nil => simp [liftRun] at h
  | cons a as ih =>
      rw [liftRun, List.mem_append] at h
      rcases h with h | h
      · exact ⟨s, a, h⟩
      · cases ht : step s a with
        | none => simp [ht] at h
        | some t => exact ih (by simpa [ht] using h)

/-- What a run emits, one step after the other, is a log: an invariant of
the state and of the log so far, which the steps that meet `C` preserve,
holds of the last state and the whole log. -/
theorem run_log_invariant_of_along {I : σ → List β → Prop} {C : σ → α → σ → Prop}
    {lift : σ → α → List β}
    (hstep : ∀ s a t log, I s log → step s a = some t → C s a t → I t (log ++ lift s a))
    {s t : σ} {as : List α} {log : List β} (hC : Along step C s as) (hs : I s log)
    (hrun : run step s as = some t) : I t (log ++ liftRun step lift s as) := by
  induction as generalizing s log with
  | nil =>
      simp only [run_nil, Option.some.injEq] at hrun
      rw [liftRun, List.append_nil]
      exact hrun ▸ hs
  | cons a as ih =>
      rw [run_cons, Option.bind_eq_some_iff] at hrun
      obtain ⟨u, hu, hrest⟩ := hrun
      obtain ⟨hc, hC⟩ := hC u hu
      rw [liftRun, hu, Option.map_some, Option.getD_some, ← List.append_assoc]
      exact ih hC (hstep s a u log hs hu hc) hrest

theorem run_log_invariant {I : σ → List β → Prop} {lift : σ → α → List β}
    (hstep : ∀ s a t log, I s log → step s a = some t → I t (log ++ lift s a)) {s t : σ}
    {as : List α} {log : List β} (hs : I s log) (hrun : run step s as = some t) :
    I t (log ++ liftRun step lift s as) :=
  run_log_invariant_of_along (fun s a t log hs ht _ => hstep s a t log hs ht)
    (along_of_labels (L := fun _ => True) (fun _ _ => trivial) s) hs hrun

/-- If every concrete step from an invariant state that meets `C` is
matched by the abstract steps `lift` picks, a whole run of such steps is
matched by their concatenation. -/
theorem run_refines {I : σ → Prop} {C : σ → α → σ → Prop} {astep : τ → β → Option τ} {abs : σ → τ}
    {lift : σ → α → List β} (hstep : ∀ s a t, I s → step s a = some t → C s a t → I t)
    (hsim : ∀ s a t, I s → step s a = some t → C s a t →
      run astep (abs s) (lift s a) = some (abs t))
    {s t : σ} {as : List α} (hC : Along step C s as) (hs : I s)
    (hrun : run step s as = some t) :
    run astep (abs s) (liftRun step lift s as) = some (abs t) := by
  induction as generalizing s with
  | nil =>
      simp only [run_nil, Option.some.injEq] at hrun
      exact hrun ▸ rfl
  | cons a as ih =>
      rw [run_cons, Option.bind_eq_some_iff] at hrun
      obtain ⟨u, hu, hrest⟩ := hrun
      obtain ⟨hc, hC⟩ := hC u hu
      rw [liftRun, hu, Option.map_some, Option.getD_some]
      exact run_trans (hsim s a u hs hu hc) (ih hC (hstep s a u hs hu hc) hrest)

end JowiAsio.Lib

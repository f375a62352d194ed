import Mathlib.Data.List.Basic

/-!
Logs that a nondeterministic automaton accepts.

`next` says to which states an event may lead. `Trace next init log t`
says that the log, read from its beginning, may lead from `init` to `t`.
The log grows at its end, as the log of a run does.
-/

namespace JowiAsio.Lib

variable {τ β : Type*}

inductive Trace (next : τ → β → τ → Prop) (init : τ) : List β → τ → Prop
  | nil : Trace next init [] init
  | snoc {log : List β} {t u : τ} {ev : β} (h : Trace next init log t) (hev : next t ev u) :
      Trace next init (log ++ [ev]) u

variable {next : τ → β → τ → Prop} {init t u : τ} {log evs : List β} {ev : β}

theorem trace_nil : Trace next init [] t ↔ t = init := by
  constructor
  · generalize hlog : ([] : List β) = log
    intro h
    cases h with
    | nil => rfl
    | snoc => simp at hlog
  · rintro rfl
    exact .nil

theorem trace_snoc :
    Trace next init (log ++ [ev]) u ↔ ∃ t, Trace next init log t ∧ next t ev u := by
  constructor
  · generalize hlog : log ++ [ev] = log'
    intro h
    cases h with
    | nil => simp at hlog
    | snoc h hev =>
        obtain ⟨rfl, hlast⟩ := List.append_inj' hlog rfl
        obtain rfl := List.singleton_inj.1 hlast
        exact ⟨_, h, hev⟩
  · rintro ⟨t, h, hev⟩
    exact h.snoc hev

/-- Events that change nothing. -/
theorem Trace.stutter (h : Trace next init log t) (hevs : ∀ ev ∈ evs, next t ev t) :
    Trace next init (log ++ evs) t := by
  induction evs generalizing log with
  | nil => rwa [List.append_nil]
  | cons ev evs ih =>
      rw [List.append_cons]
      exact ih (h.snoc (hevs ev List.mem_cons_self)) fun ev' hev =>
        hevs ev' (List.mem_cons_of_mem _ hev)

/-- The state that a log leads to is unique when each event leads to one
state only. -/
theorem Trace.unique (h : Trace next init log t) (h' : Trace next init log u)
    (hnext : ∀ t ev u v, next t ev u → next t ev v → u = v) : t = u := by
  induction h generalizing u with
  | nil => exact (trace_nil.1 h').symm
  | snoc _ hev ih =>
      obtain ⟨v, hv, hev'⟩ := trace_snoc.1 h'
      obtain rfl := ih hv
      exact hnext _ _ _ _ hev hev'

end JowiAsio.Lib

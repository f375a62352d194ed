import JowiAsio.Lib.Machine

/-!
Linearization points.

A machine runs calls of several threads. Each call takes effect at one
step of its own, its point, where what it will return is fixed, and it
returns at that step or later. The points of a run, in their order, are a
run of the calls one after the other; they linearize it when a sequential
object could have answered so, and when each thread is answered what its
points say, but for the call whose point has passed and that has not
returned yet (`pending`). As this holds of every prefix of a run, the
point of a call lies between its beginning and its return.

`run_linearizes` is the rule: one step at a time, with the state of the
sequential object as the abstract state.
-/

namespace JowiAsio.Lib

variable {σ α τ ι ε : Type*} [DecidableEq ι]

/-- The entries of the thread `t` in a log. -/
def byThread (t : ι) (log : List (ι × ε)) : List ε :=
  log.filterMap fun p => if p.1 = t then some p.2 else none

@[simp] theorem byThread_nil (t : ι) : byThread t ([] : List (ι × ε)) = [] := rfl

@[simp] theorem byThread_append (t : ι) (log log' : List (ι × ε)) :
    byThread t (log ++ log') = byThread t log ++ byThread t log' := List.filterMap_append

theorem byThread_map (t u : ι) (es : List ε) :
    byThread u (es.map (Prod.mk t)) = if t = u then es else [] := by
  split_ifs with h <;> simp [byThread, h, List.filterMap_map]

/-- A step of the thread `t` that takes effect as `pts` and returns `rets`:
only what it has pending changes. -/
theorem answers_of_thread {pending pending' : ι → List ε} {pts rets : List ε} {t : ι}
    (hself : pending t ++ pts = rets ++ pending' t)
    (hother : ∀ u, u ≠ t → pending' u = pending u) (u : ι) :
    pending u ++ byThread u (pts.map (Prod.mk t)) =
      byThread u (rets.map (Prod.mk t)) ++ pending' u := by
  rw [byThread_map, byThread_map]
  split_ifs with htu
  · subst htu
    exact hself
  · rw [hother u (Ne.symm htu), List.append_nil, List.nil_append]

/-- The points `points` of the run from `s` linearize its returns
`returns`: the sequential object `spec` goes from `q` to `q'`, and the
threads are answered what their points say. -/
structure Linearizes (spec : τ → ε → Option τ) (q q' : τ) (points returns : List (ι × ε))
    (pending : ι → List ε) : Prop where
  legal : (points.map Prod.snd).foldlM spec q = some q'
  answers : ∀ t, byThread t points = byThread t returns ++ pending t

variable {step : σ → α → Option σ} {I : σ → τ → Prop} {C : σ → α → σ → Prop}
  {spec : τ → ε → Option τ} {points returns : σ → α → List (ι × ε)} {pending : σ → ι → List ε}

theorem run_linearizes
    (hstep : ∀ s a s' q, I s q → step s a = some s' → C s a s' →
      ∃ q', I s' q' ∧ ((points s a).map Prod.snd).foldlM spec q = some q' ∧
        ∀ t, pending s t ++ byThread t (points s a) = byThread t (returns s a) ++ pending s' t)
    {s s' : σ} {q : τ} {as : List α} (hC : Along step C s as) (hs : I s q)
    (hnone : ∀ t, pending s t = []) (hrun : run step s as = some s') :
    ∃ q', I s' q' ∧ Linearizes spec q q' (liftRun step points s as) (liftRun step returns s as)
      (pending s') := by
  suffices h : ∀ s q, Along step C s as → I s q → run step s as = some s' →
      ∃ q', I s' q' ∧ ((liftRun step points s as).map Prod.snd).foldlM spec q = some q' ∧
        ∀ t, pending s t ++ byThread t (liftRun step points s as) =
          byThread t (liftRun step returns s as) ++ pending s' t by
    obtain ⟨q', hq', hlegal, hanswers⟩ := h s q hC hs hrun
    exact ⟨q', hq', hlegal, fun t => by rw [← hanswers t, hnone t, List.nil_append]⟩
  clear hC hs hnone hrun s q
  induction as with
  | nil =>
      intro s q _ hs hrun
      simp only [run_nil, Option.some.injEq] at hrun
      subst hrun
      exact ⟨q, hs, rfl, fun t => by simp [liftRun]⟩
  | cons a as ih =>
      intro s q hC hs hrun
      rw [run_cons, Option.bind_eq_some_iff] at hrun
      obtain ⟨u, hu, hrest⟩ := hrun
      obtain ⟨hc, hC⟩ := hC u hu
      obtain ⟨q₁, hq₁, hlegal₁, hanswers₁⟩ := hstep s a u q hs hu hc
      obtain ⟨q₂, hq₂, hlegal₂, hanswers₂⟩ := ih u q₁ hC hq₁ hrest
      have hlift : ∀ f : σ → α → List (ι × ε),
          liftRun step f s (a :: as) = f s a ++ liftRun step f u as := fun f => by
        rw [liftRun, hu, Option.map_some, Option.getD_some]
      refine ⟨q₂, hq₂, ?_, fun t => ?_⟩
      · rw [hlift, List.map_append, List.foldlM_append, hlegal₁]
        exact hlegal₂
      · rw [hlift, hlift, byThread_append, byThread_append, ← List.append_assoc, hanswers₁ t,
          List.append_assoc, hanswers₂ t, List.append_assoc]

end JowiAsio.Lib

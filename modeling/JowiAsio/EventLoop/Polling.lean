import JowiAsio.EventLoop.PollLog

/-!
Every poll await goes on once, with the first answer of its poll.

The invariant `Accounted` ties the log of a run to its state: the phase
that the log of a coroutine is in is the one that the coroutine is in, and
the same for the life of a coroutine of `__rec_wait`. That a suspended
coroutine has one coroutine that polls for it follows from the log, which
says which one that is. The coroutines of `__rec_wait` are those that the
loop owns, so none is left when the loop owns nothing.
-/

namespace JowiAsio.EventLoop

open Lib

variable {π V ε σ : Type}

/-! ### The log and the state -/

/-- A coroutine of `__rec_wait` that has not been destroyed. -/
def Coro.OfRecWait : Coro π V ε σ → Prop
  | .recWait _ | .recRunning | .recFinished => True
  | _ => False

/-- The states of a coroutine of `__rec_wait` in its life. -/
def Coro.Fits (x : Coro π V ε σ) : Life → Prop
  | .unborn => ¬ x.OfRecWait
  | .created => ∃ h, x = .recWait h
  | .resumed => x = .recRunning ∨ x = .recFinished
  | .destroyed => x = .destroyed

/-- The coroutine `r` will poll next for `c`. -/
def State.Serves (s : State π V ε σ) (r c : ℕ) : Prop :=
  s.coros r = .recWait c ∨ .recWait r c ∈ s.stack

/-- The log of the awaits of `c` is in the phase that `c` is in. A
coroutine that no one polls for any more has been lost to a poll that
threw. -/
structure AwaitsAt (s : State π V ε σ) (log : List (Event V ε)) (c : ℕ) : Prop where
  served : ∀ r, s.Serves r c → Awaits c log (.waiting r)
  idle : (∀ p next, s.coros c ≠ .waiting p next) → Awaits c log .idle
  waits : ∀ p next, s.coros c = .waiting p next →
    (∃ r, s.Serves r c) ∨ LostToPoll c log

structure Accounted (s : State π V ε σ) (log : List (Event V ε)) : Prop where
  kept : Kept s
  under : s.stack.Pairwise Under
  owned : ∀ c, c ∈ s.loopOwns ↔ (s.coros c).OfRecWait
  awaits : ∀ c, AwaitsAt s log c
  lives : ∀ r, ∃ l, Lives r log l ∧ (s.coros r).Fits l

section

variable {poll : π → σ → Poll π V ε × σ} {s s' : State π V ε σ} {log evs : List (Event V ε)}
  {c d r : ℕ} {x : Coro π V ε σ}

/-! #### What the loop owns -/

theorem loopOwns_step (hs : Trans poll s s') (hout : s'.outcome = .running)
    (hc : c ∉ s.runOneDestroys) :
    c ∈ s'.loopOwns ↔ c ∈ s.loopOwns ∨ c ∈ (s.pushes s').flatMap Entry.owns := by
  have hcount := count_step (c := c) hs hout
  rw [List.count_eq_zero.2 hc] at hcount
  simp only [← List.count_pos_iff]
  omega

theorem ofRecWait_update {coros : ℕ → Coro π V ε σ} (hx : x.OfRecWait ↔ (coros d).OfRecWait) :
    (Function.update coros d x c).OfRecWait ↔ (coros c).OfRecWait := by
  rcases eq_or_ne c d with rfl | hne
  · rwa [Function.update_self]
  · rw [Function.update_of_ne hne]

theorem ofRecWait_new {coros : ℕ → Coro π V ε σ} (hd : ¬ (coros d).OfRecWait) :
    (Function.update coros d x c).OfRecWait ↔ (coros c).OfRecWait ∨ c = d ∧ x.OfRecWait := by
  rcases eq_or_ne c d with rfl | hne
  · simp [hd]
  · simp [hne]

theorem or_mem_pushes {P : Prop} (h : s'.created = s.created) :
    P ↔ P ∨ c ∈ (s.pushes s').flatMap Entry.owns := by
  simp [pushes_same h]

theorem mem_pushes_new {o : Bool} {rest : Stack π V ε σ} (h : s'.created = s.created + 1)
    (hstack : s'.stack = .push ⟨s.created, o⟩ :: rest) :
    c ∈ (s.pushes s').flatMap Entry.owns ↔ c = s.created ∧ o = true := by
  cases o <;> simp [State.pushes, h, hstack, Entry.owns]

/-- The coroutines of `__rec_wait` are those that are pushed as owning,
until they are destroyed. -/
theorem Kept.ofRecWait_step (h : Kept s) (hs : Trans poll s s') (hout : s'.outcome = .running)
    (hc : c ∉ s.runOneDestroys) :
    (s'.coros c).OfRecWait ↔
      (s.coros c).OfRecWait ∨ c ∈ (s.pushes s').flatMap Entry.owns := by
  have habsent : ¬ (s.coros s.created).OfRecWait := by
    simp [h.fresh _ (Nat.le_refl _), Coro.OfRecWait]
  cases hs with
  | runBad | returned | awaitEmpty | terminated | recBad => cases hout
  | enqueue | spin | leave | act | pollReady | pollThrew | recThrew =>
      exact or_mem_pushes rfl
  | @leaveOwned rest d ht =>
      have hne : c ≠ d := by simpa [State.runOneDestroys, ht, Entry.owns] using hc
      refine Iff.trans ?_ (or_mem_pushes (by rfl))
      rw [State.setCoro_coros, Function.update_of_ne hne]
      rfl
  | runTask _ _ _ hold | runRec _ _ _ hold | resumed _ hold | recReady _ hold =>
      refine Iff.trans ?_ (or_mem_pushes (by rfl))
      exact ofRecWait_update (by simp [hold, Coro.OfRecWait])
  | finish ht =>
      refine Iff.trans ?_ (or_mem_pushes (by rfl))
      exact ofRecWait_update (by simp [h.running ht, Coro.OfRecWait])
  | recReturn ht =>
      refine Iff.trans ?_ (or_mem_pushes (by rfl))
      exact ofRecWait_update (by simp [h.recRunning ht, Coro.OfRecWait])
  | @pollLater rest d p p' next w ht =>
      have hold := h.running ht
      have hsame : ∀ c, (Function.update s.coros d (.waiting p' next) c).OfRecWait ↔
          (s.coros c).OfRecWait := fun c => ofRecWait_update (by simp [hold, Coro.OfRecWait])
      rw [mem_pushes_new rfl rfl, ← hsame c]
      exact (ofRecWait_new (mt (hsame _).1 habsent)).trans (by simp [Coro.OfRecWait])
  | @recLater rest r d p p' next w ht hold =>
      have hsame : ∀ c, (Function.update s.coros d (.waiting p' next) c).OfRecWait ↔
          (s.coros c).OfRecWait := fun c => ofRecWait_update (by simp [hold, Coro.OfRecWait])
      rw [mem_pushes_new rfl rfl, ← hsame c]
      exact (ofRecWait_new (mt (hsame _).1 habsent)).trans (by simp [Coro.OfRecWait])
  | await ht =>
      rw [mem_pushes_new rfl rfl]
      exact (ofRecWait_new habsent).trans (by simp [Coro.OfRecWait])

theorem Accounted.owned_step (h : Accounted s log) (hs : Trans poll s s')
    (hout : s'.outcome = .running) (hkept : Kept s') (c : ℕ) :
    c ∈ s'.loopOwns ↔ (s'.coros c).OfRecWait := by
  by_cases hc : c ∈ s.runOneDestroys
  · obtain ⟨rest, ht⟩ := mem_runOneDestroys hc
    have hgone : s'.coros c = .destroyed := by simp [leaveOwned_step ht hs]
    rw [hgone]
    exact iff_of_false (fun hmem => hkept.loopOwns_ne_destroyed hmem hgone) id
  · rw [loopOwns_step hs hout hc, h.kept.ofRecWait_step hs hout hc, h.owned c]

theorem Accounted.suspendsUnowned (h : Accounted s log) : SuspendsUnowned poll s := by
  intro c p next rest p' w ht hp hmem
  have hrunning := h.kept.running ht
  have howned : c ∈ s.loopOwns := by
    refine List.mem_flatMap.2 ⟨.runOne ⟨c, true⟩, ?_, Entry.mem_owns.2 rfl⟩
    simp [State.holders, ht, hmem]
  have hrec := (h.owned c).1 howned
  simp [hrunning, Coro.OfRecWait] at hrec

/-! #### The awaits and the lives -/

/-- A coroutine that a step has nothing to do with. -/
theorem AwaitsAt.same (h : AwaitsAt s log c) (hserves : ∀ r, s'.Serves r c ↔ s.Serves r c)
    (hcoro : ∀ p next, s'.coros c = .waiting p next ↔ s.coros c = .waiting p next)
    (hevs : ∀ ev ∈ evs, ¬ ev.About c) : AwaitsAt s' (log ++ evs) c := by
  refine ⟨fun r hr => ?_, fun hidle => ?_, fun p next hw => ?_⟩
  · exact Awaits.others (h.served r ((hserves r).1 hr)) hevs
  · exact Awaits.others (h.idle fun p next hw => hidle p next ((hcoro p next).2 hw)) hevs
  · rcases h.waits p next ((hcoro p next).1 hw) with ⟨r, hr⟩ | hlost
    · exact .inl ⟨r, (hserves r).2 hr⟩
    · exact .inr (hlost.others hevs)

/-- The coroutine is neither suspended in `LoopAwaitable` nor about to
poll for one that is. -/
def Coro.Plain : Coro π V ε σ → Prop
  | .waiting _ _ | .recWait _ => False
  | _ => True

/-- Only the coroutine `d` changes its state, and no one's await does. -/
theorem AwaitsAt.update (h : AwaitsAt s log c) (hcoros : s'.coros = Function.update s.coros d x)
    (hd : (s.coros d).Plain) (hx : x.Plain)
    (hstack : ∀ r, .recWait r c ∈ s'.stack ↔ .recWait r c ∈ s.stack)
    (hevs : ∀ ev ∈ evs, ¬ ev.About c) : AwaitsAt s' (log ++ evs) c := by
  have hsame : ∀ {r y}, ¬ y.Plain → (s'.coros r = y ↔ s.coros r = y) := by
    intro r y hy
    rw [hcoros]
    rcases eq_or_ne r d with rfl | hne
    · rw [Function.update_self]
      exact iff_of_false (fun he => hy (he ▸ hx)) fun he => hy (he ▸ hd)
    · rw [Function.update_of_ne hne]
  refine h.same (fun r => ?_) (fun p next => hsame id) hevs
  rw [State.Serves, State.Serves, hstack r, hsame id]

theorem lives_same (h : ∃ l, Lives r log l ∧ (s.coros r).Fits l)
    (hfits : ∀ l, (s.coros r).Fits l → (s'.coros r).Fits l) (hevs : ∀ ev ∈ evs, ¬ ev.Of r) :
    ∃ l, Lives r (log ++ evs) l ∧ (s'.coros r).Fits l := by
  obtain ⟨l, hl, hfit⟩ := h
  exact ⟨l, Lives.others hl hevs, hfits l hfit⟩

/-- A coroutine that is not suspended has no one polling for it. -/
theorem AwaitsAt.not_serves (h : AwaitsAt s log c) (hc : ∀ p next, s.coros c ≠ .waiting p next) :
    ¬ s.Serves r c := by
  intro hr
  cases Awaits.unique (h.served r hr) (h.idle hc)

/-- Two frames that poll for one coroutine are the same. -/
theorem AwaitsAt.serves_unique {q : ℕ} (h : AwaitsAt s log c) (hr : s.Serves r c)
    (hq : s.Serves q c) : q = r := by
  cases Awaits.unique (h.served q hq) (h.served r hr)
  rfl

/-- The coroutine on top of the stack polls, and the poll is answered. -/
theorem Accounted.answered (h : Accounted s log) {v : Except ε V} (hd : s.coros d = .running)
    (hcoros : s'.coros = s.coros) (hstack : ∀ r, .recWait r c ∈ s'.stack ↔ .recWait r c ∈ s.stack) :
    AwaitsAt s' (log ++ [.polled d none (some v), .goesOn d v]) c := by
  have hserves : ∀ r, s'.Serves r c ↔ s.Serves r c := by
    intro r
    rw [State.Serves, State.Serves, hstack r, hcoros]
  rcases eq_or_ne c d with rfl | hne
  · have hidle : ∀ p next, s.coros c ≠ .waiting p next := by simp [hd]
    refine ⟨fun r hr => ?_, fun _ => ?_, fun p next hw => ?_⟩
    · exact absurd ((hserves r).1 hr) ((h.awaits c).not_serves hidle)
    · rw [List.append_cons]
      exact (((h.awaits c).idle hidle).snoc .answered).snoc .goesOn
    · rw [hcoros] at hw
      exact absurd hw (hidle p next)
  · exact (h.awaits c).same hserves (fun p next => by rw [hcoros]) (by simp [Event.About, hne.symm])

/-- The poll is in vain, and a coroutine is created that polls next. -/
theorem Accounted.suspended (h : Accounted s log) {p : π} {next : Cont π V ε σ}
    (hd : s.coros d = .running)
    (hcoros : s'.coros =
      Function.update (Function.update s.coros d (.waiting p next)) s.created (.recWait d))
    (hstack : ∀ r, .recWait r c ∈ s'.stack ↔ .recWait r c ∈ s.stack) :
    AwaitsAt s' (log ++ [.polled d none none, .created s.created d]) c := by
  have habsent : s.coros s.created = .absent := h.kept.fresh _ (Nat.le_refl _)
  have hdnew : d ≠ s.created := by
    rintro rfl
    simp [hd] at habsent
  have hnew : s'.coros s.created = .recWait d := by rw [hcoros, Function.update_self]
  have hwaiting : s'.coros d = .waiting p next := by
    rw [hcoros, Function.update_of_ne hdnew, Function.update_self]
  have hother : ∀ r, r ≠ d → r ≠ s.created → s'.coros r = s.coros r := by
    intro r hrd hr
    rw [hcoros, Function.update_of_ne hr, Function.update_of_ne hrd]
  -- the new coroutine is the only one that polls for `d`
  have hserves : ∀ r, s'.Serves r c ↔ s.Serves r c ∨ r = s.created ∧ c = d := by
    intro r
    rw [State.Serves, State.Serves, hstack r]
    rcases eq_or_ne r s.created with rfl | hr
    · simp [hnew, habsent, or_comm, eq_comm]
    · rcases eq_or_ne r d with rfl | hrd
      · simp [hwaiting, hd, hr]
      · simp [hother r hrd hr, hr]
  rcases eq_or_ne c d with rfl | hne
  · have hidle : ∀ p next, s.coros c ≠ .waiting p next := by simp [hd]
    have hlog : Awaits c (log ++ [.polled c none none, .created s.created c])
        (.waiting s.created) := by
      rw [List.append_cons]
      exact (((h.awaits c).idle hidle).snoc .failed).snoc .created
    refine ⟨fun r hr => ?_, fun hw => absurd hwaiting (hw _ _), fun _ _ _ => ?_⟩
    · rcases (hserves r).1 hr with hold | ⟨rfl, -⟩
      · exact absurd hold ((h.awaits c).not_serves hidle)
      · exact hlog
    · exact .inl ⟨s.created, (hserves _).2 (.inr ⟨rfl, rfl⟩)⟩
  · refine (h.awaits c).same (fun r => ?_) (fun p' next' => ?_) (by simp [Event.About, hne.symm])
    · simp [hserves r, hne]
    · rcases eq_or_ne c s.created with rfl | hc
      · simp [hnew, habsent]
      · rw [hother c hne hc]

section

variable {rest : Stack π V ε σ} {p : π} {next : Cont π V ε σ}

/-- Below the frame that polls for `d`, nothing does. -/
theorem Accounted.alone (h : Accounted s log) (ht : s.stack = .recWait r d :: rest) (q : ℕ) :
    s.coros q ≠ .recWait d ∧ .recWait q d ∉ rest := by
  have hrunning : s.coros r = .recRunning := (h.kept.alive_top ht).1
  have hserves : s.Serves r d := .inr (by simp [ht])
  constructor
  · intro hq
    obtain rfl := (h.awaits d).serves_unique hserves (.inl hq)
    simp [hq] at hrunning
  · intro hq
    obtain rfl := (h.awaits d).serves_unique hserves (q := q) (.inr (by simp [ht, hq]))
    have hapart := (h.kept.apart (O := [_]) (holders_top ht) (List.mem_append_right _ hq)).1 q
    simp [Frame.names] at hapart

/-- What a poll by a coroutine of `__rec_wait` is for the other awaits. -/
theorem Accounted.recOther (h : Accounted s log) (ht : s.stack = .recWait r d :: rest)
    (hne : c ≠ d) (hstack : ∀ q, .recWait q c ∈ s'.stack ↔ .recWait q c ∈ rest)
    (hrec : ∀ q, s'.coros q = .recWait c ↔ s.coros q = .recWait c)
    (hcoro : ∀ p next, s'.coros c = .waiting p next ↔ s.coros c = .waiting p next)
    (hevs : ∀ ev ∈ evs, ¬ ev.About c) : AwaitsAt s' (log ++ evs) c := by
  refine (h.awaits c).same (fun q => ?_) hcoro hevs
  rw [State.Serves, State.Serves, hrec q, hstack q, ht]
  simp [hne]

/-- The poll of a coroutine of `__rec_wait` is answered with a value, and
`d` goes on. -/
theorem Accounted.recAnswered (h : Accounted s log) (ht : s.stack = .recWait r d :: rest) {v : V}
    (hw : s.coros d = .waiting p next) (hcoros : s'.coros = Function.update s.coros d .running)
    (hstack : ∀ q, .recWait q c ∈ s'.stack ↔ .recWait q c ∈ rest) :
    AwaitsAt s' (log ++ [.polled d (some r) (some (.ok v)), .goesOn d (.ok v)]) c := by
  have hrec : ∀ q, s'.coros q = .recWait c ↔ s.coros q = .recWait c := by
    intro q
    rw [hcoros]
    rcases eq_or_ne q d with rfl | hne
    · simp [hw]
    · rw [Function.update_of_ne hne]
  rcases eq_or_ne c d with rfl | hne
  · have hrunning : s'.coros c = .running := by rw [hcoros, Function.update_self]
    refine ⟨fun q hq => ?_, fun _ => ?_, fun p next hw => by simp [hrunning] at hw⟩
    · obtain ⟨hnone, hbelow⟩ := h.alone ht q
      exact (hq.elim (fun hq => hnone ((hrec q).1 hq)) fun hq => hbelow ((hstack q).1 hq)).elim
    · rw [List.append_cons]
      exact (((h.awaits c).served r (.inr (by simp [ht]))).snoc .recAnswered).snoc .goesOn
  · refine h.recOther ht hne hstack hrec (fun p next => ?_) (by simp [Event.About, hne.symm])
    rw [hcoros, Function.update_of_ne hne]

/-- It throws, and nothing polls for `d` any more. -/
theorem Accounted.recLost (h : Accounted s log) (ht : s.stack = .recWait r d :: rest) {e : ε}
    (hw : s.coros d = .waiting p next) (hcoros : s'.coros = s.coros)
    (hstack : ∀ q, .recWait q c ∈ s'.stack ↔ .recWait q c ∈ rest) :
    AwaitsAt s' (log ++ [.polled d (some r) (some (.error e))]) c := by
  rcases eq_or_ne c d with rfl | hne
  · refine ⟨fun q hq => ?_, fun hidle => ?_, fun _ _ _ => .inr ⟨r, e, ?_, by simp⟩⟩
    · obtain ⟨hnone, hbelow⟩ := h.alone ht q
      exact (hq.elim (fun hq => hnone (hcoros ▸ hq)) fun hq => hbelow ((hstack q).1 hq)).elim
    · exact absurd (hcoros ▸ hw) (hidle p next)
    · exact ((h.awaits c).served r (.inr (by simp [ht]))).snoc .recAnswered
  · exact h.recOther ht hne hstack (fun q => by rw [hcoros]) (fun p next => by rw [hcoros])
      (by simp [Event.About, hne.symm])

/-- It is in vain, and a coroutine is created that polls next. -/
theorem Accounted.recSuspended (h : Accounted s log) (ht : s.stack = .recWait r d :: rest)
    (hw : s.coros d = .waiting p next) {p' : π}
    (hcoros : s'.coros =
      Function.update (Function.update s.coros d (.waiting p' next)) s.created (.recWait d))
    (hstack : ∀ q, .recWait q c ∈ s'.stack ↔ .recWait q c ∈ rest) :
    AwaitsAt s' (log ++ [.polled d (some r) none, .created s.created d]) c := by
  have habsent : s.coros s.created = .absent := h.kept.fresh _ (Nat.le_refl _)
  have hdnew : d ≠ s.created := by
    rintro rfl
    simp [hw] at habsent
  have hnew : s'.coros s.created = .recWait d := by rw [hcoros, Function.update_self]
  have hwaiting : s'.coros d = .waiting p' next := by
    rw [hcoros, Function.update_of_ne hdnew, Function.update_self]
  have hother : ∀ q, q ≠ d → q ≠ s.created → s'.coros q = s.coros q := by
    intro q hqd hq
    rw [hcoros, Function.update_of_ne hq, Function.update_of_ne hqd]
  have hrec : ∀ q, s'.coros q = .recWait c ↔ s.coros q = .recWait c ∨ q = s.created ∧ c = d := by
    intro q
    rcases eq_or_ne q s.created with rfl | hq
    · simp [hnew, habsent, eq_comm]
    · rcases eq_or_ne q d with rfl | hqd
      · simp [hwaiting, hw, hq]
      · simp [hother q hqd hq, hq]
  rcases eq_or_ne c d with rfl | hne
  · have hlog : Awaits c (log ++ [.polled c (some r) none, .created s.created c])
        (.waiting s.created) := by
      rw [List.append_cons]
      exact (((h.awaits c).served r (.inr (by simp [ht]))).snoc .recFailed).snoc .created
    refine ⟨fun q hq => ?_, fun hidle => absurd hwaiting (hidle _ _), fun _ _ _ => ?_⟩
    · obtain ⟨hnone, hbelow⟩ := h.alone ht q
      rcases hq with hq | hq
      · obtain ⟨rfl, -⟩ := ((hrec q).1 hq).resolve_left hnone
        exact hlog
      · exact absurd ((hstack q).1 hq) hbelow
    · exact .inl ⟨s.created, .inl hnew⟩
  · refine h.recOther ht hne hstack (fun q => ?_) (fun p next => ?_)
      (by simp [Event.About, hne.symm])
    · simp [hrec q, hne]
    · rcases eq_or_ne c s.created with rfl | hc
      · simp [hnew, habsent]
      · rw [hother c hne hc]

end

/-! #### One step -/

theorem Coro.Ended.plain (h : x.Ended) : x.Plain := by
  cases x <;> trivial

theorem Accounted.awaits_step (h : Accounted s log) (hs : Trans poll s s')
    (hout : s'.outcome = .running) (c : ℕ) : AwaitsAt s' (log ++ s.emits poll ()) c := by
  cases hs with
  | runBad | returned | awaitEmpty | terminated | recBad => cases hout
  | enqueue ht | spin ht | leave ht | act ht =>
      exact (h.awaits c).same (fun r => by simp [State.Serves, ht]) (fun _ _ => Iff.rfl)
        (by simp [State.emits, ht])
  | runTask ht hf hq hc =>
      exact (h.awaits c).update rfl (by simp [hc, Coro.Plain]) trivial (by simp [ht])
        (by simp [emits_loops ht hf, State.nextRec, hq, hc])
  | @runRec f rest e q d ht hf hq hc =>
      refine (h.awaits c).same (fun r => ?_) (fun p next => ?_) ?_
      · rcases eq_or_ne r e.coro with rfl | hne
        · simp [State.Serves, hc, eq_comm]
        · simp [State.Serves, hne]
      · rcases eq_or_ne c e.coro with rfl | hne
        · simp [hc]
        · simp [hne]
      · simp [emits_loops ht hf, State.nextRec, hq, hc, Event.About]
  | resumed ht hc =>
      exact (h.awaits c).update rfl (by simp [hc, Coro.Plain]) trivial (by simp [ht])
        (by simp [State.emits, ht, hc])
  | leaveOwned ht =>
      exact (h.awaits c).update rfl (h.kept.ended ht).plain trivial (by simp [ht])
        (by simp [State.emits, ht, Event.About])
  | finish ht hb =>
      have hrunning := h.kept.running ht
      exact (h.awaits c).update rfl (by simp [hrunning, Coro.Plain]) trivial (by simp [ht])
        (by simp [emits_finish ht hb])
  | recReturn ht =>
      have hrunning := h.kept.recRunning ht
      exact (h.awaits c).update rfl (by simp [hrunning, Coro.Plain]) trivial (by simp [ht])
        (by simp [State.emits, ht])
  | await ht =>
      exact (h.awaits c).update rfl (by simp [h.kept.fresh, Coro.Plain]) trivial (by simp [ht])
        (by simp [State.emits, ht])
  | pollReady ht hp | pollThrew ht hp =>
      simp only [State.emits, ht, hp, Poll.answer]
      exact h.answered (h.kept.running ht) rfl (by simp [ht])
  | pollLater ht hp =>
      simp only [State.emits, ht, hp, Poll.answer]
      exact h.suspended (h.kept.running ht) rfl (by simp [ht, State.recWait])
  | recReady ht hc hp =>
      simp only [State.emits, ht, hc, hp, Poll.answer]
      exact h.recAnswered ht hc rfl (by simp)
  | recThrew ht hc hp =>
      simp only [State.emits, ht, hc, hp, Poll.answer]
      exact h.recLost ht hc rfl (by simp)
  | recLater ht hc hp =>
      simp only [State.emits, ht, hc, hp, Poll.answer]
      exact h.recSuspended ht hc rfl (by simp [State.recWait])

theorem Coro.Fits.update {coros : ℕ → Coro π V ε σ} (hx : ∀ l, (coros d).Fits l → x.Fits l)
    (l : Life) (hl : (coros c).Fits l) : (Function.update coros d x c).Fits l := by
  rcases eq_or_ne c d with rfl | hne
  · rw [Function.update_self]
    exact hx l hl
  · rwa [Function.update_of_ne hne]

/-- A coroutine that is none of `__rec_wait` and has not been destroyed
was not born as one. -/
theorem Coro.Fits.unborn {y : Coro π V ε σ} (hx : ¬ x.OfRecWait) (hd : x ≠ .destroyed)
    (hy : ¬ y.OfRecWait) (l : Life) (h : x.Fits l) : y.Fits l := by
  cases l with
  | unborn => exact hy
  | created =>
      obtain ⟨r, rfl⟩ := h
      exact absurd trivial hx
  | resumed => rcases h with rfl | rfl <;> exact absurd trivial hx
  | destroyed => exact absurd h hd

theorem Accounted.lives_created (h : Accounted s log) {caller : Option ℕ} (hd : ¬ x.OfRecWait)
    (hold : ¬ (s.coros d).OfRecWait) (hgone : s.coros d ≠ .destroyed)
    (hcoros : s'.coros = Function.update (Function.update s.coros d x) s.created (.recWait d)) :
    ∃ l, Lives c (log ++ [.polled d caller none, .created s.created d]) l ∧
      (s'.coros c).Fits l := by
  rcases eq_or_ne c s.created with rfl | hne
  · obtain ⟨l, hl, hfit⟩ := h.lives s.created
    rw [h.kept.fresh _ (Nat.le_refl _)] at hfit
    obtain rfl : l = .unborn := by cases l <;> simp_all [Coro.Fits]
    refine ⟨.created, ?_, d, by rw [hcoros, Function.update_self]⟩
    rw [List.append_cons]
    exact (hl.snoc (.other id)).snoc .created
  · refine lives_same (h.lives c) (fun l hl => ?_) (by simp [Event.Of, hne.symm])
    rw [hcoros, Function.update_of_ne hne]
    exact Coro.Fits.update (Coro.Fits.unborn hold hgone hd) l hl

/-- Nothing changes but the state of a coroutine that is none of
`__rec_wait`. -/
theorem Accounted.lives_task (h : Accounted s log)
    (hcoros : s'.coros = Function.update s.coros d x) (hold : ¬ (s.coros d).OfRecWait)
    (hgone : s.coros d ≠ .destroyed) (hx : ¬ x.OfRecWait) (hevs : ∀ ev ∈ evs, ¬ ev.Of c) :
    ∃ l, Lives c (log ++ evs) l ∧ (s'.coros c).Fits l := by
  refine lives_same (h.lives c) (fun l hl => ?_) hevs
  rw [hcoros]
  exact Coro.Fits.update (Coro.Fits.unborn hold hgone hx) l hl

theorem Accounted.lives_step (h : Accounted s log) (hs : Trans poll s s')
    (hout : s'.outcome = .running) (c : ℕ) :
    ∃ l, Lives c (log ++ s.emits poll ()) l ∧ (s'.coros c).Fits l := by
  cases hs with
  | runBad | returned | awaitEmpty | terminated | recBad => cases hout
  | enqueue ht | spin ht | leave ht | act ht =>
      exact lives_same (h.lives c) (fun _ => id) (by simp [State.emits, ht])
  | pollReady ht hp | pollThrew ht hp =>
      exact lives_same (h.lives c) (fun _ => id)
        (by simp [State.emits, ht, hp, Poll.answer, Event.Of])
  | recThrew ht hc hp =>
      exact lives_same (h.lives c) (fun _ => id)
        (by simp [State.emits, ht, hc, hp, Poll.answer, Event.Of])
  | runTask ht hf hq hc =>
      exact h.lives_task rfl (by simp [hc, Coro.OfRecWait]) (by simp [hc]) id
        (by simp [emits_loops ht hf, State.nextRec, hq, hc])
  | @runRec f rest e q d ht hf hq hc =>
      simp only [emits_loops ht hf, State.nextRec, hq, hc]
      rcases eq_or_ne c e.coro with rfl | hne
      · obtain ⟨l, hl, hfit⟩ := h.lives e.coro
        rw [hc] at hfit
        obtain rfl : l = .created := by cases l <;> simp_all [Coro.Fits, Coro.OfRecWait]
        exact ⟨.resumed, hl.snoc .resumed, .inl (by simp)⟩
      · exact lives_same (h.lives c) (fun l hl => by simpa [hne] using hl)
          (by simp [Event.Of, hne.symm])
  | resumed ht hc =>
      exact h.lives_task rfl (by simp [hc, Coro.OfRecWait]) (by simp [hc]) id
        (by simp [State.emits, ht, hc])
  | @leaveOwned rest d ht =>
      simp only [State.emits, ht]
      rcases eq_or_ne c d with rfl | hne
      · obtain ⟨l, hl, hfit⟩ := h.lives c
        have hrec : (s.coros c).OfRecWait := by
          refine (h.owned c).1 (List.mem_flatMap.2 ⟨.runOne ⟨c, true⟩, ?_, Entry.mem_owns.2 rfl⟩)
          simp [State.holders, ht]
        have hended := h.kept.ended ht
        obtain rfl : l = .resumed := by
          cases hc : s.coros c <;> cases l <;>
            simp_all [Coro.Fits, Coro.OfRecWait, Coro.Ended]
        exact ⟨.destroyed, hl.snoc .destroyed, by simp [Coro.Fits]⟩
      · exact lives_same (h.lives c) (fun l hl => by simpa [hne] using hl)
          (by simp [Event.Of, hne.symm])
  | finish ht hb =>
      have hrunning := h.kept.running ht
      exact h.lives_task rfl (by simp [hrunning, Coro.OfRecWait]) (by simp [hrunning]) id
        (by simp [emits_finish ht hb])
  | recReturn ht =>
      have hrunning := h.kept.recRunning ht
      refine lives_same (h.lives c) (Coro.Fits.update fun l => ?_) (by simp [State.emits, ht])
      cases l <;> simp [hrunning, Coro.Fits, Coro.OfRecWait]
  | await ht =>
      have habsent := h.kept.fresh _ (Nat.le_refl _)
      exact h.lives_task rfl (by simp [habsent, Coro.OfRecWait]) (by simp [habsent]) id
        (by simp [State.emits, ht])
  | pollLater ht hp =>
      have hrunning := h.kept.running ht
      simp only [State.emits, ht, hp, Poll.answer]
      exact h.lives_created (x := .waiting _ _) id (by simp [hrunning, Coro.OfRecWait])
        (by simp [hrunning]) rfl
  | recReady ht hc hp =>
      exact h.lives_task rfl (by simp [hc, Coro.OfRecWait]) (by simp [hc]) id
        (by simp [State.emits, ht, hc, hp, Poll.answer, Event.Of])
  | recLater ht hc hp =>
      simp only [State.emits, ht, hc, hp, Poll.answer]
      exact h.lives_created (x := .waiting _ _) id (by simp [hc, Coro.OfRecWait])
        (by simp [hc]) rfl

theorem Accounted.step (h : Accounted s log) (hs : Trans poll s s') (hout : s'.outcome = .running) :
    Accounted s' (log ++ s.emits poll ()) := by
  have hkept := h.kept.step h.suspendsUnowned hs hout
  exact ⟨hkept, under_step h.under hs, h.owned_step hs hout hkept, h.awaits_step hs hout,
    h.lives_step hs hout⟩

/-! #### What a step delivers -/

theorem Accounted.delivers (h : Accounted s log) (hs : Trans poll s s')
    (hrun : s.outcome = .running) : Delivers poll s () s' := by
  by_cases hout : s'.outcome = .running
  swap
  · obtain ⟨hcoros, hworld, -⟩ := halts_coros hs hrun hout
    refine .quiet (by simp [emits_halts hs hrun hout]) (.inl hworld) fun c p next hw => ?_
    rwa [hcoros]
  cases hs with
  | runBad | returned | awaitEmpty | terminated | recBad => cases hout
  | enqueue ht | spin ht | leave ht =>
      exact .quiet (by simp [State.emits, ht]) (.inl rfl) fun _ _ _ => id
  | act ht =>
      exact .quiet (by simp [State.emits, ht]) (.inr ⟨_, _, _, _, ht, rfl⟩) fun _ _ _ => id
  | runTask ht hf hq hc =>
      exact .quiet (by simp [emits_loops ht hf, State.nextRec, hq, hc]) (.inl rfl)
        (waiting_update (by simp [hc]))
  | runRec ht hf hq hc =>
      exact .quiet (by simp [emits_loops ht hf, State.nextRec, hq, hc, Event.About]) (.inl rfl)
        (waiting_update (by simp [hc]))
  | resumed ht hc =>
      exact .quiet (by simp [State.emits, ht, hc]) (.inl rfl) (waiting_update (by simp [hc]))
  | leaveOwned ht =>
      refine .quiet (by simp [State.emits, ht, Event.About]) (.inl rfl)
        (waiting_update fun p next hw => ?_)
      simpa [hw, Coro.Ended] using h.kept.ended ht
  | finish ht hb =>
      have hrunning := h.kept.running ht
      exact .quiet (by simp [emits_finish ht hb]) (.inl rfl) (waiting_update (by simp [hrunning]))
  | recReturn ht =>
      have hrunning := h.kept.recRunning ht
      exact .quiet (by simp [State.emits, ht]) (.inl rfl) (waiting_update (by simp [hrunning]))
  | await ht =>
      exact .quiet (by simp [State.emits, ht]) (.inl rfl) (waiting_update (by simp [h.kept.fresh]))
  | pollReady ht hp | pollThrew ht hp =>
      exact .answers none (by simp only [State.emits, ht, hp, Poll.answer]) (.inl ⟨_, ht⟩)
        (by rw [hp]; rfl) (by rw [hp]; rfl) rfl fun _ _ _ _ => id
  | pollLater ht hp =>
      have hrunning := h.kept.running ht
      refine .suspends none (by simp [State.emits, ht, hp, Poll.answer])
        (by simp [State.emits, ht, hp, Poll.answer]) (.inl ⟨_, ht⟩)
        (by rw [hp]; rfl) (by simp [hrunning]) fun c p next hne hw => ?_
      exact waiting_created (h.kept.fresh _ (Nat.le_refl _)) (by simp [hrunning])
        (by simpa [hne] using hw)
  | @recReady rest r d p next v w ht hc hp =>
      exact .answers (some r) (by simp only [State.emits, ht, hc, hp, Poll.answer]) (.inr hc)
        (by rw [hp]; rfl) (by rw [hp]; rfl) rfl fun c p next hne hw => by simpa [hne] using hw
  | @recThrew rest r d p next e w ht hc hp =>
      exact .suspends (some r) (by simp [State.emits, ht, hc, hp, Poll.answer])
        (by simp [State.emits, ht, hc, hp, Poll.answer]) (.inr hc)
        (by rw [hp]; rfl) (fun q _ hw => ⟨q, hw⟩) fun _ _ _ _ => id
  | @recLater rest r d p p' next w ht hc hp =>
      refine .suspends (some r) (by simp [State.emits, ht, hc, hp, Poll.answer])
        (by simp [State.emits, ht, hc, hp, Poll.answer]) (.inr hc)
        (by rw [hp]; rfl) (fun q next' hw => ⟨p', ?_⟩) fun c p next hne hw => ?_
      · cases hc.symm.trans hw
        exact waiting_created (h.kept.fresh _ (Nat.le_refl _)) (by simp [hc]) (by simp)
      · exact waiting_created (h.kept.fresh _ (Nat.le_refl _)) (by simp [hc])
          (by simpa [hne] using hw)

/-! ### Whole runs -/

theorem accounted_parallelExpected {capacity : ℕ} {w : σ} {ts : List (Body π V ε σ)}
    (h : parallelExpected capacity w ts = some s) : Accounted s [] := by
  obtain ⟨hholders, -⟩ := jobs_parallelExpected h
  have hunder := (ordered_parallelExpected h).under
  obtain ⟨q, -, rfl⟩ := Option.map_eq_some_iff.1 h
  have hcoro : ∀ c : ℕ, (ts[c]?.map Coro.start).getD .absent = .absent ∨
      ∃ b, (ts[c]?.map Coro.start).getD .absent = .start b := by
    intro c
    cases ts[c]? <;> simp
  have hplain : ∀ c : ℕ, ¬ Coro.OfRecWait ((ts[c]?.map Coro.start).getD .absent) := by
    intro c
    rcases hcoro c with hc | ⟨b, hc⟩ <;> simp [hc, Coro.OfRecWait]
  have hname : ∀ c : ℕ, (Frame.push ⟨c, false⟩ : Frame π V ε σ).names
      (fun c => (ts[c]?.map Coro.start).getD .absent) = [c] := by
    intro c
    rcases hcoro c with hc | ⟨b, hc⟩ <;> simp [Frame.names, hc]
  refine ⟨⟨fun f hf => ?_, ?_, ?_, fun c hc => ?_, List.pairwise_singleton _ _,
    fun c hc => by simp [List.getElem?_eq_none hc]⟩, hunder, fun c => ?_, fun c => ?_,
    fun c => ⟨.unborn, .nil, hplain c⟩⟩
  · rw [hholders] at hf
    rcases List.mem_append.1 hf with hf | hf
    · obtain ⟨i, hi, rfl⟩ := List.mem_map.1 hf
      rw [List.mem_range] at hi
      exact .inl ⟨ts[i], by simp [List.getElem?_eq_getElem hi]⟩
    · rw [List.mem_singleton.1 hf]
      trivial
  · simp only [hholders, List.flatMap_append, List.flatMap_map, hname]
    simpa [Frame.names] using List.nodup_range
  · rw [List.flatMap_eq_nil_iff.2 fun f hf => ?_]
    · exact List.nodup_nil
    · rw [hholders] at hf
      rcases List.mem_append.1 hf with hf | hf
      · obtain ⟨i, -, rfl⟩ := List.mem_map.1 hf
        rfl
      · rw [List.mem_singleton.1 hf]
        rfl
  · rcases hcoro c with hc' | ⟨b, hc'⟩ <;> simp [hc', Coro.OnStack] at hc
  · refine iff_of_false ?_ (hplain c)
    simp [State.loopOwns, hholders, Frame.loopOwns, Entry.owns]
  · refine ⟨fun r hr => ?_, fun _ => .nil, fun p next hw => ?_⟩
    · rcases hr with hr | hr
      · rcases hcoro r with hc' | ⟨b, hc'⟩ <;> simp [hc'] at hr
      · simp at hr
    · rcases hcoro c with hc' | ⟨b, hc'⟩ <;> simp [hc'] at hw

/-- What the log of a run is, at any point of the run and at its end. -/
structure Logged (s : State π V ε σ) (log : List (Event V ε)) : Prop where
  running : s.outcome = .running → Accounted s log
  ended : s.outcome ≠ .running → s.stack = []
  awaits : ∀ c, ∃ ph, Awaits c log ph ∧
    ((∀ p next, s.coros c ≠ .waiting p next) → ph = .idle)
  lost : s.outcome = .returned → ∀ c p next, s.coros c = .waiting p next → LostToPoll c log
  lives : ∀ r, ∃ l, Lives r log l ∧ (s.coros r).Fits l ∧
    (s.outcome = .returned → l = .unborn ∨ l = .destroyed)

theorem Accounted.phase (h : Accounted s log) (c : ℕ) : ∃ ph, Awaits c log ph ∧
    ((∀ p next, s.coros c ≠ .waiting p next) → ph = .idle) := by
  cases hc : s.coros c with
  | waiting p next =>
      rcases (h.awaits c).waits p next hc with ⟨r, hr⟩ | ⟨-, e, he, -⟩
      · exact ⟨_, (h.awaits c).served r hr, fun hnot => absurd rfl (hnot p next)⟩
      · exact ⟨_, he, fun hnot => absurd rfl (hnot p next)⟩
  | _ => exact ⟨.idle, (h.awaits c).idle (by simp [hc]), fun _ => rfl⟩

theorem Accounted.logged (h : Accounted s log) (hout : s.outcome = .running) : Logged s log := by
  refine ⟨fun _ => h, fun hnot => absurd hout hnot, h.phase, by simp [hout], fun r => ?_⟩
  obtain ⟨l, hl, hfit⟩ := h.lives r
  exact ⟨l, hl, hfit, by simp [hout]⟩

/-- When `run_forever` returns, nothing polls any more. -/
theorem Accounted.returns (h : Accounted s log) {rest : Stack π V ε σ}
    (ht : s.stack = .runForever :: rest) (hq : s.queue = []) (c : ℕ) :
    ¬ (s.coros c).OfRecWait ∧ ∀ r, ¬ s.Serves r c := by
  have hbottom : rest = [] := by
    have hunder := h.under
    rw [ht, List.pairwise_cons] at hunder
    exact List.eq_nil_iff_forall_not_mem.2 fun g hg => (hunder.1 g hg).1 rfl
  subst hbottom
  have hnone : ∀ c, ¬ (s.coros c).OfRecWait := by
    intro c hc
    have hmem := (h.owned c).2 hc
    simp [loopOwns_eq, hq, ht, Frame.loopOwns] at hmem
  refine ⟨hnone c, fun r hr => ?_⟩
  rcases hr with hr | hr
  · exact hnone r (by simp [hr, Coro.OfRecWait])
  · simp [ht] at hr

theorem Logged.running_of_step (h : Logged s log) {a : Unit}
    (hs : EventLoop.step poll s a = some s') : s.outcome = .running := by
  by_contra hnot
  simp [EventLoop.step, h.ended hnot] at hs

theorem Logged.step (h : Logged s log) {a : Unit} (hs : EventLoop.step poll s a = some s') :
    Logged s' (log ++ s.emits poll a) := by
  have hrun := h.running_of_step hs
  have hacc := h.running hrun
  have htrans := step_trans hs
  by_cases hout : s'.outcome = .running
  · exact (hacc.step htrans hout).logged hout
  obtain ⟨hcoros, -, hstack⟩ := halts_coros htrans hrun hout
  rw [emits_halts htrans hrun hout, List.append_nil]
  refine ⟨fun hrun' => absurd hrun' hout, fun _ => hstack, ?_, fun hreturned c p next hc => ?_,
    fun r => ?_⟩
  · rw [hcoros]
    exact hacc.phase
  · obtain ⟨⟨rest, ht⟩, hq⟩ := returned_step htrans hrun hreturned
    rw [hcoros] at hc
    refine ((hacc.awaits c).waits p next hc).resolve_left ?_
    rintro ⟨r, hr⟩
    exact (hacc.returns ht hq c).2 r hr
  · obtain ⟨l, hl, hfit⟩ := hacc.lives r
    refine ⟨l, hl, hcoros ▸ hfit, fun hreturned => ?_⟩
    obtain ⟨⟨rest, ht⟩, hq⟩ := returned_step htrans hrun hreturned
    obtain ⟨hnone, -⟩ := hacc.returns ht hq r
    cases l with
    | unborn => exact .inl rfl
    | destroyed => exact .inr rfl
    | created =>
        obtain ⟨c, hc⟩ := hfit
        simp [hc, Coro.OfRecWait] at hnone
    | resumed => rcases hfit with hr | hr <;> simp [hr, Coro.OfRecWait] at hnone

/-- The log of a run of the tasks. -/
theorem logged_run {capacity : ℕ} {w : σ} {ts : List (Body π V ε σ)} {s₀ : State π V ε σ}
    {as : List Unit} (h₀ : parallelExpected capacity w ts = some s₀)
    (hrun : run (EventLoop.step poll) s₀ as = some s) :
    Logged s₀ [] ∧ Logged s (liftRun (EventLoop.step poll) (State.emits poll) s₀ as) := by
  have hinit : Logged s₀ [] := by
    refine (accounted_parallelExpected h₀).logged ?_
    obtain ⟨q, -, rfl⟩ := Option.map_eq_some_iff.1 h₀
    rfl
  have hlog := run_log_invariant (I := Logged) (fun _ _ _ _ h hs => h.step hs) hinit hrun
  rw [List.nil_append] at hlog
  exact ⟨hinit, hlog⟩

end

/-- For every coroutine the polls of a run are those of one await after the
other: each await polls until a poll is answered and not again, and its
coroutine goes on once, with this answer. A coroutine of `__rec_wait` is
resumed once and destroyed once, as its state says. When `run_forever`
returns, no await is left unless its poll has thrown. -/
theorem polls_until_answered {poll : π → σ → Poll π V ε × σ} {capacity : ℕ} {w : σ}
    {ts : List (Body π V ε σ)} {s₀ s : State π V ε σ} {as : List Unit}
    (h₀ : parallelExpected capacity w ts = some s₀) (hrun : run (step poll) s₀ as = some s) :
    (∀ c, ∃ ph, Awaits c (liftRun (step poll) (State.emits poll) s₀ as) ph ∧
        ((∀ p next, s.coros c ≠ .waiting p next) → ph = .idle) ∧
        (s.outcome = .returned →
          (∀ caller e, .polled c caller (some (.error e)) ∉
            liftRun (step poll) (State.emits poll) s₀ as) → ph = .idle)) ∧
      (∀ r, ∃ l, Lives r (liftRun (step poll) (State.emits poll) s₀ as) l ∧
        (s.coros r).Fits l ∧ (s.outcome = .returned → l = .unborn ∨ l = .destroyed)) ∧
      Along (step poll) (Delivers poll) s₀ as := by
  obtain ⟨hinit, hlog⟩ := logged_run h₀ hrun
  refine ⟨fun c => ?_, hlog.lives, ?_⟩
  · obtain ⟨ph, hph, hidle⟩ := hlog.awaits c
    refine ⟨ph, hph, hidle, fun hreturned hthrows => hidle fun p next hc => ?_⟩
    obtain ⟨r, e, -, hmem⟩ := hlog.lost hreturned c p next hc
    exact hthrows (some r) e hmem
  · refine along_of_invariant (I := fun s => ∃ log, Logged s log)
      (fun _ _ _ ⟨_, h⟩ hs => ⟨_, h.step hs⟩) (fun s a t ⟨log, h⟩ hs => ?_) ⟨[], hinit⟩ as
    have hrunning := h.running_of_step hs
    exact (h.running hrunning).delivers (step_trans hs) hrunning

/-- The log of a task that polls twice in vain and of the child of the
other one, which polls once in vain. -/
theorem polls_until_answered_pollTwice : ∃ s₀ s : State (ℕ × ℕ) ℕ String Unit,
    parallelExpected 8 () pollTwice = some s₀ ∧
      run (step (countdown ℕ String)) s₀ (List.replicate 30 ()) = some s ∧
      (∀ c, Awaits c (liftRun (step (countdown ℕ String)) (State.emits (countdown ℕ String)) s₀
        (List.replicate 30 ())) .idle) ∧
      (∀ r, ∃ l, Lives r (liftRun (step (countdown ℕ String)) (State.emits (countdown ℕ String)) s₀
        (List.replicate 30 ())) l ∧ (s.coros r).Fits l ∧ (l = .unborn ∨ l = .destroyed)) ∧
      Along (step (countdown ℕ String)) (Delivers (countdown ℕ String)) s₀
        (List.replicate 30 ()) := by
  obtain ⟨s₀, s, h₀, hrun, hout⟩ : ∃ s₀ s : State (ℕ × ℕ) ℕ String Unit,
      parallelExpected 8 () pollTwice = some s₀ ∧
        run (step (countdown ℕ String)) s₀ (List.replicate 30 ()) = some s ∧
        s.outcome = .returned := ⟨_, _, rfl, rfl, rfl⟩
  obtain ⟨hawaits, hlives, hdelivers⟩ := polls_until_answered h₀ hrun
  refine ⟨s₀, s, h₀, hrun, fun c => ?_, fun r => ?_, hdelivers⟩
  · obtain ⟨ph, hph, -, hends⟩ := hawaits c
    have hidle : ph = .idle := by
      refine hends hout fun caller e hmem => ?_
      obtain ⟨t, a, hemits⟩ := mem_liftRun hmem
      obtain ⟨⟨n, v⟩, hp⟩ := threw_of_emits hemits
      cases n <;> simp [countdown, Poll.answer] at hp
    exact hidle ▸ hph
  · obtain ⟨l, hl, hfit, hends⟩ := hlives r
    exact ⟨l, hl, hfit, hends hout⟩

/-- A poll of a semaphore that is answered takes one permit, and one in
vain takes none. -/
theorem semaAcquire_permits [Inhabited V] (i : ℕ) (permits : ℕ → ℕ) :
    ((semaAcquire V ε i permits).1.answer = none → (semaAcquire V ε i permits).2 = permits) ∧
      ∀ x, (semaAcquire V ε i permits).1.answer = some x →
        (semaAcquire V ε i permits).2 i + 1 = permits i ∧
          ∀ j, j ≠ i → (semaAcquire V ε i permits).2 j = permits j := by
  cases hi : permits i with
  | zero => simp [semaAcquire, hi, Poll.answer]
  | succ n => simp +contextual [semaAcquire, hi, Poll.answer]

end JowiAsio.EventLoop

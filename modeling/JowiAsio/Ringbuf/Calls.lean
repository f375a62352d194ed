import JowiAsio.Ringbuf.Sequential

/-!
The calls of one thread, one after the other.

A thread that uses the ring buffer alone may be inside a call, and then
the contents are those from before the call, or the call returns with its
next step and has done what it does to a FIFO. The one call that does not
come to its return is a `push` on the full queue: it goes back to its
first guess for ever (`Serving.full`).
-/

namespace JowiAsio.Ringbuf

open Lib TaggedPtr

variable {D : DeleterSize} {Tid : Type}

/-- The call that returns with an event. -/
def Event.call : Event D → Call D
  | .pushed x => .push x
  | .tryPushed x _ => .tryPush x
  | .popped _ _ => .pop

/-- The thread is inside the call. -/
def Pc.Inside : Pc D → Call D → Prop
  | .push x _ _, c => c = .push x
  | .tryPush x _ _, c => c = .tryPush x
  | .store x .push _, c => c = .push x
  | .store x .tryPush _, c => c = .tryPush x
  | .pop _ _, c | .take _, c => c = .pop
  | .idle, _ => False

/-- The thread `t`, which uses the queue alone, is inside a call, and the
queue contained `q` when the call began. -/
inductive Serving (n : ℕ) (t : Tid) (s : State Tid D) (q : List (UniquePtr D)) : Call D → Prop
  | running {c : Call D} (h : Solo n t s q) (hc : (s.pc t).Inside c) : Serving n t s q c
  | full {x : UniquePtr D} (hrest : Rest n s.counter s.nodes q) (hfull : q.length + 1 = n)
      (hpc : s.pc t = .push x pushGuess.1 pushGuess.2) : Serving n t s q (.push x)

section

variable {n : ℕ} {t : Tid} {s s' : State Tid D} {q : List (UniquePtr D)} {c : Call D}

theorem Serving.not_idle (h : Serving n t s q c) : s.pc t ≠ .idle := by
  intro hidle
  cases h with
  | running _ hc => simp [hidle, Pc.Inside] at hc
  | full _ _ hpc => simp [hidle] at hpc

theorem Call.start_inside (c : Call D) : c.start.Inside c := by
  cases c <;> rfl

theorem Call.start_ne_idle (c : Call D) : c.start ≠ .idle := by
  cases c <;> simp [Call.start]

/-- A full queue is not the empty one of the first guess. -/
theorem Rest.not_guess (h : Rest n s.counter s.nodes q) (hn : 2 ≤ n) (hfull : q.length + 1 = n) :
    s.counter ≠ pushGuess.1 := by
  intro hguess
  have hempty : q = [] := h.empty_iff.1 (by rw [hguess]; rfl)
  simp [hempty] at hfull
  omega

variable [DecidableEq Tid]

/-- A call begins. -/
theorem Solo.call (hn : 2 ≤ n) (h : Solo n t s q) (hidle : s.pc t = .idle)
    (hnull : ∀ x, c = .push x ∨ c = .tryPush x → x.ptr ≠ 0) :
    Serving n t (s.setPc t c.start) q c := by
  have hrest : Rest n s.counter s.nodes q := by simpa [hidle, Phase] using h.phase
  have hinside : ((s.setPc t c.start).pc t).Inside c := by
    rw [setPc_pc, Function.update_self]
    exact c.start_inside
  by_cases hroom : q.length + 1 < n
  · exact .running (h.move rfl h.nonnull (hrest.start hn hnull fun _ _ => hroom)) hinside
  · cases c with
    | push x =>
        have hlt := hrest.room
        exact .full hrest (by omega) (by simp [Call.start])
    | tryPush x => exact .running (h.move rfl h.nonnull (hrest.start hn hnull (by simp))) hinside
    | pop => exact .running (h.move rfl h.nonnull (hrest.start hn hnull (by simp))) hinside

/-- A call goes on, or it returns. -/
theorem Pc.Inside.exec {f : Bool} (hc : (s.pc t).Inside c) (hs : step s (.exec t f) = some s') :
    s'.history = s.history ∧ (s'.pc t).Inside c ∨
      ∃ ev, s'.history = s.history ++ [ev] ∧ ev.call = c ∧ s'.pc t = .idle := by
  cases step_trans hs with
  | pushClaim hpc | pushRetry hpc | tryPushClaim hpc | tryPushRetry hpc | popClaim hpc
  | popRetry hpc =>
      rw [hpc] at hc
      exact .inl ⟨rfl, by simpa [Pc.Inside] using hc⟩
  | storeRetry => exact .inl ⟨rfl, hc⟩
  | @store _ x kind i hpc =>
      rw [hpc] at hc
      refine .inr ⟨_, rfl, ?_, by simp⟩
      cases kind <;> exact hc.symm
  | tryPushFull hpc | popEmpty hpc | take hpc =>
      rw [hpc] at hc
      exact .inr ⟨_, rfl, hc.symm, by simp⟩

/-- A step inside a call changes nothing, or the call returns and has done
what it does to a FIFO. -/
theorem Serving.exec (hn : 2 ≤ n) (hn32 : n < 2 ^ 32) {f : Bool} (h : Serving n t s q c)
    (hs : step s (.exec t f) = some s') :
    Serving n t s' q c ∨ ∃ ev q', s'.history = s.history ++ [ev] ∧ ev.call = c ∧
      replayEvent (n - 1) q ev = some q' ∧ Solo n t s' q' ∧ s'.pc t = .idle := by
  cases h with
  | running h hc =>
      obtain ⟨q', hsolo, hemits⟩ := solo_step (a := .exec t f) hn hn32 h rfl trivial (by simp) hs
      rcases hc.exec hs with ⟨hsame, hinside⟩ | ⟨ev, hev, hcall, hidle⟩
      · rcases hemits with ⟨-, rfl⟩ | ⟨ev, hev, -⟩
        · exact .inl (.running hsolo hinside)
        · simp [hsame] at hev
      · rcases hemits with ⟨hsame, -⟩ | ⟨ev', hev', hreplay⟩
        · simp [hsame] at hev
        · obtain rfl : ev' = ev := by simpa [hev] using hev'.symm
          exact .inr ⟨ev', q', hev, hcall, hreplay, hsolo, hidle⟩
  | @full x hrest hfull hpc =>
      left
      cases step_trans hs with
      | pushClaim hpc' hc =>
          obtain ⟨rfl, rfl, rfl⟩ : _ ∧ _ ∧ _ := by simpa [hpc] using hpc'
          exact absurd hc (hrest.not_guess hn hfull)
      | @pushRetry _ _ y e d hpc' _ =>
          obtain ⟨rfl, -, -⟩ : _ ∧ _ ∧ _ := by simpa [hpc] using hpc'
          have hretry : pushRetry s.capacity s.counter = pushGuess := by
            rw [State.capacity, hrest.length, Ringbuf.pushRetry, hrest.advance_push hn32,
              if_pos (hrest.full_iff.2 hfull)]
          exact .full hrest hfull (by simp [hretry])
      | tryPushClaim hpc' | tryPushFull hpc' | tryPushRetry hpc' | store hpc' | storeRetry hpc'
      | popClaim hpc' | popEmpty hpc' | popRetry hpc' | take hpc' => simp [hpc] at hpc'

/-- Inside a call the next step is possible. -/
theorem Serving.possible (h : Serving n t s q c) (f : Bool) :
    ∃ s', step s (.exec t f) = some s' := by
  cases h with
  | running hsolo hc => exact exec_possible hsolo (Serving.running hsolo hc).not_idle f
  | full _ _ hpc =>
      simp only [step, hpc]
      split_ifs <;> exact ⟨_, rfl⟩

end

end JowiAsio.Ringbuf

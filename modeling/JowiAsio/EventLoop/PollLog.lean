import JowiAsio.EventLoop.Ownership
import JowiAsio.Lib.Trace

/-!
Polls, one after the other, as what a run of the thread has done.

Every call of `await_ready`, every coroutine of `__rec_wait` that is
created, resumed or destroyed, and every point where an awaiting coroutine
goes on is an event of the log of a run. For one coroutine the log is a
sequence of awaits (`Awaits`): polls that fail, each followed by the
creation of the one coroutine that polls next, then a poll that is
answered, then the coroutine goes on with this answer. For one coroutine
of `__rec_wait` the log is its life (`Lives`).

The log says which coroutine answers for what. What the poll itself does,
and where the coroutine goes on, is said step by step (`Delivers`).
-/

namespace JowiAsio.EventLoop

open Lib

variable {π V ε σ : Type}

/-! ### The log of a run -/

/-- What a poll has been answered with, if it was not in vain. -/
def Poll.answer : Poll π V ε → Option (Except ε V)
  | .notReady _ => none
  | .ready v => some (.ok v)
  | .threw e => some (.error e)

inductive Event (V ε : Type)
  /-- `await_ready` for the coroutine `c`, called by itself or by the
  coroutine `caller` of `__rec_wait` -/
  | polled (c : ℕ) (caller : Option ℕ) (answer : Option (Except ε V))
  /-- the coroutine `r` of `__rec_wait(loop, c)` is created -/
  | created (r c : ℕ)
  /-- the coroutine `r` of `__rec_wait` is resumed -/
  | resumed (r : ℕ)
  /-- the owned coroutine `r` is destroyed -/
  | destroyed (r : ℕ)
  /-- the coroutine `c` goes on after its await with what `await_resume`
  gives -/
  | goesOn (c : ℕ) (x : Except ε V)

/-- `run_one` resumes a coroutine of `__rec_wait`. -/
def State.nextRec (s : State π V ε σ) : List (Event V ε) :=
  match s.queue with
  | [] => []
  | e :: _ =>
      match s.coros e.coro with
      | .recWait _ => [.resumed e.coro]
      | _ => []

/-- What happens in the step from `s`. -/
def State.emits (poll : π → σ → Poll π V ε × σ) (s : State π V ε σ) (_ : Unit) :
    List (Event V ε) :=
  match s.stack with
  | .exec c (.poll p _) :: _ =>
      match (poll p s.world).1.answer with
      | none => [.polled c none none, .created s.created c]
      | some x => [.polled c none (some x), .goesOn c x]
  | .recWait r h :: _ =>
      match s.coros h with
      | .waiting p _ =>
          match (poll p s.world).1.answer with
          | none => [.polled h (some r) none, .created s.created h]
          | some (.ok v) => [.polled h (some r) (some (.ok v)), .goesOn h (.ok v)]
          | some (.error e) => [.polled h (some r) (some (.error e))]
      | _ => []
  | .runOne ⟨r, true⟩ :: _ => [.destroyed r]
  | .runForever :: _ => s.nextRec
  | .awaitLoop _ child _ :: _ =>
      match s.coros child with
      | .finished _ => []
      | _ => s.nextRec
  | _ => []

/-! ### Events of a run -/

/-- Where a coroutine is with its awaits: before the next one, between a
poll in vain and the creation of the coroutine `r` that polls next,
waiting for `r`, or between the poll that is answered and going on. -/
inductive Phase (V ε : Type)
  | idle
  | failed
  | waiting (r : ℕ)
  | answered (x : Except ε V)

/-- The event is about the awaits of the coroutine `c`. -/
def Event.About (c : ℕ) : Event V ε → Prop
  | .polled d _ _ | .created _ d | .goesOn d _ => d = c
  | .resumed _ | .destroyed _ => False

/-- How an event moves the awaits of `c` from one phase to the next. -/
inductive Phase.Next (c : ℕ) : Phase V ε → Event V ε → Phase V ε → Prop
  | other {ph : Phase V ε} {ev : Event V ε} (hev : ¬ ev.About c) : Next c ph ev ph
  | failed : Next c .idle (.polled c none none) .failed
  | answered {x : Except ε V} : Next c .idle (.polled c none (some x)) (.answered x)
  | created {r : ℕ} : Next c .failed (.created r c) (.waiting r)
  | recFailed {r : ℕ} : Next c (.waiting r) (.polled c (some r) none) .failed
  | recAnswered {r : ℕ} {x : Except ε V} :
      Next c (.waiting r) (.polled c (some r) (some x)) (.answered x)
  | goesOn {x : Except ε V} : Next c (.answered x) (.goesOn c x) .idle

/-- The log is one of awaits of `c`, the last of which is in the given
phase. -/
abbrev Awaits (c : ℕ) : List (Event V ε) → Phase V ε → Prop := Trace (Phase.Next c) .idle

inductive Life
  | unborn
  | created
  | resumed
  | destroyed

/-- The event is one in the life of the coroutine `r` of `__rec_wait`. -/
def Event.Of (r : ℕ) : Event V ε → Prop
  | .created q _ | .resumed q | .destroyed q => q = r
  | .polled _ _ _ | .goesOn _ _ => False

inductive Life.Next (r : ℕ) : Life → Event V ε → Life → Prop
  | other {l : Life} {ev : Event V ε} (hev : ¬ ev.Of r) : Next r l ev l
  | created {c : ℕ} : Next r .unborn (.created r c) .created
  | resumed : Next r .created (.resumed r) .resumed
  | destroyed : Next r .resumed (.destroyed r) .destroyed

/-- The log is the life of `r`: it is created, then resumed, then
destroyed, each once. -/
abbrev Lives (r : ℕ) : List (Event V ε) → Life → Prop := Trace (Life.Next r) .unborn

/-- The coroutine `c` awaits the awaitable `p` and has nothing else to do
than to go on with `next`. -/
def State.AwaitsPoll (s : State π V ε σ) (c : ℕ) (p : π) (next : Cont π V ε σ) : Prop :=
  (∃ rest, s.stack = .exec c (.poll p next) :: rest) ∨ s.coros c = .waiting p next

/-- The last that the log says of `c` is that a coroutine of `__rec_wait`
has polled for it, and that the poll has thrown. -/
def LostToPoll (c : ℕ) (log : List (Event V ε)) : Prop :=
  ∃ r e, Awaits c log (.answered (.error e)) ∧ .polled c (some r) (some (.error e)) ∈ log

/-- A poll is one of the awaitable that its coroutine awaits, and the
world changes by it once. A coroutine goes on in its own continuation,
with the answer, and until then it stays suspended in this await. Besides
the polls only what a task does itself changes the world. -/
structure Delivers (poll : π → σ → Poll π V ε × σ) (s : State π V ε σ) (a : Unit)
    (s' : State π V ε σ) : Prop where
  polled : ∀ c caller x, .polled c caller x ∈ s.emits poll a →
    ∃ p next, s.AwaitsPoll c p next ∧ x = (poll p s.world).1.answer ∧
      s'.world = (poll p s.world).2
  goesOn : ∀ c x, .goesOn c x ∈ s.emits poll a →
    ∃ p next rest, s.AwaitsPoll c p next ∧ s'.stack = .exec c (next x) :: rest
  waits : ∀ c p next, s.coros c = .waiting p next → (∀ x, .goesOn c x ∉ s.emits poll a) →
    ∃ p', s'.coros c = .waiting p' next
  world : (∀ c caller x, .polled c caller x ∉ s.emits poll a) → s'.world = s.world ∨
    ∃ c f b rest, s.stack = .exec c (.act f b) :: rest ∧ s'.world = f s.world

/-! ### Reading the log -/

section

variable {c r : ℕ} {log evs : List (Event V ε)} {ph ph' : Phase V ε} {l : Life}

theorem Phase.Next.unique {ev : Event V ε} {ph₁ ph₂ : Phase V ε} (h₁ : Next c ph ev ph₁)
    (h₂ : Next c ph ev ph₂) : ph₁ = ph₂ := by
  cases h₁ <;> cases h₂ <;> first | rfl | contradiction

theorem Awaits.unique (h : Awaits c log ph) (h' : Awaits c log ph') : ph = ph' :=
  Trace.unique h h' fun _ _ _ _ => Phase.Next.unique

theorem Awaits.others (h : Awaits c log ph) (hevs : ∀ ev ∈ evs, ¬ ev.About c) :
    Awaits c (log ++ evs) ph :=
  h.stutter fun ev hev => .other (hevs ev hev)

theorem Lives.others (h : Lives r log l) (hevs : ∀ ev ∈ evs, ¬ ev.Of r) :
    Lives r (log ++ evs) l :=
  h.stutter fun ev hev => .other (hevs ev hev)

theorem LostToPoll.others (h : LostToPoll c log) (hevs : ∀ ev ∈ evs, ¬ ev.About c) :
    LostToPoll c (log ++ evs) := by
  obtain ⟨r, e, hlog, hmem⟩ := h
  exact ⟨r, e, Awaits.others hlog hevs, List.mem_append_left _ hmem⟩

end

/-! ### What a step emits -/

section

variable {poll : π → σ → Poll π V ε × σ} {s s' : State π V ε σ} {c d : ℕ} {x : Coro π V ε σ}

theorem emits_loops {f : Frame π V ε σ} {rest : Stack π V ε σ} (ht : s.stack = f :: rest)
    (hf : Loops s.coros f) : s.emits poll () = s.nextRec := by
  cases f with
  | runForever => simp [State.emits, ht]
  | awaitLoop c child next =>
      cases hc : s.coros child with
      | finished v => exact absurd ⟨v, hc⟩ hf
      | _ => simp [State.emits, ht, hc]
  | _ => exact absurd hf id

theorem emits_finish {b : Body π V ε σ} {v : Except ε V} {rest : Stack π V ε σ}
    (ht : s.stack = .exec c b :: rest) (hb : b.result = some v) : s.emits poll () = [] := by
  cases b with
  | coReturn | throw => simp [State.emits, ht]
  | _ => cases hb

/-- The steps that end the run emit nothing. -/
theorem emits_halts (hs : Trans poll s s') (hrun : s.outcome = .running)
    (hout : s'.outcome ≠ .running) : s.emits poll () = [] := by
  cases hs with
  | @runBad f rest e q ht hf hq hstart hrec =>
      rw [emits_loops ht hf, State.nextRec, hq]
      cases hc : s.coros e.coro with
      | recWait d => exact absurd hc (hrec d)
      | _ => simp [hc]
  | returned ht hq => simp [State.emits, ht, State.nextRec, hq]
  | awaitEmpty ht hc hq => rw [emits_loops ht hc, State.nextRec, hq]
  | terminated ht hc => simp [State.emits, ht, hc]
  | @recBad rest r d ht hc =>
      cases hd : s.coros d with
      | waiting p next => exact absurd hd (hc p next)
      | _ => simp [State.emits, ht, hd]
  | enqueue | spin | runTask | runRec | leaveOwned | leave | finish | recReturn | act | pollReady
  | pollThrew | recThrew | resumed | recReady | pollLater | recLater | await =>
      exact absurd hrun hout

theorem returned_step (hs : Trans poll s s') (hrun : s.outcome = .running)
    (hout : s'.outcome = .returned) :
    (∃ rest, s.stack = .runForever :: rest) ∧ s.queue = [] := by
  cases hs with
  | returned ht hq => exact ⟨⟨_, ht⟩, hq⟩
  | runBad | awaitEmpty | terminated | recBad => cases hout
  | enqueue | spin | runTask | runRec | leaveOwned | leave | finish | recReturn | act | pollReady
  | pollThrew | recThrew | resumed | recReady | pollLater | recLater | await =>
      cases hrun.symm.trans hout

/-- An exception in the log is one that a poll has thrown. -/
theorem threw_of_emits {a : Unit} {caller : Option ℕ} {e : ε}
    (h : .polled c caller (some (.error e)) ∈ s.emits poll a) :
    ∃ p, (poll p s.world).1.answer = some (.error e) := by
  have hnext : .polled c caller (some (.error e)) ∉ s.nextRec := by
    cases hq : s.queue with
    | nil => simp [State.nextRec, hq]
    | cons e' q => cases hc : s.coros e'.coro <;> simp [State.nextRec, hq, hc]
  cases ht : s.stack with
  | nil => simp [State.emits, ht] at h
  | cons f rest =>
      cases f with
      | exec d b =>
          cases b with
          | poll p next =>
              refine ⟨p, ?_⟩
              simp only [State.emits, ht] at h
              split at h <;> simp_all
          | _ => simp [State.emits, ht] at h
      | recWait r d =>
          cases hc : s.coros d with
          | waiting p next =>
              refine ⟨p, ?_⟩
              simp only [State.emits, ht, hc] at h
              split at h <;> simp_all
          | _ => simp [State.emits, ht, hc] at h
      | runForever => exact absurd (by simpa [State.emits, ht] using h) hnext
      | awaitLoop d child next =>
          cases hc : s.coros child with
          | finished v => simp [State.emits, ht, hc] at h
          | _ => exact absurd (by simpa [State.emits, ht, hc] using h) hnext
      | runOne e' =>
          obtain ⟨r, o⟩ := e'
          cases o <;> simp [State.emits, ht] at h
      | push | recReturn => simp [State.emits, ht] at h

/-! ### What a step delivers -/

/-- A step without a poll. -/
theorem Delivers.quiet (hevs : ∀ ev ∈ s.emits poll (), ∀ c, ¬ ev.About c)
    (hworld : s'.world = s.world ∨
      ∃ c f b rest, s.stack = .exec c (.act f b) :: rest ∧ s'.world = f s.world)
    (hw : ∀ c p next, s.coros c = .waiting p next → s'.coros c = .waiting p next) :
    Delivers poll s () s' where
  polled c _ _ hmem := absurd rfl (hevs _ hmem c)
  goesOn c _ hmem := absurd rfl (hevs _ hmem c)
  waits c p next hc _ := ⟨p, hw c p next hc⟩
  world _ := hworld

theorem waiting_update {coros : ℕ → Coro π V ε σ} (hd : ∀ p next, coros d ≠ .waiting p next)
    (c : ℕ) (p : π) (next : Cont π V ε σ) (hc : coros c = .waiting p next) :
    Function.update coros d x c = .waiting p next := by
  rw [Function.update_of_ne, hc]
  rintro rfl
  exact hd p next hc

theorem waiting_created {coros : ℕ → Coro π V ε σ} {n : ℕ} (hn : coros n = .absent)
    (hd : coros d ≠ .absent) {p : π} {next : Cont π V ε σ}
    (hc : Function.update coros d x c = .waiting p next) :
    Function.update (Function.update coros d x) n (.recWait d) c = .waiting p next := by
  rw [Function.update_of_ne, hc]
  rintro rfl
  have hne : c ≠ d := by
    rintro rfl
    exact hd hn
  rw [Function.update_of_ne hne, hn] at hc
  cases hc

/-- A poll for `d` that is answered with `v`, after which `d` goes on. -/
theorem Delivers.answers (caller : Option ℕ) {v : Except ε V} {p : π} {next : Cont π V ε σ}
    {rest : Stack π V ε σ} (hev : s.emits poll () = [.polled d caller (some v), .goesOn d v])
    (hd : s.AwaitsPoll d p next) (hv : (poll p s.world).1.answer = some v)
    (hworld : s'.world = (poll p s.world).2) (hstack : s'.stack = .exec d (next v) :: rest)
    (hw : ∀ c p next, c ≠ d → s.coros c = .waiting p next → s'.coros c = .waiting p next) :
    Delivers poll s () s' := by
  constructor
  · intro c caller' x hmem
    simp only [hev, List.mem_cons, Event.polled.injEq, reduceCtorEq, List.not_mem_nil,
      or_false] at hmem
    obtain ⟨rfl, rfl, rfl⟩ := hmem
    exact ⟨p, next, hd, hv.symm, hworld⟩
  · intro c x hmem
    simp only [hev, List.mem_cons, Event.goesOn.injEq, reduceCtorEq, List.not_mem_nil,
      or_false, false_or] at hmem
    obtain ⟨rfl, rfl⟩ := hmem
    exact ⟨p, next, rest, hd, hstack⟩
  · intro c p' next' hc hgoes
    have hne : c ≠ d := by
      rintro rfl
      exact hgoes v (by simp [hev])
    exact ⟨p', hw c p' next' hne hc⟩
  · exact fun hnone => absurd (by simp [hev]) (hnone d caller (some v))

/-- A poll for `d` after which `d` does not go on. -/
theorem Delivers.suspends (caller : Option ℕ) {p : π} {next : Cont π V ε σ}
    (hpoll : .polled d caller (poll p s.world).1.answer ∈ s.emits poll ())
    (hev : ∀ ev ∈ s.emits poll (), ev = .polled d caller (poll p s.world).1.answer ∨
      ∃ r, ev = .created r d) (hd : s.AwaitsPoll d p next)
    (hworld : s'.world = (poll p s.world).2)
    (hself : ∀ q next, s.coros d = .waiting q next → ∃ p', s'.coros d = .waiting p' next)
    (hw : ∀ c p next, c ≠ d → s.coros c = .waiting p next → s'.coros c = .waiting p next) :
    Delivers poll s () s' := by
  constructor
  · intro c caller' x hmem
    rcases hev _ hmem with he | ⟨r, he⟩
    · cases he
      exact ⟨p, next, hd, rfl, hworld⟩
    · cases he
  · intro c x hmem
    rcases hev _ hmem with he | ⟨r, he⟩ <;> cases he
  · intro c q next' hc _
    rcases eq_or_ne c d with rfl | hne
    · exact hself q next' hc
    · exact ⟨q, hw c q next' hne hc⟩
  · exact fun hnone => absurd hpoll (hnone _ _ _)

end

end JowiAsio.EventLoop

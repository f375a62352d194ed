import JowiAsio.Lib.Census
import JowiAsio.Workers.Transitions

/-!
Where a coroutine is.

An entry of the queue and a frame of a worker *name* the coroutines that
they will resume or that run in them. The invariant `Kept` counts: a
coroutine that is about to run, runs or is suspended in `LoopAwaitable` is
named once, over the queue and the stacks of all workers, and any other
coroutine is not named at all. So when a coroutine is not in the hand of a
worker it is in the queue, or it has come to an end.

They also *own* the coroutines that they destroy, none twice, which keeps
the child of a `TaskAwaitable` from being destroyed by anything else.
-/

namespace JowiAsio.Workers

open Lib
open EventLoop (Body Cont Entry Poll)

variable {π V ε σ : Type}

/-! ### What a frame names and owns -/

/-- The coroutine that a `__rec_wait` for `h` resumes. There is none when
`h` has been destroyed in the meantime. -/
def waitingFor (coros : ℕ → Coro π V ε σ) (h : ℕ) : List ℕ :=
  match coros h with
  | .waiting _ _ => [h]
  | _ => []

def Frame.names (coros : ℕ → Coro π V ε σ) : Frame π V ε σ → List ℕ
  | .push e =>
      match coros e.coro with
      | .recWait h => e.coro :: waitingFor coros h
      | _ => [e.coro]
  | .exec c _ | .finish c _ | .test c _ _ | .take c _ _ | .resume c _ _ => [c]
  | .recWait r h => r :: waitingFor coros h
  | .recReturn r => [r]
  | .runOne _ => []

def Frame.owns : Frame π V ε σ → List ℕ
  | .push ⟨c, true⟩ | .runOne ⟨c, true⟩ => [c]
  | .test _ child _ | .take _ child _ | .resume _ child _ => [child]
  | _ => []

/-- How often a coroutine in this state is named. -/
def Coro.placed : Coro π V ε σ → ℕ
  | .start _ | .running | .completing _ | .waiting _ _ | .recWait _ | .recRunning => 1
  | _ => 0

/-- The coroutine of a task that has not been destroyed. -/
def Coro.IsTask : Coro π V ε σ → Prop
  | .start _ | .running | .completing _ | .waiting _ _ | .lost | .finished _ => True
  | _ => False

/-- The coroutine has been resumed, and has not been destroyed. -/
def Coro.Resumed : Coro π V ε σ → Prop
  | .running | .completing _ | .waiting _ _ | .lost | .finished _ | .recRunning | .recFinished =>
      True
  | _ => False

/-- A coroutine that a `__rec_wait` polls for. -/
def Coro.Awaited (x : Coro π V ε σ) : Prop := (∃ p next, x = .waiting p next) ∨ x = .destroyed

/-- The coroutines that a frame names or owns are in the states that it
needs. -/
def Frame.Alive (coros : ℕ → Coro π V ε σ) : Frame π V ε σ → Prop
  | .runOne e => e.owning = true → (coros e.coro).Resumed
  | .push e =>
      (∃ b, coros e.coro = .start b) ∨ ∃ h, coros e.coro = .recWait h ∧ (coros h).Awaited
  | .exec c _ => coros c = .running
  | .finish c r => coros c = .completing r
  | .test c child _ | .take c child _ => coros c = .running ∧ (coros child).IsTask
  | .resume c child _ => coros c = .running ∧ ∃ r, coros child = .finished r
  | .recWait r h => coros r = .recRunning ∧ (coros h).Awaited
  | .recReturn r => coros r = .recRunning

/-- The entries of the queue, as frames that are about to push them, and
the frames of the workers. -/
def Shared.holders (s : Shared π V ε σ) (frames : List (Frame π V ε σ)) :
    List (Frame π V ε σ) :=
  s.queue.map .push ++ frames

structure Kept (s : Shared π V ε σ) (frames : List (Frame π V ε σ)) : Prop where
  alive : ∀ f ∈ s.holders frames, f.Alive s.coros
  names : ∀ c, ((s.holders frames).flatMap (Frame.names s.coros)).count c = (s.coros c).placed
  owns : ∀ c, ((s.holders frames).flatMap Frame.owns).count c ≤ 1
  owned : ∀ c ∈ (s.holders frames).flatMap Frame.owns, c < s.created
  fresh : ∀ c, s.created ≤ c → s.coros c = .absent

/-! ### One frame when coroutines change their states -/

/-- What the owner of a coroutine relies on stays true. -/
structure Coro.Follows (x y : Coro π V ε σ) : Prop where
  task : x.IsTask → y.IsTask
  resumed : x.Resumed → y.Resumed
  finished : ∀ r, x = .finished r → y = .finished r

section

variable {coros coros' : ℕ → Coro π V ε σ} {f : Frame π V ε σ}

theorem Coro.Follows.refl (x : Coro π V ε σ) : x.Follows x := ⟨id, id, fun _ => id⟩

theorem waitingFor_congr {h : ℕ} (ha : (coros h).Awaited)
    (hsame : ∀ c ∈ waitingFor coros h, coros' c = coros c)
    (hgone : coros h = .destroyed → coros' h = .destroyed) :
    waitingFor coros' h = waitingFor coros h ∧ (coros' h).Awaited := by
  rcases ha with ⟨p, next, hw⟩ | hd
  · have hw' : coros' h = .waiting p next := by
      rw [hsame h (by simp [waitingFor, hw]), hw]
    exact ⟨by simp [waitingFor, hw, hw'], .inl ⟨p, next, hw'⟩⟩
  · have hd' := hgone hd
    exact ⟨by simp [waitingFor, hd, hd'], .inr hd'⟩

/-- A frame is left as it is when no coroutine that it names changes, and
those that it owns go on in a way their owner can bear. -/
theorem Frame.Alive.congr (h : f.Alive coros) (hnames : ∀ c ∈ f.names coros, coros' c = coros c)
    (hgone : ∀ c, coros c = .destroyed → coros' c = .destroyed)
    (howns : ∀ c ∈ f.owns, (coros c).Follows (coros' c)) :
    f.Alive coros' ∧ f.names coros' = f.names coros := by
  cases f with
  | runOne e =>
      obtain ⟨c, o⟩ := e
      refine ⟨fun ho => ?_, rfl⟩
      obtain rfl : o = true := ho
      exact (howns c List.mem_cons_self).resumed (h rfl)
  | push e =>
      rcases h with ⟨b, hb⟩ | ⟨y, hy, ha⟩
      · have hb' : coros' e.coro = .start b := by rw [hnames _ (by simp [names, hb]), hb]
        exact ⟨.inl ⟨b, hb'⟩, by simp only [names, hb, hb']⟩
      · simp only [names, hy] at hnames
        have hy' := (hnames _ List.mem_cons_self).trans hy
        obtain ⟨hsame, ha'⟩ := waitingFor_congr ha
          (fun c hc => hnames c (List.mem_cons_of_mem _ hc)) (hgone y)
        exact ⟨.inr ⟨y, hy', ha'⟩, by simp only [names, hy, hy', hsame]⟩
  | exec c b => exact ⟨(hnames c List.mem_cons_self).trans h, rfl⟩
  | finish c r => exact ⟨(hnames c List.mem_cons_self).trans h, rfl⟩
  | test c child next | take c child next =>
      exact ⟨⟨(hnames c List.mem_cons_self).trans h.1,
        (howns child List.mem_cons_self).task h.2⟩, rfl⟩
  | resume c child next =>
      obtain ⟨hc, r, hr⟩ := h
      exact ⟨⟨(hnames c List.mem_cons_self).trans hc, r,
        (howns child List.mem_cons_self).finished r hr⟩, rfl⟩
  | recWait r y =>
      obtain ⟨hr, ha⟩ := h
      obtain ⟨hsame, ha'⟩ := waitingFor_congr ha
        (fun c hc => hnames c (List.mem_cons_of_mem _ hc)) (hgone y)
      exact ⟨⟨(hnames r List.mem_cons_self).trans hr, ha'⟩, by simp only [names, hsame]⟩
  | recReturn r => exact ⟨(hnames r List.mem_cons_self).trans h, rfl⟩

end

/-! ### Replacing a few frames -/

/-- With the frames `O` out of the way, the coroutine `c` may go to the
state `x`: they name it, or nothing does, and what they do not own goes on
in a way its owner can bear. -/
structure Moves (O : List (Frame π V ε σ)) (coros : ℕ → Coro π V ε σ) (c : ℕ)
    (x : Coro π V ε σ) : Prop where
  changed : x = coros c ∨ c ∈ O.flatMap (Frame.names coros) ∨ (coros c).placed = 0
  gone : coros c = .destroyed → x = .destroyed
  follows : c ∉ O.flatMap Frame.owns → (coros c).Follows x

section

variable {O N H : List (Frame π V ε σ)} {coros coros' : ℕ → Coro π V ε σ} {c : ℕ}
  {x : Coro π V ε σ}

theorem Moves.refl (O : List (Frame π V ε σ)) (coros : ℕ → Coro π V ε σ) (c : ℕ) :
    Moves O coros c (coros c) :=
  ⟨.inl rfl, id, fun _ => .refl _⟩

/-- A new coroutine. -/
theorem Moves.of_absent (h : coros c = .absent) : Moves O coros c x where
  changed := .inr (.inr (by rw [h]; rfl))
  gone hd := by
    rw [h] at hd
    cases hd
  follows _ := by
    rw [h]
    exact ⟨False.elim, False.elim, fun _ hr => by cases hr⟩

theorem Moves.update (hc : Moves O coros c x) (h : ∀ d, Moves O coros d (coros' d)) (d : ℕ) :
    Moves O coros d (Function.update coros' c x d) := by
  by_cases hd : d = c
  · subst hd
    rwa [Function.update_self]
  · rw [Function.update_of_ne hd]
    exact h d

variable {s s' : Shared π V ε σ} {F F' : List (Frame π V ε σ)}

/-- What one frame names or owns, no other one does. -/
theorem Kept.apart (h : Kept s F) (hO : (s.holders F).Perm (O ++ H)) {g : Frame π V ε σ}
    (hg : g ∈ H) :
    (∀ c ∈ g.names s.coros, c ∉ O.flatMap (Frame.names s.coros) ∧ (s.coros c).placed ≠ 0) ∧
      ∀ c ∈ g.owns, c ∉ O.flatMap Frame.owns := by
  refine ⟨fun c hc => ⟨?_, ?_⟩, fun c hc => not_named_of_rest hO (h.owns c) hg hc⟩
  · refine not_named_of_rest hO ?_ hg hc
    rw [h.names c]
    cases s.coros c <;> simp [Coro.placed]
  · have hpos := count_flatMap_pos (hO.mem_iff.2 (List.mem_append_right _ hg)) hc
    rw [h.names c] at hpos
    exact Nat.ne_of_gt hpos

/-- `s'` has the frames `N` where `s` had `O`, and the frames `H` of both
are as they were. -/
theorem Kept.replace (h : Kept s F) (hO : (s.holders F).Perm (O ++ H))
    (hN : (s'.holders F').Perm (N ++ H)) (hmoves : ∀ c, Moves O s.coros c (s'.coros c))
    (halive : ∀ g ∈ N, g.Alive s'.coros)
    (hnames : ∀ c, (N.flatMap (Frame.names s'.coros)).count c + (s.coros c).placed =
      (O.flatMap (Frame.names s.coros)).count c + (s'.coros c).placed)
    (howns : ∀ c, (N.flatMap Frame.owns).count c ≤ (O.flatMap Frame.owns).count c ∨
      s.created ≤ c ∧ c < s'.created ∧ (N.flatMap Frame.owns).count c ≤ 1)
    (hcreated : s.created ≤ s'.created)
    (hfresh : ∀ c, s'.created ≤ c → s'.coros c = .absent) : Kept s' F' := by
  have hkeeps : ∀ g ∈ H, g.Alive s'.coros ∧ g.names s'.coros = g.names s.coros := by
    intro g hg
    obtain ⟨hapart, hapart'⟩ := h.apart hO hg
    refine (h.alive g (hO.mem_iff.2 (List.mem_append_right _ hg))).congr (fun c hc => ?_)
      (fun c => (hmoves c).gone) fun c hc => (hmoves c).follows (hapart' c hc)
    rcases (hmoves c).changed with hsame | hmem | hzero
    · exact hsame
    · exact absurd hmem (hapart c hc).1
    · exact absurd hzero (hapart c hc).2
  -- what is owned after the step, and what was before
  have howned : ∀ c, ((s'.holders F').flatMap Frame.owns).count c ≤
        ((s.holders F).flatMap Frame.owns).count c ∨
      s.created ≤ c ∧ c < s'.created ∧ ((s'.holders F').flatMap Frame.owns).count c ≤ 1 := by
    intro c
    have hstep : ((s'.holders F').flatMap Frame.owns).count c + (O.flatMap Frame.owns).count c =
        ((s.holders F).flatMap Frame.owns).count c + (N.flatMap Frame.owns).count c :=
      count_replace hO hN (fun _ _ => rfl) c
    rcases howns c with hle | ⟨hge, hlt, hle⟩
    · exact .inl (by omega)
    · have hzero : ((s.holders F).flatMap Frame.owns).count c = 0 :=
        List.count_eq_zero.2 fun hmem => absurd (h.owned c hmem) (by omega)
      exact .inr ⟨hge, hlt, by omega⟩
  refine ⟨fun f hf => ?_, fun c => ?_, fun c => ?_, fun c hc => ?_, hfresh⟩
  · rcases List.mem_append.1 (hN.mem_iff.1 hf) with hf | hf
    · exact halive f hf
    · exact (hkeeps f hf).1
  · have hbefore := h.names c
    have hreplaced := count_replace hO hN (fun g hg => (hkeeps g hg).2) c
    have hstep := hnames c
    omega
  · rcases howned c with hle | ⟨-, -, hle⟩
    · exact Nat.le_trans hle (h.owns c)
    · exact hle
  · rcases howned c with hle | ⟨-, hlt, -⟩
    · have hpos := List.count_pos_iff.2 hc
      have hlt := h.owned c (List.count_pos_iff.1 (by omega))
      omega
    · exact hlt

theorem Kept.lt_created (h : Kept s F) (hc : s.coros c ≠ .absent) : c < s.created :=
  Nat.lt_of_not_le fun hge => hc (h.fresh c hge)

/-- One coroutine changes its state: only for this one the counts have to
be looked at. -/
theorem count_update {A B : List ℕ} (hc : A.count c + (coros c).placed = B.count c + x.placed)
    (hother : ∀ d, d ≠ c → A.count d = B.count d) (d : ℕ) :
    A.count d + (coros d).placed = B.count d + (Function.update coros c x d).placed := by
  by_cases hd : d = c
  · subst hd
    rwa [Function.update_self]
  · rw [Function.update_of_ne hd, hother d hd]

end

/-! ### The topmost frame of a worker -/

section

variable {poll : π → σ → Poll π V ε × σ} {s s' : Shared π V ε σ} {f : Frame π V ε σ}
  {N rest : List (Frame π V ε σ)} {c : ℕ} {x : Coro π V ε σ}

/-- The frame `f` is replaced by `N`, and the queue stays as it is. -/
theorem Kept.top (h : Kept s (f :: rest)) (hq : s'.queue = s.queue)
    (hmoves : ∀ c, Moves [f] s.coros c (s'.coros c)) (halive : ∀ g ∈ N, g.Alive s'.coros)
    (hnames : ∀ c, (N.flatMap (Frame.names s'.coros)).count c + (s.coros c).placed =
      (f.names s.coros).count c + (s'.coros c).placed)
    (howns : ∀ c, (N.flatMap Frame.owns).count c ≤ f.owns.count c ∨
      s.created ≤ c ∧ c < s'.created ∧ (N.flatMap Frame.owns).count c ≤ 1)
    (hcreated : s.created ≤ s'.created)
    (hfresh : ∀ c, s'.created ≤ c → s'.coros c = .absent) : Kept s' (N ++ rest) := by
  refine h.replace (O := [f]) (N := N) (H := s.queue.map .push ++ rest) List.perm_middle ?_
    hmoves halive (fun c => ?_) (fun c => ?_) hcreated hfresh
  · rw [Shared.holders, hq, ← List.append_assoc, ← List.append_assoc]
    exact List.perm_append_comm.append_right rest
  · rw [List.flatMap_singleton]
    exact hnames c
  · rw [List.flatMap_singleton]
    exact howns c

/-- No coroutine changes. -/
theorem Kept.same (h : Kept s (f :: rest)) (hq : s'.queue = s.queue) (hcoros : s'.coros = s.coros)
    (hcreated : s'.created = s.created) (halive : ∀ g ∈ N, g.Alive s.coros)
    (hnames : ∀ c, (N.flatMap (Frame.names s.coros)).count c = (f.names s.coros).count c)
    (howns : ∀ c, (N.flatMap Frame.owns).count c ≤ f.owns.count c) : Kept s' (N ++ rest) := by
  refine h.top hq (fun c => ?_) (hcoros ▸ halive) (fun c => ?_) (fun c => .inl (howns c))
    (Nat.le_of_eq hcreated.symm) fun c hc => ?_
  · rw [hcoros]
    exact .refl _ _ c
  · rw [hcoros, hnames c]
  · rw [hcoros]
    exact h.fresh c (hcreated ▸ hc)

/-- One coroutine changes, and none is created. -/
theorem Kept.set (h : Kept s (f :: rest)) (hq : s'.queue = s.queue)
    (hcoros : s'.coros = Function.update s.coros c x) (hcreated : s'.created = s.created)
    (hne : s.coros c ≠ .absent) (hc : Moves [f] s.coros c x)
    (halive : ∀ g ∈ N, g.Alive s'.coros)
    (hcount : (N.flatMap (Frame.names s'.coros)).count c + (s.coros c).placed =
      (f.names s.coros).count c + x.placed)
    (hother : ∀ d, d ≠ c →
      (N.flatMap (Frame.names s'.coros)).count d = (f.names s.coros).count d)
    (howns : ∀ d, (N.flatMap Frame.owns).count d ≤ f.owns.count d) : Kept s' (N ++ rest) := by
  refine h.top hq (fun d => ?_) halive (fun d => ?_) (fun d => .inl (howns d))
    (Nat.le_of_eq hcreated.symm) fun d hd => ?_
  · rw [hcoros]
    exact hc.update (Moves.refl [f] s.coros) d
  · rw [hcoros] at hcount hother ⊢
    exact count_update hcount hother d
  · have hdc : d ≠ c := by
      rintro rfl
      exact hne (h.fresh d (hcreated ▸ hd))
    rw [hcoros, Function.update_of_ne hdc]
    exact h.fresh d (hcreated ▸ hd)

end

end JowiAsio.Workers

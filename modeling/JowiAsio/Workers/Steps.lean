import JowiAsio.Workers.Placement

/-!
The steps of a worker keep the invariant.

Each transition has its lemma, which says what happens to the frames and
to the one or two coroutines that change. The end of the loop of a
`TaskAwaitable` is the exception: there the child has to be at its final
suspend point, which is the hypothesis of `Kept.ended`.
-/

namespace JowiAsio.Workers

open Lib
open EventLoop (Body Cont Entry Poll)

variable {π V ε σ : Type} {poll : π → σ → Poll π V ε × σ} {s s' : Shared π V ε σ}

/-! ### `run_one` -/

section

variable {coros : ℕ → Coro π V ε σ} {O F rest : List (Frame π V ε σ)} {c : ℕ}
  {x y : Coro π V ε σ}

theorem Coro.Follows.of_resumed (ht : x.IsTask → y.IsTask) (hy : y.Resumed)
    (hx : ∀ r, x ≠ .finished r) : x.Follows y :=
  ⟨ht, fun _ => hy, fun r hr => absurd hr (hx r)⟩

/-- A coroutine that is named once goes on. -/
theorem Moves.of_named (hmem : c ∈ O.flatMap (Frame.names coros)) (hplaced : (coros c).placed ≠ 0)
    (ht : (coros c).IsTask → x.IsTask) (hx : x.Resumed) : Moves O coros c x where
  changed := .inr (.inl hmem)
  gone hd := absurd (by rw [hd]; rfl) hplaced
  follows _ := .of_resumed ht hx fun r hr => hplaced (by rw [hr]; rfl)

theorem Frame.owns_push (e : Entry) :
    (Frame.push e : Frame π V ε σ).owns = (Frame.runOne e : Frame π V ε σ).owns := by
  obtain ⟨c, o⟩ := e
  cases o <;> rfl

/-- `run_one` takes the entry `e`, and the frame `g` runs its coroutine. -/
theorem Kept.pop (h : Kept s F) {e : Entry} {q : List Entry} (hq : s.queue = e :: q)
    {g : Frame π V ε σ} (hplaced : (s.coros e.coro).placed = 1) (hx : x.Resumed)
    (hx' : x.placed = 1) (ht : (s.coros e.coro).IsTask → x.IsTask)
    (hg : g.Alive (Function.update s.coros e.coro x)) (hgowns : g.owns = [])
    (hgnames : g.names (Function.update s.coros e.coro x) = (Frame.push e).names s.coros) :
    Kept ((s.setQueue q).setCoro e.coro x) (g :: .runOne e :: F) := by
  have hne : s.coros e.coro ≠ .absent := fun habsent => by simp [habsent, Coro.placed] at hplaced
  have hmem : e.coro ∈ (Frame.push e).names s.coros := by
    simp only [Frame.names]
    split <;> exact List.mem_cons_self
  have hNnames : ∀ coros : ℕ → Coro π V ε σ,
      [g, .runOne e].flatMap (Frame.names coros) = g.names coros := fun coros => by
    simp [Frame.names]
  have hNowns : [g, .runOne e].flatMap Frame.owns = (Frame.push e : Frame π V ε σ).owns := by
    simp [hgowns, Frame.owns_push]
  refine h.replace (O := [.push e]) (N := [g, .runOne e]) (H := q.map .push ++ F) ?_ ?_ ?_ ?_ ?_
    (fun c => .inl ?_) (Nat.le_refl _) fun c hc => ?_
  · rw [Shared.holders, hq]
    exact List.Perm.refl _
  · exact List.perm_append_comm_assoc (q.map .push) [g, .runOne e] F
  · refine Moves.update (.of_named ?_ (by omega) ht hx) (Moves.refl _ s.coros)
    rw [List.flatMap_singleton]
    exact hmem
  · refine List.forall_mem_cons.2 ⟨hg, List.forall_mem_singleton.2 fun _ => ?_⟩
    simpa using hx
  · refine count_update ?_ fun d _ => ?_
    · rw [hNnames, List.flatMap_singleton]
      simp only [Shared.setCoro_coros, Shared.setQueue_coros, hgnames, hplaced, hx']
    · rw [hNnames, List.flatMap_singleton]
      simp only [Shared.setCoro_coros, Shared.setQueue_coros, hgnames]
  · exact Nat.le_of_eq (by rw [hNowns, List.flatMap_singleton])
  · have hlt := h.lt_created hne
    rw [Shared.setCoro_coros, Function.update_of_ne (by simp at hc; omega)]
    exact h.fresh c hc

theorem Kept.runs {below st : Stack π V ε σ} (h : Kept s (below ++ rest))
    (hr : Runs s below s' st) : Kept s' (st ++ rest) := by
  cases hr with
  | start hq hc =>
      refine h.pop hq (by rw [hc]; rfl) trivial rfl (fun _ => trivial) ?_ rfl ?_
      · exact Function.update_self ..
      · simp only [Frame.names, hc]
  | @recWait e q y hq hc =>
      have halive : (Frame.push e).Alive s.coros :=
        h.alive _ (by simp [Shared.holders, hq])
      have ha : (s.coros y).Awaited := by
        rcases halive with ⟨b, hb⟩ | ⟨y', hy', ha⟩
        · rw [hc] at hb
          cases hb
        · rw [hc] at hy'
          cases hy'
          exact ha
      have hye : y ≠ e.coro := by
        rintro rfl
        rcases ha with ⟨p, next, hw⟩ | hd
        · rw [hc] at hw
          cases hw
        · rw [hc] at hd
          cases hd
      refine h.pop hq (by rw [hc]; rfl) trivial rfl (fun ht => by rw [hc] at ht; exact ht.elim) ?_
        rfl ?_
      · refine ⟨Function.update_self .., ?_⟩
        rwa [Function.update_of_ne hye]
      · simp only [Frame.names, hc, waitingFor, Function.update_of_ne hye]

/-- The queue and the stacks hold what they held before. -/
theorem Kept.perm {F' : List (Frame π V ε σ)} (h : Kept s F) (hcoros : s'.coros = s.coros)
    (hcreated : s'.created = s.created) (hp : (s'.holders F').Perm (s.holders F)) : Kept s' F' where
  alive f hf := by
    rw [hcoros]
    exact h.alive f (hp.mem_iff.1 hf)
  names c := by
    rw [hcoros, (hp.flatMap_right _).count_eq c]
    exact h.names c
  owns c := by
    rw [(hp.flatMap_right _).count_eq c]
    exact h.owns c
  owned c hc := by
    rw [hcreated]
    exact h.owned c ((hp.flatMap_right _).mem_iff.1 hc)
  fresh c hc := by
    rw [hcoros]
    exact h.fresh c (hcreated ▸ hc)

theorem Kept.push {e : Entry} (h : Kept s (.push e :: rest)) :
    Kept (s.setQueue (s.queue ++ [e])) rest := by
  refine h.perm rfl rfl ?_
  simp [Shared.holders]

/-- `run_one` returns, and its entry does not own the coroutine. -/
theorem Kept.leave {e : Entry} (h : Kept s (.runOne e :: rest)) : Kept s rest :=
  h.same (N := []) rfl rfl rfl (List.forall_mem_nil _) (fun _ => rfl)
    fun _ => Nat.zero_le _

/-- `run_one` destroys a coroutine that is not in `LoopAwaitable`. -/
theorem Kept.leaveEnded (h : Kept s (.runOne ⟨c, true⟩ :: rest))
    (hzero : (s.coros c).placed = 0) : Kept (s.setCoro c .destroyed) rest := by
  have hlt : c < s.created := h.owned c (by simp [Shared.holders, Frame.owns])
  have hresumed : (s.coros c).Resumed := h.alive (.runOne ⟨c, true⟩) (by simp [Shared.holders]) rfl
  refine h.set (N := []) (c := c) (x := .destroyed) rfl rfl rfl
    (fun habsent => by rw [habsent] at hresumed; exact hresumed) ?_
    (List.forall_mem_nil _) ?_ (fun _ _ => rfl) fun _ => Nat.zero_le _
  · exact ⟨.inr (.inr hzero), fun _ => rfl, fun hmem => absurd (by simp [Frame.owns]) hmem⟩
  · rw [hzero]
    rfl

/-- A frame that names a coroutine in `LoopAwaitable` is a `__rec_wait`
that polls for it, and it stays alive when that coroutine is destroyed. -/
theorem Frame.Alive.of_destroyed {g : Frame π V ε σ} (h : g.Alive coros) {p : π}
    {next : Cont π V ε σ} (hc : coros c = .waiting p next) (hmem : c ∈ g.names coros) :
    g.Alive (Function.update coros c .destroyed) ∧
      ∃ r, r ≠ c ∧ g.names coros = [r, c] ∧
        g.names (Function.update coros c .destroyed) = [r] := by
  have hne : ∀ {d : ℕ} {z : Coro π V ε σ}, coros d = z → (∀ p next, z ≠ .waiting p next) →
      d ≠ c := by
    rintro d z hd hz rfl
    exact hz p next (hd.symm.trans hc)
  have hnot : ∀ {d : ℕ} {z : Coro π V ε σ}, coros d = z → (∀ p next, z ≠ .waiting p next) →
      c ∉ [d] := fun hd hz hmem => hne hd hz (List.mem_singleton.1 hmem).symm
  -- `r` is the coroutine of the `__rec_wait`, and it polls for `y`
  have hrec : ∀ {r y : ℕ} {z : Coro π V ε σ}, coros r = z → (∀ p next, z ≠ .waiting p next) →
      c ∈ r :: waitingFor coros y → y = c ∧ r ≠ c := by
    intro r y z hr hz hmem
    have hrc := hne hr hz
    refine ⟨?_, hrc⟩
    have hy := (List.mem_cons.1 hmem).resolve_left fun h => hrc h.symm
    unfold waitingFor at hy
    split at hy
    · exact (List.mem_singleton.1 hy).symm
    · exact absurd hy List.not_mem_nil
  cases g with
  | push e =>
      rcases h with ⟨b, hb⟩ | ⟨y, hy, -⟩
      · simp only [names, hb] at hmem
        exact absurd hmem (hnot hb fun _ _ hz => by cases hz)
      · simp only [names, hy] at hmem
        obtain ⟨rfl, hr⟩ := hrec hy (fun _ _ hz => by cases hz) hmem
        have hy' := (Function.update_of_ne hr .destroyed coros).trans hy
        refine ⟨.inr ⟨y, hy', .inr (Function.update_self ..)⟩, e.coro, hr, ?_, ?_⟩
        · simp only [names, hy, waitingFor, hc]
        · simp only [names, hy', waitingFor, Function.update_self]
  | recWait r y =>
      obtain ⟨hr, -⟩ := h
      obtain ⟨rfl, hry⟩ := hrec hr (fun _ _ hz => by cases hz) hmem
      have hr' := (Function.update_of_ne hry .destroyed coros).trans hr
      refine ⟨⟨hr', .inr (Function.update_self ..)⟩, r, hry, ?_, ?_⟩
      · simp only [names, waitingFor, hc]
      · simp only [names, waitingFor, Function.update_self]
  | exec d b => exact absurd hmem (hnot h fun _ _ hz => by cases hz)
  | finish d r => exact absurd hmem (hnot h fun _ _ hz => by cases hz)
  | test d child next => exact absurd hmem (hnot h.1 fun _ _ hz => by cases hz)
  | take d child next => exact absurd hmem (hnot h.1 fun _ _ hz => by cases hz)
  | resume d child next => exact absurd hmem (hnot h.1 fun _ _ hz => by cases hz)
  | recReturn r => exact absurd hmem (hnot h fun _ _ hz => by cases hz)
  | runOne e => exact absurd hmem List.not_mem_nil

/-- `run_one` destroys a coroutine that a `__rec_wait` still polls for. -/
theorem Kept.leaveWaiting (h : Kept s (.runOne ⟨c, true⟩ :: rest)) {p : π} {next : Cont π V ε σ}
    (hc : s.coros c = .waiting p next) : Kept (s.setCoro c .destroyed) rest := by
  have hcount := h.names c
  have hmem : c ∈ (s.holders (.runOne ⟨c, true⟩ :: rest)).flatMap (Frame.names s.coros) := by
    refine List.count_pos_iff.1 ?_
    rw [hcount, hc]
    exact Nat.one_pos
  obtain ⟨g, hg, hcg⟩ := List.mem_flatMap.1 hmem
  -- the frame or entry `g` of the `__rec_wait` is looked at together with `run_one`
  have hmiddle : (s.holders (.runOne ⟨c, true⟩ :: rest)).Perm
      (.runOne ⟨c, true⟩ :: s.holders rest) := List.perm_middle
  have hg' : g ∈ s.holders rest := by
    rcases List.mem_cons.1 (hmiddle.mem_iff.1 hg) with rfl | hg
    · exact absurd hcg List.not_mem_nil
    · exact hg
  obtain ⟨l₁, l₂, hl⟩ := List.append_of_mem hg'
  have hsplit : (s.holders rest).Perm (g :: (l₁ ++ l₂)) := hl ▸ List.perm_middle
  obtain ⟨halive, r, hr, hbefore, hafter⟩ := (h.alive g hg).of_destroyed hc hcg
  have hlt : c < s.created := h.lt_created (by simp [hc])
  refine h.replace (O := [.runOne ⟨c, true⟩, g]) (N := [g]) (H := l₁ ++ l₂) ?_ hsplit ?_ ?_ ?_
    (fun d => .inl ?_) (Nat.le_refl _) fun d hd => ?_
  · exact hmiddle.trans (hsplit.cons _)
  · refine Moves.update ⟨.inr (.inl ?_), fun _ => rfl, fun hmem => absurd ?_ hmem⟩ (Moves.refl _ _)
    · simpa [Frame.names] using hcg
    · simp [Frame.owns]
  · exact List.forall_mem_singleton.2 halive
  · have hnames : ∀ coros : ℕ → Coro π V ε σ,
        [.runOne ⟨c, true⟩, g].flatMap (Frame.names coros) = g.names coros := fun coros => by
      simp [Frame.names]
    rw [hnames]
    refine count_update ?_ fun d hd => ?_
    · simp [hbefore, hafter, hc, hr, Coro.placed]
    · simp [hbefore, hafter, List.count_cons, hd.symm]
  · simp only [List.flatMap_cons, List.flatMap_nil, List.count_append]
    omega
  · rw [Shared.setCoro_coros, Function.update_of_ne (by simp at hd; omega)]
    exact h.fresh d hd

theorem Kept.leaveOwned {e : Entry} (h : Kept s (.runOne e :: rest)) (ho : e.owning = true)
    (hc : (s.coros e.coro).Suspended) : Kept (s.setCoro e.coro .destroyed) rest := by
  obtain ⟨c, o⟩ := e
  obtain rfl : o = true := ho
  have hresumed : (s.coros c).Resumed := h.alive (.runOne ⟨c, true⟩) (by simp [Shared.holders]) rfl
  cases hx : s.coros c with
  | waiting p next => exact h.leaveWaiting hx
  | lost | finished | recFinished => exact h.leaveEnded (by rw [hx]; rfl)
  | start | recWait | absent | destroyed =>
      rw [hx] at hresumed
      exact hresumed.elim
  | running | completing | recRunning =>
      exact absurd hc (by simp [hx, Coro.Suspended])

end

/-! ### What coroutines do -/

section

variable {rest N : List (Frame π V ε σ)} {f : Frame π V ε σ} {c r y : ℕ} {b : Body π V ε σ}
  {p : π} {next : Cont π V ε σ} {w : σ}

theorem Kept.alive_top (h : Kept s (f :: rest)) : f.Alive s.coros :=
  h.alive f (List.mem_append_right _ List.mem_cons_self)

/-- A coroutine that its frame names goes on to the state `x`. -/
theorem Moves.of_top {coros : ℕ → Coro π V ε σ} {x : Coro π V ε σ} (hmem : c ∈ f.names coros)
    (hplaced : (coros c).placed = 1) (ht : (coros c).IsTask → x.IsTask) (hx : x.Resumed) :
    Moves [f] coros c x := by
  refine .of_named ?_ (by omega) ht hx
  rwa [List.flatMap_singleton]

/-- `co_return` and an exception store the result and set the flag. -/
theorem Kept.emplace (h : Kept s (.exec c b :: rest)) (r : Except ε V) :
    Kept (s.setCoro c (.completing r)) (.finish c r :: rest) := by
  have hc : s.coros c = .running := h.alive_top
  refine h.set (N := [.finish c r]) (c := c) rfl rfl rfl (by simp [hc]) ?_ ?_ ?_ (fun _ _ => rfl)
    fun _ => Nat.le_refl _
  · exact .of_top List.mem_cons_self (by rw [hc]; rfl) (fun _ => trivial) trivial
  · exact List.forall_mem_singleton.2 (Function.update_self ..)
  · rw [hc]
    rfl

/-- The coroutine is suspended at its final suspend point. -/
theorem Kept.finish {r : Except ε V} (h : Kept s (.finish c r :: rest)) :
    Kept (s.setCoro c (.finished r)) rest := by
  have hc : s.coros c = .completing r := h.alive_top
  refine h.set (N := []) (c := c) rfl rfl rfl (by simp [hc]) ?_
    (List.forall_mem_nil _) ?_ ?_ fun _ => Nat.le_refl _
  · exact .of_top List.mem_cons_self (by rw [hc]; rfl) (fun _ => trivial) trivial
  · simp [hc, Frame.names, Coro.placed]
  · intro d hd
    simp [Frame.names, hd.symm]

theorem Kept.recReturn (h : Kept s (.recReturn r :: rest)) :
    Kept (s.setCoro r .recFinished) rest := by
  have hr : s.coros r = .recRunning := h.alive_top
  refine h.set (N := []) (c := r) rfl rfl rfl (by simp [hr]) ?_
    (List.forall_mem_nil _) ?_ ?_ fun _ => Nat.le_refl _
  · refine .of_top List.mem_cons_self (by rw [hr]; rfl) (fun ht => ?_) trivial
    rw [hr] at ht
    exact ht.elim
  · simp [hr, Frame.names, Coro.placed]
  · intro d hd
    simp [Frame.names, hd.symm]

/-- The parent reads the value, and the `TaskAwaitable` destroys the
child. -/
theorem Kept.awaitResume {child : ℕ} {r : Except ε V}
    (h : Kept s (.resume c child next :: rest)) (hr : s.coros child = .finished r) :
    Kept (s.setCoro child .destroyed) (.exec c b :: rest) := by
  have hc : s.coros c = .running := h.alive_top.1
  have hne : c ≠ child := by
    rintro rfl
    rw [hc] at hr
    cases hr
  refine h.set (N := [.exec c b]) (c := child) rfl rfl rfl (by simp [hr]) ?_ ?_ ?_
    (fun _ _ => rfl) fun _ => Nat.zero_le _
  · exact ⟨.inr (.inr (by rw [hr]; rfl)), fun _ => rfl,
      fun hmem => absurd (by simp [Frame.owns]) hmem⟩
  · exact List.forall_mem_singleton.2 ((Function.update_of_ne hne _ _).trans hc)
  · rw [hr]
    rfl

/-! ### Polls inside `__rec_wait` -/

theorem Kept.names_recWait (h : Kept s (.recWait r y :: rest)) (hy : s.coros y = .waiting p next) :
    s.coros r = .recRunning ∧ r ≠ y ∧ (Frame.recWait r y).names s.coros = [r, y] := by
  have hr : s.coros r = .recRunning := h.alive_top.1
  refine ⟨hr, ?_, by simp only [Frame.names, waitingFor, hy]⟩
  rintro rfl
  rw [hr] at hy
  cases hy

theorem Kept.recReady (h : Kept s (.recWait r y :: rest)) (hy : s.coros y = .waiting p next) :
    Kept ((s.setWorld w).setCoro y .running) (.exec y b :: .recReturn r :: rest) := by
  obtain ⟨hr, hne, hnames⟩ := h.names_recWait hy
  refine h.set (N := [.exec y b, .recReturn r]) (c := y) rfl rfl rfl (by simp [hy]) ?_ ?_ ?_ ?_
    fun _ => Nat.zero_le _
  · exact .of_top (by simp [hnames]) (by rw [hy]; rfl) (fun _ => trivial) trivial
  · refine List.forall_mem_cons.2 ⟨Function.update_self .., List.forall_mem_singleton.2 ?_⟩
    exact (Function.update_of_ne hne _ _).trans hr
  · rw [hnames, hy]
    exact congrArg (· + 1) ((List.Perm.swap r y []).count_eq y)
  · intro d _
    rw [hnames]
    exact (List.Perm.swap r y []).count_eq d

/-- The poll throws, and nothing resumes the coroutine `y` any more. -/
theorem Kept.recThrew (h : Kept s (.recWait r y :: rest)) (hy : s.coros y = .waiting p next) :
    Kept ((s.setWorld w).setCoro y .lost) (.recReturn r :: rest) := by
  obtain ⟨hr, hne, hnames⟩ := h.names_recWait hy
  refine h.set (N := [.recReturn r]) (c := y) rfl rfl rfl (by simp [hy]) ?_ ?_ ?_ ?_
    fun _ => Nat.zero_le _
  · exact .of_top (by simp [hnames]) (by rw [hy]; rfl) (fun _ => trivial) trivial
  · exact List.forall_mem_singleton.2 ((Function.update_of_ne hne _ _).trans hr)
  · rw [hnames]
    simp [hy, hne, Frame.names, Coro.placed]
  · intro d hd
    rw [hnames]
    simp [Frame.names, List.count_cons, hd.symm]

end

/-! ### Coroutines that are created -/

section

variable {coros : ℕ → Coro π V ε σ} {rest N : List (Frame π V ε σ)} {f : Frame π V ε σ}
  {c r y : ℕ} {b : Body π V ε σ} {p p' : π} {next : Cont π V ε σ} {w : σ} {o : Bool}
  {x : Coro π V ε σ}

/-- A coroutine in the state `x` is created and about to be pushed. `A` is
what the other frames name that replace `f`. -/
theorem Kept.create (h : Kept s (f :: rest)) (hq : s'.queue = s.queue)
    (hcreated : s'.created = s.created + 1)
    (hcoros : s'.coros = Function.update coros s.created x) {A : List ℕ}
    (hmoves : ∀ d, Moves [f] s.coros d (coros d)) (hfresh : ∀ d, s.created ≤ d → coros d = .absent)
    (hx : x.placed = 1) (halive : ∀ g ∈ .push ⟨s.created, o⟩ :: N, g.Alive s'.coros)
    (hnames : (Frame.push ⟨s.created, o⟩ :: N).flatMap (Frame.names s'.coros) = s.created :: A)
    (hA : ∀ d, A.count d + (s.coros d).placed = (f.names s.coros).count d + (coros d).placed)
    (howns : (Frame.push ⟨s.created, o⟩ :: N).flatMap Frame.owns = [s.created]) :
    Kept s' (.push ⟨s.created, o⟩ :: N ++ rest) := by
  refine h.top hq (fun d => ?_) halive (fun d => ?_) (fun d => ?_) (by omega) fun d hd => ?_
  · rw [hcoros]
    exact Moves.update (.of_absent (h.fresh _ (Nat.le_refl _))) hmoves d
  · have hd := hA d
    rw [hnames, hcoros]
    by_cases hnew : d = s.created
    · subst hnew
      rw [h.fresh _ (Nat.le_refl _), hfresh _ (Nat.le_refl _)] at hd
      rw [Function.update_self, List.count_cons_self, hx, h.fresh _ (Nat.le_refl _)]
      simp only [Coro.placed] at hd ⊢
      omega
    · rw [Function.update_of_ne hnew, List.count_cons_of_ne (Ne.symm hnew)]
      exact hd
  · rw [howns]
    by_cases hnew : d = s.created
    · subst hnew
      exact .inr ⟨Nat.le_refl _, by omega, by simp⟩
    · exact .inl (by simp [Ne.symm hnew])
  · rw [hcoros, Function.update_of_ne (by omega)]
    exact hfresh d (by omega)

/-- `co_await` on a task: the child is created. -/
theorem Kept.await {child : Body π V ε σ} (h : Kept s (.exec c b :: rest)) :
    Kept (s.create (.start child))
      (.push ⟨s.created, false⟩ :: .test c s.created next :: rest) := by
  have hc : s.coros c = .running := h.alive_top
  have hlt := h.lt_created (c := c) (by simp [hc])
  refine h.create (N := [.test c s.created next]) (A := [c]) rfl rfl rfl (Moves.refl _ _) h.fresh
    rfl ?_ ?_ (fun _ => rfl) rfl
  · refine List.forall_mem_cons.2
      ⟨.inl ⟨child, Function.update_self ..⟩, List.forall_mem_singleton.2 ?_⟩
    refine ⟨(Function.update_of_ne (by omega) _ _).trans hc, ?_⟩
    rw [Shared.create_coros, Function.update_self]
    trivial
  · simp [Frame.names]

/-- A poll that is not ready suspends the coroutine. -/
theorem Kept.pollWaits (h : Kept s (.exec c b :: rest)) :
    Kept (((s.setWorld w).setCoro c (.waiting p' next)).create (.recWait c))
      (.push ⟨s.created, true⟩ :: rest) := by
  have hc : s.coros c = .running := h.alive_top
  have hlt := h.lt_created (c := c) (by simp [hc])
  refine h.create (N := []) (A := [c]) rfl rfl rfl (fun d => ?_) (fun d hd => ?_) rfl ?_ ?_
    (count_update ?_ fun _ _ => rfl) rfl
  · exact Moves.update (x := .waiting p' next)
      (.of_top List.mem_cons_self (by rw [hc]; rfl) (fun _ => trivial) trivial) (Moves.refl _ _) d
  · exact (Function.update_of_ne (by omega) _ _).trans (h.fresh d hd)
  · intro g hg
    obtain rfl := List.mem_singleton.1 hg
    refine .inr ⟨c, Function.update_self .., .inl ⟨p', next, ?_⟩⟩
    simp [Function.update_of_ne (Nat.ne_of_lt hlt)]
  · simp [Frame.names, waitingFor, Nat.ne_of_lt hlt]
  · rw [hc]
    rfl

/-- A poll inside `__rec_wait` is not ready: there is another one. -/
theorem Kept.recAgain (h : Kept s (.recWait r y :: rest)) (hy : s.coros y = .waiting p next) :
    Kept (((s.setWorld w).setCoro y (.waiting p' next)).create (.recWait y))
      (.push ⟨s.created, true⟩ :: .recReturn r :: rest) := by
  obtain ⟨hr, hne, hnames⟩ := h.names_recWait hy
  have hlt := h.lt_created (c := y) (by simp [hy])
  have hlt' := h.lt_created (c := r) (by simp [hr])
  refine h.create (N := [.recReturn r]) (A := [y, r]) rfl rfl rfl (fun d => ?_) (fun d hd => ?_) rfl
    ?_ ?_ (count_update ?_ fun d _ => ?_) rfl
  · exact Moves.update (x := .waiting p' next)
      (.of_top (by simp [hnames]) (by rw [hy]; rfl) (fun _ => trivial) trivial) (Moves.refl _ _) d
  · exact (Function.update_of_ne (by omega) _ _).trans (h.fresh d hd)
  · refine List.forall_mem_cons.2 ⟨?_, List.forall_mem_singleton.2 ?_⟩
    · refine .inr ⟨y, Function.update_self .., .inl ⟨p', next, ?_⟩⟩
      simp [Function.update_of_ne (Nat.ne_of_lt hlt)]
    · refine (Function.update_of_ne (Nat.ne_of_lt hlt') _ _).trans ?_
      exact (Function.update_of_ne hne _ _).trans hr
  · simp [Frame.names, waitingFor, Nat.ne_of_lt hlt]
  · rw [hnames, hy]
    exact congrArg (· + 1) ((List.Perm.swap r y []).count_eq y)
  · rw [hnames]
    exact (List.Perm.swap r y []).count_eq d

/-- A task is pushed from outside. -/
theorem Kept.pushTask (h : Kept s N) {child : Body π V ε σ} :
    Kept ((s.create (.start child)).setQueue (s.queue ++ [⟨s.created, o⟩])) N := by
  refine h.replace (O := []) (N := [.push ⟨s.created, o⟩]) (H := s.holders N) (.refl _) ?_ ?_ ?_
    (fun d => ?_) (fun d => ?_) (Nat.le_succ _) fun d hd => ?_
  · simp only [Shared.holders, Shared.setQueue_queue, List.map_append, List.append_assoc,
      List.map_cons, List.map_nil]
    exact List.perm_append_comm_assoc _ _ _
  · exact Moves.update (.of_absent (h.fresh _ (Nat.le_refl _))) (Moves.refl _ _)
  · exact List.forall_mem_singleton.2 (.inl ⟨child, Function.update_self ..⟩)
  · by_cases hd : d = s.created
    · subst hd
      simp [Frame.names, h.fresh s.created (Nat.le_refl _), Coro.placed]
    · simp [Frame.names, hd, Ne.symm hd]
  · by_cases hd : d = s.created
    · subst hd
      exact .inr ⟨Nat.le_refl _, Nat.lt_succ_self _, by cases o <;> simp [Frame.owns]⟩
    · exact .inl (by cases o <;> simp [Frame.owns, Ne.symm hd])
  · simp only [Shared.setQueue_created, Shared.create_created] at hd
    rw [Shared.setQueue_coros, Shared.create_coros, Function.update_of_ne (by omega)]
    exact h.fresh d (by omega)

end

/-! ### All transitions -/

section

variable {rest : List (Frame π V ε σ)} {st st' : Stack π V ε σ}

/-- A coroutine goes on without changing its state. -/
theorem Kept.goOn {c : ℕ} {b b' : Body π V ε σ} {w : σ} (h : Kept s (.exec c b :: rest)) :
    Kept (s.setWorld w) (.exec c b' :: rest) := by
  have hc : s.coros c = .running := h.alive_top
  refine h.same (N := [.exec c b']) rfl rfl rfl (fun g hg => ?_) (fun _ => rfl)
    fun _ => Nat.le_refl _
  obtain rfl := List.mem_singleton.1 hg
  exact hc

/-- A frame makes way for one that names and owns the same. -/
theorem Kept.swap {f g : Frame π V ε σ} (h : Kept s (f :: rest)) (hg : g.Alive s.coros)
    (hnames : g.names s.coros = f.names s.coros) (howns : g.owns = f.owns) :
    Kept s (g :: rest) := by
  refine h.same (N := [g]) rfl rfl rfl (fun g' hg' => ?_) (fun c => ?_) fun c => ?_
  · obtain rfl := List.mem_singleton.1 hg'
    exact hg
  · rw [List.flatMap_singleton, hnames]
  · exact Nat.le_of_eq (by rw [List.flatMap_singleton, howns])

/-- A step of a worker keeps the invariant, if the child is at its final
suspend point when the loop of a `TaskAwaitable` ends. -/
theorem Kept.trans (h : Kept s (st ++ rest)) (ht : Trans poll s st s' st')
    (hend : ∀ child, EndsLoop s st child → ∃ r, s.coros child = .finished r) :
    Kept s' (st' ++ rest) := by
  cases ht with
  | idle => exact h
  | run hr =>
      have hidle : Kept s ([] ++ rest) := h
      exact hidle.runs hr
  | leave => exact h.leave
  | leaveOwned ho hc => exact h.leaveOwned ho hc
  | push => exact h.push
  | pushFull => exact h
  | coReturn | throw => exact h.emplace _
  | act | pollReady | pollThrew => exact h.goOn
  | pollWaits => exact h.pollWaits
  | await => exact h.await
  | finish => exact h.finish
  | complete hc =>
      exact h.swap ⟨h.alive_top.1, hend _ (.inl ⟨_, _, _, rfl, hc⟩)⟩ rfl rfl
  | incomplete => exact h.swap h.alive_top rfl rfl
  | exhausted hq =>
      exact h.swap ⟨h.alive_top.1, hend _ (.inr ⟨_, _, _, rfl, hq⟩)⟩ rfl rfl
  | @take c child next below _ _ hr =>
      have htest : Kept s (.test c child next :: below ++ rest) := h.swap h.alive_top rfl rfl
      exact htest.runs hr
  | awaitResume hc => exact h.awaitResume hc
  | recReady hy => exact h.recReady hy
  | recThrew hy => exact h.recThrew hy
  | recAgain hy => exact h.recAgain hy
  | recReturn => exact h.recReturn

end

end JowiAsio.Workers

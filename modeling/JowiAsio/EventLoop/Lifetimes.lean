import Mathlib.Data.List.Nodup
import JowiAsio.EventLoop.JobSteps

/-!
Which coroutines are alive, and who destroys them.

Every frame of the call stack and every entry of the queue *names* the
coroutines that it runs or will resume, and *owns* those that it will
destroy: `run_one` the coroutine of an owning entry, a `TaskAwaitable` its
child. The invariant `Kept` says that no coroutine is named twice or owned
twice, and that each is in the state that its frame needs. So a coroutine
is destroyed by one frame, and by `run_one` only at its final suspend
point.

This needs one condition: that no coroutine which a `run_one` on the stack
owns is suspended in `LoopAwaitable` (`SuspendsUnowned`). A poll may throw
here, which leaves its coroutine suspended for ever but alive.
-/

namespace JowiAsio.EventLoop

open Lib

variable {π V ε σ : Type}

/-! ### What a frame names and owns -/

def Frame.names (coros : ℕ → Coro π V ε σ) : Frame π V ε σ → List ℕ
  | .push e =>
      match coros e.coro with
      | .recWait h => [e.coro, h]
      | _ => [e.coro]
  | .exec c _ | .awaitLoop c _ _ => [c]
  | .recWait r h => [r, h]
  | .recReturn r => [r]
  | .runForever | .runOne _ => []

/-- What `CoroStateDeleter` destroys. -/
def Entry.owns (e : Entry) : List ℕ := if e.owning then [e.coro] else []

def Frame.owns : Frame π V ε σ → List ℕ
  | .push e | .runOne e => e.owns
  | .awaitLoop _ child _ => [child]
  | _ => []

/-- The coroutine has a frame on the stack. -/
def Coro.OnStack : Coro π V ε σ → Prop
  | .running | .recRunning => True
  | _ => False

/-- The coroutine is at its final suspend point. -/
def Coro.Ended : Coro π V ε σ → Prop
  | .finished _ | .recFinished => True
  | _ => False

/-- The coroutine is about to run, on the stack, or suspended. -/
def Coro.Live : Coro π V ε σ → Prop
  | .start _ | .running | .waiting _ _ | .recWait _ | .recRunning => True
  | _ => False

/-- The coroutines that a frame names or owns are in the states that it
needs. -/
def Frame.Alive (coros : ℕ → Coro π V ε σ) : Frame π V ε σ → Prop
  | .runForever => True
  | .runOne e => e.owning = true → (coros e.coro).OnStack ∨ (coros e.coro).Ended
  | .push e =>
      (∃ b, coros e.coro = .start b) ∨
        ∃ h p next, coros e.coro = .recWait h ∧ coros h = .waiting p next
  | .exec c _ => coros c = .running
  | .awaitLoop c child _ => coros c = .running ∧ (coros child).IsTask
  | .recWait r h => coros r = .recRunning ∧ ∃ p next, coros h = .waiting p next
  | .recReturn r => coros r = .recRunning

/-- `f` stands above `g`, so it is not the `run_one` that waits for what
`g` runs. -/
def Above (coros : ℕ → Coro π V ε σ) (f g : Frame π V ε σ) : Prop :=
  ∀ e, f = .runOne e → e.coro ∉ g.names coros

structure Kept (s : State π V ε σ) : Prop where
  alive : ∀ f ∈ s.holders, f.Alive s.coros
  names : (s.holders.flatMap (Frame.names s.coros)).Nodup
  owns : (s.holders.flatMap Frame.owns).Nodup
  onStack : ∀ c, (s.coros c).OnStack → c ∈ s.holders.flatMap (Frame.names s.coros)
  above : s.stack.Pairwise (Above s.coros)
  fresh : ∀ c, s.created ≤ c → s.coros c = .absent

/-- The condition on a step: a coroutine that a poll suspends is not owned
by a `run_one` on the stack. -/
def SuspendsUnowned (poll : π → σ → Poll π V ε × σ) (s : State π V ε σ) : Prop :=
  ∀ c p next rest p' w, s.stack = .exec c (.poll p next) :: rest →
    poll p s.world = (.notReady p', w) → .runOne ⟨c, true⟩ ∉ rest

/-! ### One frame when coroutines change their states -/

section

variable {coros coros' : ℕ → Coro π V ε σ} {f : Frame π V ε σ} {x : ℕ}

theorem Frame.names_congr (h : ∀ c ∈ f.names coros, coros' c = coros c) :
    f.names coros' = f.names coros := by
  cases f with
  | push e =>
      have he : coros' e.coro = coros e.coro := by
        refine h _ ?_
        cases hc : coros e.coro <;> simp [names, hc]
      simp only [names, he]
  | _ => rfl

/-- A frame is left as it is when no coroutine that it names changes, and
those that it owns go to states in which their owner may find them. -/
theorem Frame.Alive.congr (h : f.Alive coros) (hnames : ∀ c ∈ f.names coros, coros' c = coros c)
    (htask : ∀ c ∈ f.owns, (coros c).IsTask → (coros' c).IsTask)
    (howned : ∀ c, f = .runOne ⟨c, true⟩ → (coros c).OnStack ∨ (coros c).Ended →
      (coros' c).OnStack ∨ (coros' c).Ended) : f.Alive coros' := by
  cases f with
  | runForever => trivial
  | runOne e =>
      intro ho
      exact howned e.coro (by rw [← ho]) (h ho)
  | push e =>
      rcases h with ⟨b, hb⟩ | ⟨y, p, next, hy, hw⟩
      · exact .inl ⟨b, by rw [hnames _ (by simp [names, hb]), hb]⟩
      · exact .inr ⟨y, p, next, by rw [hnames _ (by simp [names, hy]), hy],
          by rw [hnames _ (by simp [names, hy]), hw]⟩
  | exec c b => exact (hnames c (by simp [names])).trans h
  | awaitLoop c child next =>
      exact ⟨(hnames c (by simp [names])).trans h.1, htask child (by simp [owns]) h.2⟩
  | recWait r y =>
      obtain ⟨hr, p, next, hw⟩ := h
      exact ⟨(hnames r (by simp [names])).trans hr, p, next,
        (hnames y (by simp [names])).trans hw⟩
  | recReturn r => exact (hnames r (by simp [names])).trans h

theorem Frame.Alive.live (h : f.Alive coros) (hx : x ∈ f.names coros) : (coros x).Live := by
  cases f with
  | push e =>
      rcases h with ⟨b, hb⟩ | ⟨y, p, next, hy, hw⟩
      · obtain rfl : x = e.coro := by simpa [names, hb] using hx
        simp [hb, Coro.Live]
      · rcases (show x = e.coro ∨ x = y by simpa [names, hy] using hx) with rfl | rfl
        · simp [hy, Coro.Live]
        · simp [hw, Coro.Live]
  | exec c b =>
      obtain rfl : x = c := by simpa [names] using hx
      simp [show coros x = .running from h, Coro.Live]
  | awaitLoop c child next =>
      obtain rfl : x = c := by simpa [names] using hx
      simp [h.1, Coro.Live]
  | recWait r y =>
      obtain ⟨hr, p, next, hw⟩ := h
      rcases (show x = r ∨ x = y by simpa [names] using hx) with rfl | rfl
      · simp [hr, Coro.Live]
      · simp [hw, Coro.Live]
  | recReturn r =>
      obtain rfl : x = r := by simpa [names] using hx
      simp [show coros x = .recRunning from h, Coro.Live]
  | runForever | runOne => simp [names] at hx

theorem Coro.Live.ne_absent {v : Coro π V ε σ} (h : v.Live) : v ≠ .absent := by
  rintro rfl
  exact h

theorem Coro.Live.ne_destroyed {v : Coro π V ε σ} (h : v.Live) : v ≠ .destroyed := by
  rintro rfl
  exact h

theorem Coro.Live.not_ended {v : Coro π V ε σ} (h : v.Live) : ¬ v.Ended := by
  cases v <;> first | exact id | exact absurd h id

theorem Entry.mem_owns {e : Entry} : x ∈ e.owns ↔ e = ⟨x, true⟩ := by
  obtain ⟨c, o⟩ := e
  cases o <;> simp [owns, eq_comm]

theorem Frame.Alive.owned (h : f.Alive coros) (hx : x ∈ f.owns) : coros x ≠ .absent := by
  intro habsent
  cases f with
  | push e =>
      obtain rfl := Entry.mem_owns.1 hx
      exact (h.live (x := x) (by simp [names, habsent])).ne_absent habsent
  | runOne e =>
      obtain rfl := Entry.mem_owns.1 hx
      simpa [habsent, Coro.OnStack, Coro.Ended] using h rfl
  | awaitLoop c child next =>
      obtain rfl : x = child := by simpa [owns] using hx
      simpa [habsent, Coro.IsTask] using h.2
  | exec | recWait | recReturn | runForever => simp [owns] at hx

end

/-! ### Replacing a few frames -/

section

variable {s s' : State π V ε σ} {O N H : List (Frame π V ε σ)}

theorem Above.congr {coros coros' : ℕ → Coro π V ε σ} {l : Stack π V ε σ}
    (h : l.Pairwise (Above coros)) (hsame : ∀ g ∈ l, g.names coros' = g.names coros) :
    l.Pairwise (Above coros') :=
  h.imp_of_mem fun _ hg hfg e he => hsame _ hg ▸ hfg e he

theorem Above.enter_all {coros : ℕ → Coro π V ε σ} {rest : Stack π V ε σ}
    (hN : ∀ g ∈ N, ∀ e, g ≠ .runOne e) (h : rest.Pairwise (Above coros)) :
    (N ++ rest).Pairwise (Above coros) := by
  induction N with
  | nil => exact h
  | cons g N ih =>
      obtain ⟨hg, hN⟩ := List.forall_mem_cons.1 hN
      exact List.pairwise_cons.2 ⟨fun _ _ e he => absurd he (hg e), ih hN⟩

/-- What one frame names or owns, no other one does. -/
theorem Kept.apart (h : Kept s) (hO : s.holders.Perm (O ++ H)) {g : Frame π V ε σ} (hg : g ∈ H) :
    (∀ c ∈ g.names s.coros, c ∉ O.flatMap (Frame.names s.coros)) ∧
      ∀ c ∈ g.owns, c ∉ O.flatMap Frame.owns := by
  have hnames := (hO.flatMap_right (Frame.names s.coros)).nodup_iff.1 h.names
  have howns := (hO.flatMap_right Frame.owns).nodup_iff.1 h.owns
  rw [List.flatMap_append, List.nodup_append] at hnames howns
  constructor
  · intro c hc hcO
    exact hnames.2.2 c hcO c (List.mem_flatMap.2 ⟨g, hg, hc⟩) rfl
  · intro c hc hcO
    exact howns.2.2 c hcO c (List.mem_flatMap.2 ⟨g, hg, hc⟩) rfl

/-- `s'` has the frames `N` where `s` had `O`, and the frames `H` of both
are as they were: only coroutines change that the frames `O` name, or that
are new, or that they own and that have ended. -/
structure Replaces (s s' : State π V ε σ) (O N H : List (Frame π V ε σ)) : Prop where
  before : s.holders.Perm (O ++ H)
  after : s'.holders.Perm (N ++ H)
  changed : ∀ c, s'.coros c = s.coros c ∨ c ∈ O.flatMap (Frame.names s.coros) ∨
    s.coros c = .absent ∨ c ∈ O.flatMap Frame.owns ∧ (s.coros c).Ended
  task : ∀ c, c ∉ O.flatMap Frame.owns → (s.coros c).IsTask → (s'.coros c).IsTask
  owned : ∀ c, c ∉ O.flatMap Frame.owns → .runOne ⟨c, true⟩ ∈ H →
    (s.coros c).OnStack ∨ (s.coros c).Ended → (s'.coros c).OnStack ∨ (s'.coros c).Ended

theorem Replaces.keeps (hr : Replaces s s' O N H) (h : Kept s) {g : Frame π V ε σ} (hg : g ∈ H) :
    g.Alive s'.coros ∧ g.names s'.coros = g.names s.coros := by
  have halive : g.Alive s.coros :=
    h.alive g (hr.before.mem_iff.2 (List.mem_append_right _ hg))
  obtain ⟨hnames, howns⟩ := h.apart hr.before hg
  have hsame : ∀ c ∈ g.names s.coros, s'.coros c = s.coros c := by
    intro c hc
    have hlive := halive.live hc
    rcases hr.changed c with hsame | hO | habsent | ⟨-, he⟩
    · exact hsame
    · exact absurd hO (hnames c hc)
    · exact absurd habsent hlive.ne_absent
    · exact absurd he hlive.not_ended
  refine ⟨halive.congr hsame (fun c hc => hr.task c (howns c hc)) fun c hgc => ?_,
    Frame.names_congr hsame⟩
  subst hgc
  exact hr.owned c (howns c (Entry.mem_owns.2 rfl)) hg

theorem nodup_append_of_mem {α : Type*} {old new rest : List α} (h : (old ++ rest).Nodup)
    (hnew : new.Nodup) (hsub : ∀ x ∈ new, x ∈ old ∨ x ∉ rest) : (new ++ rest).Nodup := by
  rw [List.nodup_append] at h ⊢
  refine ⟨hnew, h.2.1, fun x hx y hy hxy => ?_⟩
  subst hxy
  rcases hsub x hx with hold | hrest
  · exact h.2.2 x hold x hy rfl
  · exact hrest hy

theorem Kept.replace (h : Kept s) (hr : Replaces s s' O N H)
    (halive : ∀ g ∈ N, g.Alive s'.coros) (hnames : (N.flatMap (Frame.names s'.coros)).Nodup)
    (hnamed : ∀ c ∈ N.flatMap (Frame.names s'.coros),
      c ∈ O.flatMap (Frame.names s.coros) ∨ s.coros c = .absent)
    (howns : (N.flatMap Frame.owns).Nodup)
    (howned : ∀ c ∈ N.flatMap Frame.owns, c ∈ O.flatMap Frame.owns ∨ s.coros c = .absent)
    (honStack : ∀ c, (s'.coros c).OnStack → c ∈ N.flatMap (Frame.names s'.coros) ∨
      (s.coros c).OnStack ∧ c ∉ O.flatMap (Frame.names s.coros))
    (habove : s'.stack.Pairwise (Above s'.coros))
    (hfresh : ∀ c, s'.created ≤ c → s'.coros c = .absent) : Kept s' := by
  have hH : H.flatMap (Frame.names s'.coros) = H.flatMap (Frame.names s.coros) :=
    List.flatMap_congr fun g hg => (hr.keeps h hg).2
  have hnew : ∀ c, s.coros c = .absent →
      c ∉ H.flatMap (Frame.names s.coros) ∧ c ∉ H.flatMap Frame.owns := by
    intro c habsent
    constructor
    · intro hc
      obtain ⟨g, hg, hcg⟩ := List.mem_flatMap.1 hc
      have halive := h.alive g (hr.before.mem_iff.2 (List.mem_append_right _ hg))
      exact (halive.live hcg).ne_absent habsent
    · intro hc
      obtain ⟨g, hg, hcg⟩ := List.mem_flatMap.1 hc
      exact (h.alive g (hr.before.mem_iff.2 (List.mem_append_right _ hg))).owned hcg habsent
  have hnamesO := (hr.before.flatMap_right (Frame.names s.coros)).nodup_iff.1 h.names
  have hownsO := (hr.before.flatMap_right Frame.owns).nodup_iff.1 h.owns
  rw [List.flatMap_append] at hnamesO hownsO
  have hafter := hr.after.flatMap_right (Frame.names s'.coros)
  rw [List.flatMap_append, hH] at hafter
  refine ⟨fun f hf => ?_, ?_, ?_, fun c hc => ?_, habove, hfresh⟩
  · rcases List.mem_append.1 (hr.after.mem_iff.1 hf) with hf | hf
    · exact halive f hf
    · exact (hr.keeps h hf).1
  · refine hafter.nodup_iff.2 (nodup_append_of_mem hnamesO hnames fun c hc => ?_)
    exact (hnamed c hc).imp_right fun habsent => (hnew c habsent).1
  · refine (hr.after.flatMap_right Frame.owns).nodup_iff.2 ?_
    rw [List.flatMap_append]
    refine nodup_append_of_mem hownsO howns fun c hc => ?_
    exact (howned c hc).imp_right fun habsent => (hnew c habsent).2
  · refine hafter.mem_iff.2 (List.mem_append.2 ?_)
    rcases honStack c hc with hN | ⟨hold, hO⟩
    · exact .inl hN
    · have hmem := (hr.before.flatMap_right (Frame.names s.coros)).mem_iff.1 (h.onStack c hold)
      rw [List.flatMap_append, List.mem_append] at hmem
      exact .inr (hmem.resolve_left hO)

end

/-! ### The frame on top of the stack -/

section

variable {poll : π → σ → Poll π V ε × σ} {s s' : State π V ε σ} {f : Frame π V ε σ}
  {rest N : Stack π V ε σ}

/-- The frame `f` on top of the stack is replaced by `N`. -/
theorem Kept.top (h : Kept s) (ht : s.stack = f :: rest) (hq : s'.queue = s.queue)
    (hstack : s'.stack = N ++ rest) (hN : ∀ g ∈ N, ∀ e, g ≠ .runOne e)
    (changed : ∀ c, s'.coros c = s.coros c ∨ c ∈ f.names s.coros ∨ s.coros c = .absent ∨
      c ∈ f.owns ∧ (s.coros c).Ended)
    (task : ∀ c, c ∉ f.owns → (s.coros c).IsTask → (s'.coros c).IsTask)
    (owned : ∀ c, c ∉ f.owns → .runOne ⟨c, true⟩ ∈ rest →
      (s.coros c).OnStack ∨ (s.coros c).Ended → (s'.coros c).OnStack ∨ (s'.coros c).Ended)
    (halive : ∀ g ∈ N, g.Alive s'.coros) (hnames : (N.flatMap (Frame.names s'.coros)).Nodup)
    (hnamed : ∀ c ∈ N.flatMap (Frame.names s'.coros), c ∈ f.names s.coros ∨ s.coros c = .absent)
    (howns : (N.flatMap Frame.owns).Nodup)
    (howned : ∀ c ∈ N.flatMap Frame.owns, c ∈ f.owns ∨ s.coros c = .absent)
    (honStack : ∀ c, (s'.coros c).OnStack → c ∈ N.flatMap (Frame.names s'.coros) ∨
      (s.coros c).OnStack ∧ c ∉ f.names s.coros)
    (hfresh : ∀ c, s'.created ≤ c → s'.coros c = .absent) : Kept s' := by
  have hr : Replaces s s' [f] N (s.queue.map .push ++ rest) := by
    refine ⟨holders_top ht, ?_, ?_, ?_, fun c hc hrun => ?_⟩
    · rw [State.holders, hq, hstack]
      exact List.perm_append_comm_assoc _ _ _
    · simpa using changed
    · simpa using task
    · exact owned c (by simpa using hc) (by simpa using hrun)
  refine h.replace hr halive hnames (by simpa using hnamed) howns (by simpa using howned)
    (by simpa using honStack) ?_ hfresh
  rw [hstack]
  have habove := h.above
  rw [ht] at habove
  exact Above.enter_all hN (Above.congr habove.of_cons fun g hg =>
    (hr.keeps h (List.mem_append_right _ hg)).2)

theorem Kept.alive_top (h : Kept s) (ht : s.stack = f :: rest) : f.Alive s.coros :=
  h.alive f ((holders_top ht).mem_iff.2 List.mem_cons_self)

theorem Kept.running (h : Kept s) {c : ℕ} {b : Body π V ε σ} (ht : s.stack = .exec c b :: rest) :
    s.coros c = .running :=
  h.alive_top ht

theorem Kept.recRunning (h : Kept s) {r : ℕ} (ht : s.stack = .recReturn r :: rest) :
    s.coros r = .recRunning :=
  h.alive_top ht

theorem Kept.lt_created (h : Kept s) {c : ℕ} (hc : s.coros c ≠ .absent) : c < s.created :=
  Nat.lt_of_not_le fun hle => hc (h.fresh c hle)

/-- When `run_one` returns, what it ran is not on the stack. -/
theorem Kept.not_onStack (h : Kept s) {c : ℕ} {o : Bool} (ht : s.stack = .runOne ⟨c, o⟩ :: rest) :
    ¬ (s.coros c).OnStack := by
  intro hrun
  obtain ⟨g, hg, hcg⟩ := List.mem_flatMap.1 (h.onStack c hrun)
  have halive := h.alive g hg
  have habove := h.above
  rw [ht, List.pairwise_cons] at habove
  rw [State.holders, ht, List.mem_append, List.mem_cons] at hg
  rcases hg with hg | rfl | hg
  -- an entry of the queue names coroutines that are suspended
  · obtain ⟨e, -, rfl⟩ := List.mem_map.1 hg
    rcases halive with ⟨b, hb⟩ | ⟨y, p, next, hy, hw⟩
    · obtain rfl : c = e.coro := by simpa [Frame.names, hb] using hcg
      simp [hb, Coro.OnStack] at hrun
    · rcases (show c = e.coro ∨ c = y by simpa [Frame.names, hy] using hcg) with rfl | rfl
      · simp [hy, Coro.OnStack] at hrun
      · simp [hw, Coro.OnStack] at hrun
  · simp [Frame.names] at hcg
  · exact habove.1 g hg ⟨c, o⟩ rfl hcg

/-- A coroutine that `run_one` destroys is at its final suspend point. -/
theorem Kept.ended (h : Kept s) {c : ℕ} (ht : s.stack = .runOne ⟨c, true⟩ :: rest) :
    (s.coros c).Ended :=
  (h.alive_top ht rfl).resolve_left (h.not_onStack ht)

/-- The coroutine on top of the stack goes on, and no coroutine changes its
state. -/
theorem Kept.goOn (h : Kept s) {c : ℕ} {b b' : Body π V ε σ} {w : σ}
    (ht : s.stack = .exec c b :: rest) :
    Kept (((s.below rest).setWorld w).enter (.exec c b')) := by
  have hrunning := h.running ht
  refine h.top (N := [.exec c b']) ht rfl rfl (by simp) (fun _ => .inl rfl) (fun _ _ hc => hc)
    (fun _ _ _ hc => hc) ?_ ?_ ?_ ?_ ?_ ?_ h.fresh
  · simpa [Frame.Alive] using hrunning
  all_goals simp [Frame.names, Frame.owns]
  exact fun d hd => (eq_or_ne d c).imp_right fun hne => ⟨hd, hne⟩

/-- A frame returns, and the coroutine `c` goes to the state `x`. -/
theorem Kept.pop (h : Kept s) {c : ℕ} {x : Coro π V ε σ} (ht : s.stack = f :: rest)
    (hc : c ∈ f.names s.coros ∨ c ∈ f.owns ∧ (s.coros c).Ended)
    (hnames : ∀ d ∈ f.names s.coros, d = c) (htask : c ∉ f.owns → (s.coros c).IsTask → x.IsTask)
    (hended : c ∈ f.owns ∨ x.Ended) (hx : ¬ x.OnStack) (hlt : c < s.created) :
    Kept ((s.below rest).setCoro c x) := by
  refine h.top (N := []) ht rfl rfl (by simp) (fun d => ?_) (fun d hd hold => ?_)
    (fun d hd _ hold => ?_) (by simp) (by simp) (by simp) (by simp) (by simp) (fun d hd => ?_) ?_
  · rcases eq_or_ne d c with rfl | hne
    · exact .inr (hc.imp_right .inr)
    · exact .inl (by simp [hne])
  · rcases eq_or_ne d c with rfl | hne
    · simpa using htask hd hold
    · simpa [hne] using hold
  · rcases eq_or_ne d c with rfl | hne
    · exact .inr (by simpa using hended.resolve_left hd)
    · simpa [hne] using hold
  · rcases eq_or_ne d c with rfl | hne
    · exact absurd (by simpa using hd) hx
    · exact .inr ⟨by simpa [hne] using hd, fun hmem => hne (hnames d hmem)⟩
  · exact absent_update hlt h.fresh

theorem Kept.finish (h : Kept s) {c : ℕ} {b : Body π V ε σ} {r : Except ε V}
    (ht : s.stack = .exec c b :: rest) : Kept ((s.below rest).setCoro c (.finished r)) :=
  h.pop ht (.inl (by simp [Frame.names])) (by simp [Frame.names]) (fun _ _ => trivial)
    (.inr trivial) id (h.lt_created (by simp [h.running ht]))

theorem Kept.recReturn (h : Kept s) {r : ℕ} (ht : s.stack = .recReturn r :: rest) :
    Kept ((s.below rest).setCoro r .recFinished) := by
  have hrunning := h.recRunning ht
  exact h.pop ht (.inl (by simp [Frame.names])) (by simp [Frame.names])
    (by simp [hrunning, Coro.IsTask]) (.inr trivial) id (h.lt_created (by simp [hrunning]))

theorem Kept.leaveOwned (h : Kept s) {c : ℕ} (ht : s.stack = .runOne ⟨c, true⟩ :: rest) :
    Kept ((s.below rest).setCoro c .destroyed) := by
  have hended := h.ended ht
  have howns : c ∈ (Frame.runOne ⟨c, true⟩ : Frame π V ε σ).owns := by simp [Frame.owns, Entry.owns]
  exact h.pop ht (.inr ⟨howns, hended⟩) (by simp [Frame.names]) (absurd howns) (.inl howns) id
    (h.lt_created ((h.alive_top ht).owned howns))

theorem Kept.leave (h : Kept s) {c : ℕ} (ht : s.stack = .runOne ⟨c, false⟩ :: rest) :
    Kept (s.below rest) := by
  refine h.top (N := []) ht rfl rfl (by simp) (fun _ => .inl rfl) (fun _ _ hc => hc)
    (fun _ _ _ hc => hc) (by simp) (by simp) (by simp) (by simp) (by simp) ?_ h.fresh
  exact fun d hd => .inr ⟨hd, by simp [Frame.names]⟩

/-- The loop of `TaskAwaitable` ends, and its child is destroyed. -/
theorem Kept.resumed (h : Kept s) {c child : ℕ} {next : Cont π V ε σ} {v : V}
    (ht : s.stack = .awaitLoop c child next :: rest) (hchild : s.coros child = .finished (.ok v)) :
    Kept (((s.below rest).setCoro child .destroyed).enter (.exec c (next (.ok v)))) := by
  have hrunning : s.coros c = .running := (h.alive_top ht).1
  have hne : c ≠ child := by
    rintro rfl
    simp [hchild] at hrunning
  refine h.top (N := [.exec c (next (.ok v))]) ht rfl rfl (by simp) (fun d => ?_)
    (fun d hd hold => ?_) (fun d hd _ hold => ?_) ?_ (by simp [Frame.names])
    (by simp [Frame.names]) (by simp [Frame.owns]) (by simp [Frame.owns]) (fun d hd => ?_) ?_
  · rcases eq_or_ne d child with rfl | hd
    · exact .inr (.inr (.inr ⟨by simp [Frame.owns], by simp [hchild, Coro.Ended]⟩))
    · exact .inl (by simp [hd])
  · have hd' : d ≠ child := by simpa [Frame.owns] using hd
    simpa [hd'] using hold
  · have hd' : d ≠ child := by simpa [Frame.owns] using hd
    simpa [hd'] using hold
  · simpa [Frame.Alive, hne] using hrunning
  · rcases eq_or_ne d child with rfl | hd'
    · simp [Coro.OnStack] at hd
    · exact (eq_or_ne d c).imp (by simp [Frame.names]) fun hdc =>
        ⟨by simpa [hd'] using hd, by simpa [Frame.names] using hdc⟩
  · exact absent_update (h.lt_created (by simp [hchild])) h.fresh

theorem Kept.names_top (h : Kept s) (ht : s.stack = f :: rest) : (f.names s.coros).Nodup := by
  have hnames := ((holders_top ht).flatMap_right (Frame.names s.coros)).nodup_iff.1 h.names
  exact (List.nodup_append.1 hnames).1

/-- A coroutine that polls for `c` is created and pushed. `rs` is the
coroutine that polled before, if there is one. -/
theorem Kept.pollAgain (h : Kept s) {c : ℕ} (rs : List ℕ) {p : π} {next : Cont π V ε σ}
    (ht : s.stack = f :: rest) (hq : s'.queue = s.queue) (hcreated : s'.created = s.created + 1)
    (hcoros : s'.coros =
      Function.update (Function.update s.coros c (.waiting p next)) s.created (.recWait c))
    (hstack : s'.stack = (.push ⟨s.created, true⟩ :: rs.map .recReturn) ++ rest)
    (hrs : ∀ r ∈ rs, s.coros r = .recRunning) (hf : f.names s.coros = rs ++ [c])
    (hsuspends : .runOne ⟨c, true⟩ ∉ rest) (hc : (s.coros c).IsTask) : Kept s' := by
  have hold : c < s.created := by
    refine h.lt_created fun he => ?_
    simp [he, Coro.IsTask] at hc
  have habsent : s.coros s.created = .absent := h.fresh _ (Nat.le_refl _)
  have hr' : s'.coros s.created = .recWait c := by
    rw [hcoros, Function.update_self]
  have hc' : s'.coros c = .waiting p next := by
    rw [hcoros, Function.update_of_ne (by omega), Function.update_self]
  have hother : ∀ d, d ≠ c → d ≠ s.created → s'.coros d = s.coros d := by
    intro d hdc hd
    rw [hcoros, Function.update_of_ne hd, Function.update_of_ne hdc]
  have hback : ∀ r ∈ rs, r ≠ c ∧ r ≠ s.created := by
    intro r hr
    constructor <;> rintro rfl
    · simp [hrs _ hr, Coro.IsTask] at hc
    · simp [hrs _ hr] at habsent
  have hnames : ((.push ⟨s.created, true⟩ :: rs.map Frame.recReturn).flatMap
      (Frame.names s'.coros)) = s.created :: c :: rs := by
    simp [List.flatMap_map, Frame.names, hr']
  have howns : (.push ⟨s.created, true⟩ :: rs.map Frame.recReturn : Stack π V ε σ).flatMap
      Frame.owns = [s.created] := by
    have hnone : (rs.map Frame.recReturn : Stack π V ε σ).flatMap Frame.owns = [] :=
      List.flatMap_eq_nil_iff.2 (by simp [Frame.owns, Entry.owns])
    rw [List.flatMap_cons, hnone]
    rfl
  refine h.top ht hq hstack (by simp) (fun d => ?_) (fun d _ hd => ?_) (fun d _ hrun hd => ?_)
    ?_ ?_ ?_ ?_ ?_ (fun d hd => ?_) ?_
  · rcases eq_or_ne d c with rfl | hdc
    · exact .inr (.inl (by simp [hf]))
    · rcases eq_or_ne d s.created with rfl | hd
      · exact .inr (.inr (.inl habsent))
      · exact .inl (hother d hdc hd)
  · rcases eq_or_ne d c with rfl | hdc
    · rw [hc']
      trivial
    · rwa [hother d hdc]
      rintro rfl
      simp [habsent, Coro.IsTask] at hd
  · rwa [hother d]
    · rintro rfl
      exact hsuspends hrun
    · rintro rfl
      simp [habsent, Coro.OnStack, Coro.Ended] at hd
  · refine List.forall_mem_cons.2 ⟨.inr ⟨c, p, next, hr', hc'⟩, fun g hg => ?_⟩
    obtain ⟨r, hr, rfl⟩ := List.mem_map.1 hg
    exact (hother r (hback r hr).1 (hback r hr).2).trans (hrs r hr)
  · have hnodup := h.names_top ht
    rw [hf, List.nodup_append_comm, List.singleton_append] at hnodup
    rw [hnames]
    refine List.nodup_cons.2 ⟨fun hmem => ?_, hnodup⟩
    rcases List.mem_cons.1 hmem with he | hr
    · omega
    · exact (hback _ hr).2 rfl
  · intro d hd
    rw [hnames, List.mem_cons] at hd
    rcases hd with rfl | hd
    · exact .inr habsent
    · exact .inl (by simpa [hf, or_comm] using hd)
  · rw [howns]
    exact List.nodup_singleton _
  · intro d hd
    rw [howns, List.mem_singleton] at hd
    exact .inr (hd ▸ habsent)
  · rw [hnames]
    rcases eq_or_ne d c with rfl | hdc
    · simp
    · rcases eq_or_ne d s.created with rfl | hds
      · simp
      · by_cases hr : d ∈ rs
        · simp [hr]
        · exact .inr ⟨hother d hdc hds ▸ hd, by simp [hf, hr, hdc]⟩
  · rw [hcoros, hcreated]
    exact absent_update (by omega) fun d hd => absent_update (by omega)
      (fun e he => h.fresh e (by omega)) d hd

theorem Kept.await (h : Kept s) {c : ℕ} {child : Body π V ε σ} {next : Cont π V ε σ}
    (ht : s.stack = .exec c (.await child next) :: rest) :
    Kept (((s.below rest).enter (.awaitLoop c s.created next)).pushNew (.start child) false) := by
  have hrunning := h.running ht
  have habsent : s.coros s.created = .absent := h.fresh _ (Nat.le_refl _)
  have hold : c < s.created := h.lt_created (by simp [hrunning])
  have hother : ∀ d, s.coros d ≠ .absent →
      Function.update s.coros s.created (.start child) d = s.coros d := by
    intro d hd
    rw [Function.update_of_ne]
    rintro rfl
    exact hd habsent
  refine h.top (N := [.push ⟨s.created, false⟩, .awaitLoop c s.created next]) ht rfl rfl (by simp)
    (fun d => ?_) (fun d _ hd => ?_) (fun d _ _ hd => ?_) ?_ ?_ ?_ ?_ ?_ (fun d hd => ?_) ?_
  · rcases eq_or_ne d s.created with rfl | hd
    · exact .inr (.inr (.inl habsent))
    · exact .inl (by simp [hd])
  · simp only [State.pushNew_coros, State.enter_coros, State.enter_created, State.below_coros,
      State.below_created]
    rwa [hother]
    intro he
    simp [he, Coro.IsTask] at hd
  · simp only [State.pushNew_coros, State.enter_coros, State.enter_created, State.below_coros,
      State.below_created]
    rwa [hother]
    intro he
    simp [he, Coro.OnStack, Coro.Ended] at hd
  · refine List.forall_mem_cons.2 ⟨.inl ⟨child, by simp⟩, List.forall_mem_singleton.2 ⟨?_, ?_⟩⟩
    · exact (hother c (by simp [hrunning])).trans hrunning
    · simp [Coro.IsTask]
  · simp [Frame.names]
    omega
  · simp [Frame.names, habsent]
  · simp [Frame.owns, Entry.owns]
  · simp [Frame.owns, Entry.owns, habsent]
  · rcases eq_or_ne d s.created with rfl | hd'
    · simp [Coro.OnStack] at hd
    · exact (eq_or_ne d c).imp (by simp +contextual [Frame.names]) fun hdc =>
        ⟨by simpa [hd'] using hd, by simpa [Frame.names] using hdc⟩
  · exact absent_update (Nat.lt_succ_self _) fun d hd => h.fresh d (Nat.le_of_succ_le hd)

/-- `__rec_wait` finds the awaitable of `c` ready and resumes `c`. -/
theorem Kept.recReady (h : Kept s) {r c : ℕ} {b : Body π V ε σ} {w : σ}
    (ht : s.stack = .recWait r c :: rest) :
    Kept (((((s.below rest).setWorld w).setCoro c .running).enter (.recReturn r)).enter
      (.exec c b)) := by
  obtain ⟨hr, p, next, hw⟩ := h.alive_top ht
  have hne : r ≠ c := by
    rintro rfl
    simp [hw] at hr
  have hother : ∀ d, d ≠ c → Function.update s.coros c .running d = s.coros d :=
    fun d hd => Function.update_of_ne hd _ _
  refine h.top (N := [.exec c b, .recReturn r]) ht rfl rfl (by simp) (fun d => ?_)
    (fun d _ hd => ?_) (fun d _ _ hd => ?_) ?_ ?_ ?_ (by simp [Frame.owns]) (by simp [Frame.owns])
    (fun d hd => ?_) ?_
  · rcases eq_or_ne d c with rfl | hd
    · exact .inr (.inl (by simp [Frame.names]))
    · exact .inl (hother d hd)
  · rcases eq_or_ne d c with rfl | hdc
    · simp [Coro.IsTask]
    · simpa [hdc] using hd
  · rcases eq_or_ne d c with rfl | hdc
    · simp [Coro.OnStack]
    · simpa [hdc] using hd
  · exact List.forall_mem_cons.2 ⟨by simp [Frame.Alive],
      List.forall_mem_singleton.2 ((hother r hne).trans hr)⟩
  · simp [Frame.names, hne.symm]
  · simp +contextual [Frame.names]
  · rcases eq_or_ne d c with rfl | hdc
    · simp [Frame.names]
    · rcases eq_or_ne d r with rfl | hdr
      · simp [Frame.names]
      · exact .inr ⟨by simpa [hdc] using hd, by simp [Frame.names, hdc, hdr]⟩
  · exact absent_update (h.lt_created (by simp [hw])) h.fresh

/-- The poll throws, and nothing resumes `c`. -/
theorem Kept.recThrew (h : Kept s) {r c : ℕ} {w : σ} (ht : s.stack = .recWait r c :: rest) :
    Kept (((s.below rest).setWorld w).enter (.recReturn r)) := by
  obtain ⟨hr, p, next, hw⟩ := h.alive_top ht
  refine h.top (N := [.recReturn r]) ht rfl rfl (by simp) (fun _ => .inl rfl) (fun _ _ hd => hd)
    (fun _ _ _ hd => hd) (List.forall_mem_singleton.2 hr) (by simp [Frame.names])
    (by simp [Frame.names]) (by simp [Frame.owns]) (by simp [Frame.owns]) (fun d hd => ?_) h.fresh
  rcases eq_or_ne d r with rfl | hdr
  · simp [Frame.names]
  · refine .inr ⟨hd, ?_⟩
    have hdc : d ≠ c := by
      rintro rfl
      have hd' : (s.coros d).OnStack := hd
      simp [hw, Coro.OnStack] at hd'
    simp [Frame.names, hdr, hdc]

/-! ### Every step -/

theorem Kept.enqueue (h : Kept s) {e : Entry} (ht : s.stack = .push e :: rest) :
    Kept ((s.below rest).setQueue (s.queue ++ [e])) := by
  have hholders : ((s.below rest).setQueue (s.queue ++ [e])).holders = s.holders := by
    simp [State.holders, ht]
  have habove := h.above
  rw [ht] at habove
  refine ⟨?_, ?_, ?_, ?_, habove.of_cons, h.fresh⟩
  all_goals rw [hholders]
  · exact h.alive
  · exact h.names
  · exact h.owns
  · exact h.onStack

/-- `run_one` resumes the coroutine at the head of the queue, which goes to
the state `x` and gets the frame `top`. -/
theorem Kept.runOne (h : Kept s) {e : Entry} {q : List Entry} {x : Coro π V ε σ}
    {top : Frame π V ε σ} (hq : s.queue = e :: q) (hx : x.OnStack)
    (htask : (s.coros e.coro).IsTask → x.IsTask)
    (halive : top.Alive (Function.update s.coros e.coro x))
    (hnames : top.names (Function.update s.coros e.coro x) = (Frame.push e).names s.coros)
    (howns : top.owns = []) (htop : ∀ e, top ≠ .runOne e) :
    Kept ((((s.setQueue q).enter (.runOne e)).setCoro e.coro x).enter top) := by
  have hH : s.holders.Perm ([.push e] ++ (q.map .push ++ s.stack)) := by
    rw [State.holders, hq]
    rfl
  have hpush : (Frame.push e).Alive s.coros := h.alive _ (hH.mem_iff.2 (by simp))
  have hnamed : e.coro ∈ (Frame.push e).names s.coros := by
    cases hc : s.coros e.coro <;> simp [Frame.names, hc]
  have hr : Replaces s ((((s.setQueue q).enter (.runOne e)).setCoro e.coro x).enter top)
      [.push e] [top, .runOne e] (q.map .push ++ s.stack) := by
    refine ⟨hH, List.perm_append_comm_assoc _ [top, .runOne e] _, fun c => ?_, fun c _ hc => ?_,
      fun c _ _ hc => ?_⟩
    · rcases eq_or_ne c e.coro with rfl | hne
      · exact .inr (.inl (by simpa using hnamed))
      · exact .inl (by simp [hne])
    · rcases eq_or_ne c e.coro with rfl | hne
      · simpa using htask hc
      · simpa [hne] using hc
    · rcases eq_or_ne c e.coro with rfl | hne
      · exact .inl (by simpa using hx)
      · simpa [hne] using hc
  have hlt : e.coro < s.created := h.lt_created (hpush.live hnamed).ne_absent
  have hnodup := (hH.flatMap_right (Frame.names s.coros)).nodup_iff.1 h.names
  have hnodup' := (hH.flatMap_right Frame.owns).nodup_iff.1 h.owns
  rw [List.flatMap_append, List.nodup_append] at hnodup hnodup'
  have hnew : [top, .runOne e].flatMap (Frame.names (Function.update s.coros e.coro x)) =
      [.push e].flatMap (Frame.names s.coros) := by
    rw [List.flatMap_cons, hnames]
    rfl
  have hown : [top, .runOne e].flatMap Frame.owns =
      ([.push e] : Stack π V ε σ).flatMap Frame.owns := by
    rw [List.flatMap_cons, howns]
    rfl
  refine h.replace hr ?_ (hnew ▸ hnodup.1) (fun c hc => .inl (hnew ▸ hc)) (hown ▸ hnodup'.1)
    (fun c hc => .inl (hown ▸ hc)) (fun c hc => ?_) ?_ (absent_update hlt h.fresh)
  · refine List.forall_mem_cons.2 ⟨halive, List.forall_mem_singleton.2 fun _ => .inl ?_⟩
    simpa using hx
  · refine or_iff_not_imp_left.2 fun hc' => ?_
    change c ∉ [top, .runOne e].flatMap (Frame.names (Function.update s.coros e.coro x)) at hc'
    rw [hnew] at hc'
    have hne : c ≠ e.coro := by
      rintro rfl
      exact hc' (by simpa using hnamed)
    exact ⟨by simpa [hne] using hc, hc'⟩
  · refine List.pairwise_cons.2 ⟨fun _ _ e' he => absurd he (htop e'), List.pairwise_cons.2
      ⟨fun g hg e' he => ?_, Above.congr h.above fun g hg => ?_⟩⟩
    · obtain rfl : e = e' := Frame.runOne.inj he
      have hg' : g ∈ q.map .push ++ s.stack := List.mem_append_right _ hg
      rw [(hr.keeps h hg').2]
      exact fun hc => (h.apart hH hg').1 _ hc (by simpa using hnamed)
    · exact (hr.keeps h (List.mem_append_right _ hg)).2

theorem Kept.head_of_queue (h : Kept s) {e : Entry} {q : List Entry} (hq : s.queue = e :: q) :
    (∃ b, s.coros e.coro = .start b) ∨
      ∃ x p next, s.coros e.coro = .recWait x ∧ s.coros x = .waiting p next :=
  h.alive (.push e) (by simp [State.holders, hq])

theorem Kept.runTask (h : Kept s) {e : Entry} {q : List Entry} {b : Body π V ε σ}
    (hq : s.queue = e :: q) (hc : s.coros e.coro = .start b) :
    Kept ((((s.setQueue q).enter (.runOne e)).setCoro e.coro .running).enter (.exec e.coro b)) :=
  h.runOne hq trivial (fun _ => trivial) (by simp [Frame.Alive]) (by simp [Frame.names, hc]) rfl
    (by simp)

theorem Kept.runRec (h : Kept s) {e : Entry} {q : List Entry} {x : ℕ} (hq : s.queue = e :: q)
    (hc : s.coros e.coro = .recWait x) :
    Kept ((((s.setQueue q).enter (.runOne e)).setCoro e.coro .recRunning).enter
      (.recWait e.coro x)) := by
  obtain ⟨p, next, hw⟩ : ∃ p next, s.coros x = .waiting p next := by
    rcases h.head_of_queue hq with ⟨b, hb⟩ | ⟨y, p, next, hy, hw⟩
    · simp [hc] at hb
    · rw [hc, Coro.recWait.injEq] at hy
      exact ⟨p, next, hy ▸ hw⟩
  have hne : x ≠ e.coro := by
    rintro rfl
    simp [hc] at hw
  exact h.runOne hq trivial (by simp [hc, Coro.IsTask])
    ⟨by simp, p, next, by rw [Function.update_of_ne hne, hw]⟩ (by simp [Frame.names, hc]) rfl
    (by simp)

/-- A step keeps the invariant, or the run ends with it. -/
theorem Kept.step (h : Kept s) (hsuspends : SuspendsUnowned poll s) (hs : Trans poll s s')
    (hout : s'.outcome = .running) : Kept s' := by
  cases hs with
  | enqueue ht => exact h.enqueue ht
  | spin => exact h
  | runTask ht hf hq hc => exact h.runTask hq hc
  | runRec ht hf hq hc => exact h.runRec hq hc
  | runBad | returned | awaitEmpty | terminated | recBad => cases hout
  | resumed ht hc => exact h.resumed ht hc
  | leaveOwned ht => exact h.leaveOwned ht
  | leave ht => exact h.leave ht
  | finish ht hb => exact h.finish ht
  | act ht | pollReady ht | pollThrew ht => exact h.goOn ht
  | pollLater ht hp =>
      exact h.pollAgain [] ht rfl rfl rfl rfl (by simp) rfl (hsuspends _ _ _ _ _ _ ht hp)
        (by simp [h.running ht, Coro.IsTask])
  | await ht => exact h.await ht
  | recReady ht hc hp => exact h.recReady ht
  | recThrew ht hc hp => exact h.recThrew ht
  | @recLater rest r x p p' next w ht hc hp =>
      have hunowned : .runOne ⟨x, true⟩ ∉ rest := by
        intro hmem
        have halive := h.alive (.runOne ⟨x, true⟩) (by simp [State.holders, ht, hmem])
        simpa [hc, Coro.OnStack, Coro.Ended] using halive rfl
      exact h.pollAgain [r] ht rfl rfl rfl rfl (by simpa using (h.alive_top ht).1) rfl
        hunowned (by simp [hc, Coro.IsTask])
  | recReturn ht => exact h.recReturn ht

end

end JowiAsio.EventLoop

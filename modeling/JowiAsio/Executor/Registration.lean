import Mathlib.Data.List.Nodup
import JowiAsio.Executor.Shutdown

/-!
Which loop a worker's thread runs.

The thread is started before the word with the flags is initialised, and
its id is registered after that. A thread that loads the initialised word
waits, and goes on only when it is finalised, by which time it has been
registered. What a thread loads before that can be anything. It may then
ask for its loop before there is one, or return, so that its id is used
again while it is still registered with the loop of the first worker.
-/

namespace JowiAsio.Executor

open Lib

variable {I L : Type}

/-! ### The property and its condition -/

/-- A thread that calls `require_event_loop` has been registered, and gets
the loop of its own worker. -/
def ServesOwnLoop (s : State I L) (l : Label I L) (_ : State I L) : Prop :=
  ∀ w f v state, l = .worker w (.thread f) → s.workers[w]? = some v →
    v.thread = .require state →
      v.control ≠ .initialise ∧ v.control ≠ .register ∧
        getEventLoop s.registry v.id = some v.loop

/-- The condition on a step: a thread does not load its word before the
constructor has initialised it. -/
def LoadsInitialised (s : State I L) (l : Label I L) (_ : State I L) : Prop :=
  ∀ w f v, l = .worker w (.thread f) → s.workers[w]? = some v → v.thread.Loads →
    v.word ≠ none

/-! ### The invariant -/

/-- A worker in its constructor, whose thread waits; or one that has been
registered. -/
def Worker.Settled (r : Registry I L) (v : Worker I L) : Prop :=
  (v.control = .initialise ∧ v.word = none ∨
      v.control = .register ∧ v.word = some ⟨false, true⟩) ∧
      v.thread = .wait ∧ r v.id = none ∨
    v.Deaf ∧ r v.id = some v.loop

/-- The ids of the workers are different, and no other id is registered. -/
structure State.Settled (s : State I L) : Prop where
  workers : ∀ (w : ℕ) v, s.workers[w]? = some v → v.Settled s.registry
  ids : (s.workers.map Worker.id).Nodup
  registered : ∀ id, s.registry id ≠ none → id ∈ s.workers.map Worker.id

theorem Worker.Settled.not_destroyed {r : Registry I L} {v : Worker I L} (h : v.Settled r) :
    v.control ≠ .destroyed := by
  rcases h with ⟨⟨hc, -⟩ | ⟨hc, -⟩, -⟩ | ⟨hdeaf, -⟩
  · simp [hc]
  · simp [hc]
  · exact hdeaf.1.not_destroyed

section

variable [DecidableEq I] {r r' : Registry I L} {v v' : Worker I L} {a : Action}

theorem Worker.Trans.same (hs : Worker.Trans r v a v' r') : v'.id = v.id ∧ v'.loop = v.loop := by
  cases hs <;> exact ⟨rfl, rfl⟩

/-- Only the worker's own registration changes the registry. -/
theorem Worker.Trans.registry_of_ne (hs : Worker.Trans r v a v' r') {id : I} (hid : id ≠ v.id) :
    r' id = r id := by
  cases hs with
  | register =>
      unfold registerEventLoop
      split
      · exact Function.update_of_ne hid _ _
      · rfl
  | _ => rfl

theorem Worker.Settled.step (h : v.Settled r) (hs : Worker.Trans r v a v' r')
    (hload : ∀ f, a = .thread f → v.thread.Loads → v.word ≠ none) : v'.Settled r' := by
  rcases h with ⟨hword, hwait, hfree⟩ | ⟨hdeaf, hloop⟩
  · cases hs with
    | initialise => exact .inl ⟨.inr ⟨rfl, rfl⟩, hwait, hfree⟩
    | register hc =>
        obtain ⟨-, hw⟩ := hword.resolve_left (by simp [hc])
        refine .inr ⟨⟨hw, ?_, .inl hwait⟩, ?_⟩
        · simp [hwait, Thread.Stays]
        · simp [registerEventLoop, hfree]
    | thread ht =>
        -- the word has been initialised, so the thread goes on waiting
        have hsome := hload _ rfl (by simp [hwait, Thread.Loads])
        obtain ⟨hc, hw⟩ := hword.resolve_left fun hnone => hsome hnone.2
        rw [hw, Option.getD_some, hwait, Thread.wait_step] at ht
        cases ht
        exact .inl ⟨.inr ⟨hc, hw⟩, rfl, hfree⟩
    | start hc | stop hc | startChanges hc | startFails hc | stopChanges hc | stopFails hc
    | destroy hc | join hc => simp [hc] at hword
  · refine .inr ⟨hdeaf.step hs, ?_⟩
    cases hs with
    | register hc => simp [Worker.Deaf, Worker.Told, hc] at hdeaf
    | _ => exact hloop

end

theorem settled_init : (init : State I L).Settled :=
  ⟨by simp [init], by simp [init], by simp [init]⟩

/-- The ids of two workers. -/
theorem State.Settled.id_ne {s : State I L} (h : s.Settled) {i w : ℕ} {u v : Worker I L}
    (hu : s.workers[i]? = some u) (hv : s.workers[w]? = some v) (hne : i ≠ w) : u.id ≠ v.id := by
  intro he
  have hi : i < (s.workers.map Worker.id).length := by
    simpa using (List.getElem?_eq_some_iff.1 hu).1
  exact hne ((List.getElem?_inj hi h.ids).1 (by simp [hu, hv, he]))

/-- A new worker has an id that is not registered. -/
theorem State.Settled.construct {s : State I L} (h : s.Settled) {id : I} {loop : L}
    (hid : ∀ v ∈ s.workers, v.control ≠ .destroyed → v.id ≠ id) :
    State.Settled { s with workers := s.workers ++ [.construct id loop] } := by
  have hnew : id ∉ s.workers.map Worker.id := by
    intro hmem
    obtain ⟨v, hv, he⟩ := List.mem_map.1 hmem
    obtain ⟨w, hw, rfl⟩ := List.mem_iff_getElem.1 hv
    exact hid _ hv (h.workers w _ (List.getElem?_eq_getElem hw)).not_destroyed he
  refine ⟨fun w v hv => ?_, ?_, fun i hi => ?_⟩
  · rw [List.getElem?_append] at hv
    split at hv
    · exact h.workers w v hv
    · obtain rfl : v = .construct id loop := by
        rw [List.getElem?_singleton] at hv
        split at hv
        · exact (Option.some.inj hv).symm
        · cases hv
      refine .inl ⟨.inl ⟨rfl, rfl⟩, rfl, ?_⟩
      by_contra hsome
      exact hnew (h.registered id hsome)
  · rw [List.map_append, List.nodup_append]
    refine ⟨h.ids, List.nodup_singleton _, fun i hi j hj hij => ?_⟩
    obtain rfl : j = id := List.mem_singleton.1 hj
    exact hnew (hij ▸ hi)
  · rw [List.map_append]
    exact List.mem_append_left _ (h.registered i hi)

theorem State.Settled.servesOwnLoop {s s' : State I L} {l : Label I L} (h : s.Settled) :
    ServesOwnLoop s l s' := by
  intro w f v state hl hv hrequire
  rcases h.workers w v hv with ⟨-, hwait, -⟩ | ⟨hdeaf, hloop⟩
  · simp [hrequire] at hwait
  · refine ⟨fun hc => ?_, fun hc => ?_, hloop⟩ <;> simp [Worker.Deaf, Worker.Told, hc] at hdeaf

section

variable [DecidableEq I] {s s' : State I L} {l : Label I L}

theorem State.Settled.step (h : s.Settled) (hs : step s l = some s')
    (hload : LoadsInitialised s l s') : s'.Settled := by
  cases l with
  | construct id loop =>
      simp only [Executor.step] at hs
      split at hs
      case isTrue hid =>
        cases hs
        exact h.construct hid
      case isFalse => cases hs
  | worker w a =>
      obtain ⟨v, v', r', hv, htrans, rfl⟩ := workerStep_trans hs
      have hlt : w < s.workers.length := (List.getElem?_eq_some_iff.1 hv).1
      have hids : (s.workers.set w v').map Worker.id = s.workers.map Worker.id := by
        refine List.ext_getElem? fun i => ?_
        rw [List.getElem?_map, List.getElem?_map, List.getElem?_set]
        split
        case isTrue he =>
          subst he
          rw [hv, Option.map_some, Option.map_some, htrans.same.1]
        case isFalse => rfl
      refine ⟨fun i u hu => ?_, hids ▸ h.ids, fun id hid => ?_⟩
      · rcases eq_or_ne i w with rfl | hne
        · rw [List.getElem?_set_self hlt, Option.some.injEq] at hu
          subst hu
          refine (h.workers i v hv).step htrans fun f ha => hload i f v ?_ hv
          rw [ha]
        · rw [List.getElem?_set_ne hne.symm] at hu
          -- the step is with another worker, which has another id
          have hsame := htrans.registry_of_ne (h.id_ne hu hv hne)
          have hold := h.workers i u hu
          rwa [Worker.Settled, ← hsame] at hold
      · rw [hids]
        by_cases he : id = v.id
        · exact he ▸ List.mem_map_of_mem (List.mem_of_getElem? hv)
        · exact h.registered id (htrans.registry_of_ne he ▸ hid)

end

/-- Every worker runs on the loop that its constructor got, in every run in
which no thread loads its word before it has been initialised. -/
theorem workers_serve_own_loop [DecidableEq I] {as : List (Label I L)}
    (h : Along step LoadsInitialised (init : State I L) as) :
    Along step ServesOwnLoop (init : State I L) as :=
  along_of_along (fun _ _ _ hs hstep hload => hs.step hstep hload)
    (fun _ _ _ hs _ _ => hs.servesOwnLoop) h settled_init

/-- A worker is constructed and destroyed, and its thread looks at its word
before and after that. -/
def constructThenLoad : List (Label ℕ ℕ) :=
  [.construct 1 7, .worker 0 .initialise, .worker 0 (.thread ⟨false, false⟩),
    .worker 0 .register, .worker 0 .destroy, .worker 0 (.thread ⟨false, false⟩),
    .worker 0 (.thread ⟨false, false⟩)]

theorem workers_serve_own_loop_constructThenLoad : ∃ s : State ℕ ℕ,
    run step init constructThenLoad = some s ∧
      s.workers.map Worker.thread = [.work 7 ⟨true, true⟩] ∧
      Along step ServesOwnLoop (init : State ℕ ℕ) constructThenLoad := by
  refine ⟨_, rfl, rfl, workers_serve_own_loop ?_⟩
  -- the word is initialised when the thread loads it
  refine (along_cons rfl).2 ⟨fun _ _ _ hl => (by cases hl), ?_⟩
  refine (along_cons rfl).2 ⟨fun _ _ _ hl => (by cases hl), ?_⟩
  refine (along_cons rfl).2 ⟨fun _ _ _ hl hv _ => (by cases hl; cases hv; simp), ?_⟩
  refine (along_cons rfl).2 ⟨fun _ _ _ hl => (by cases hl), ?_⟩
  refine (along_cons rfl).2 ⟨fun _ _ _ hl => (by cases hl), ?_⟩
  refine (along_cons rfl).2 ⟨fun _ _ _ hl hv _ => (by cases hl; cases hv; simp), ?_⟩
  exact (along_cons rfl).2 ⟨fun _ _ _ hl hv _ => (by cases hl; cases hv; simp), trivial⟩

/-- The thread loads a word of zeros before it is initialised. -/
def loadTooEarly : List (Label ℕ ℕ) := [.construct 1 7, .worker 0 (.thread ⟨false, false⟩)]

/-- The same, but the thread asks for its loop after it has been registered
and returns. Its id is used again for a worker on the loop `8`. -/
def reuseId : List (Label ℕ ℕ) :=
  loadTooEarly ++ [.worker 0 .initialise, .worker 0 .register, .worker 0 (.thread ⟨false, false⟩),
    .worker 0 (.thread ⟨false, false⟩), .worker 0 .destroy, .worker 0 .join, .construct 1 8,
    .worker 1 .initialise, .worker 1 .register, .worker 1 .destroy,
    .worker 1 (.thread ⟨false, false⟩)]

/-- The first thread is terminated, as it has no loop. In the second run
the second worker gets the loop of the first one. -/
theorem unregistered_thread_requires :
    (∃ s : State ℕ ℕ, run step init (loadTooEarly ++ [.worker 0 (.thread ⟨false, false⟩)]) =
        some s ∧ s.workers.map Worker.thread = [.terminated]) ∧
      (∃ s : State ℕ ℕ, run step init (reuseId ++ [.worker 1 (.thread ⟨false, false⟩)]) = some s ∧
        s.workers.map Worker.thread = [.returned, .work 7 ⟨true, true⟩]) ∧
      ¬ Along step ServesOwnLoop (init : State ℕ ℕ)
        (loadTooEarly ++ [.worker 0 (.thread ⟨false, false⟩)]) ∧
      ¬ Along step ServesOwnLoop (init : State ℕ ℕ)
        (reuseId ++ [.worker 1 (.thread ⟨false, false⟩)]) := by
  refine ⟨⟨_, rfl, rfl⟩, ⟨_, rfl, rfl⟩, fun h => ?_, fun h => ?_⟩
  · exact (h.last rfl rfl 0 _ _ _ rfl rfl rfl).1 rfl
  · exact absurd (h.last rfl rfl 1 _ _ _ rfl rfl rfl).2.2 (by decide)

end JowiAsio.Executor

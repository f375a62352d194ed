import Mathlib.Data.List.Perm.Basic
import JowiAsio.Lib.Machine
import JowiAsio.Lib.SharedMutex

/-!
The lock pollers of `awaitables.cc` on one shared mutex.

A poller only refers to its mutex, so any number of pollers is the
sequence of the calls made to them. Each call that acquires gives a guard
to its caller, and the guard decides the mode in which the mutex is
released. `SharedLockPoller::poll` acquires with `try_lock`, as the
writer, and adopts the mutex as a reader, so its first success breaks the
agreement; and it never succeeds next to another reader.
-/

namespace JowiAsio.Awaitables

open Lib

/-! ### Pollers and guards -/

/-- `std::unique_lock` and `std::shared_lock`. -/
inductive Guard
  | unique
  | shared
  deriving DecidableEq

/-- A guard that adopts the mutex when it has been locked. -/
def Guard.adopt (g : Guard) : Bool × SharedMutex → Option Guard × SharedMutex
  | (true, m) => (some g, m)
  | (false, m) => (none, m)

/-- The destructor; `none` is undefined. -/
def Guard.release : Guard → SharedMutex → Option SharedMutex
  | .unique, m => m.unlock
  | .shared, m => m.unlockShared

namespace LockPoller

def poll (spurious : Bool) (m : SharedMutex) : Option Guard × SharedMutex :=
  Guard.unique.adopt (m.tryLock spurious)

def pollBlock (m : SharedMutex) : Option (Guard × SharedMutex) :=
  m.lock.map (Prod.mk .unique)

end LockPoller

namespace SharedLockPoller

def poll (spurious : Bool) (m : SharedMutex) : Option Guard × SharedMutex :=
  Guard.shared.adopt (m.tryLock spurious)

def pollBlock (m : SharedMutex) : Option (Guard × SharedMutex) :=
  m.lockShared.map (Prod.mk .shared)

end SharedLockPoller

/-! ### The mutex and the guards that are alive -/

structure State where
  mutex : SharedMutex
  guards : List Guard
  undefined : Bool
  deriving DecidableEq

inductive Label
  | lockPoll (spurious : Bool)
  | lockPollBlock
  | sharedPoll (spurious : Bool)
  | sharedPollBlock
  | drop (i : ℕ)
  deriving DecidableEq

namespace State

variable (s : State)

def polled (r : Option Guard × SharedMutex) : State :=
  { s with mutex := r.2, guards := s.guards ++ r.1.toList }

def acquired (r : Guard × SharedMutex) : State :=
  { s with mutex := r.2, guards := s.guards ++ [r.1] }

def released (i : ℕ) : Option SharedMutex → State
  | some m => { s with mutex := m, guards := s.guards.eraseIdx i }
  | none => { s with guards := s.guards.eraseIdx i, undefined := true }

end State

def init : State := ⟨.free, [], false⟩

/-- A blocking call that has to wait is not possible yet, and nothing is
after an undefined release. -/
def step (s : State) (a : Label) : Option State :=
  if s.undefined then none
  else
    match a with
    | .lockPoll spurious => some (s.polled (LockPoller.poll spurious s.mutex))
    | .lockPollBlock => (LockPoller.pollBlock s.mutex).map s.acquired
    | .sharedPoll spurious => some (s.polled (SharedLockPoller.poll spurious s.mutex))
    | .sharedPollBlock => (SharedLockPoller.pollBlock s.mutex).map s.acquired
    | .drop i => s.guards[i]?.map fun g => s.released i (g.release s.mutex)

/-- The mutex is held by the guards that are alive, and every release so
far was one of what was held. -/
structure Consistent (s : State) : Prop where
  exclusive_iff : s.mutex = .exclusive ↔ s.guards.count .unique = 1
  readers : s.mutex ≠ .exclusive → s.mutex.readers = s.guards.count .shared
  defined : s.undefined = false

/-- `SharedLockPoller::poll` succeeds when no writer holds the mutex. -/
def SharedPollSucceeds (s : State) (a : Label) (s' : State) : Prop :=
  ∀ spurious, a = .sharedPoll spurious → s.mutex ≠ .exclusive →
    s'.guards = s.guards ++ [.shared]

/-- `SharedLockPoller::poll` is called only while a writer holds the
mutex. -/
def SharedPollUnderWriter (s : State) (a : Label) (_ : State) : Prop :=
  ∀ spurious, a = .sharedPoll spurious → s.mutex = .exclusive

/-! ### What a step does -/

/-- The guards that are alive are what the mutex is held by. -/
def Owned (s : State) : Prop :=
  s.mutex.HeldBy (s.guards.count .unique) (s.guards.count .shared) ∧ s.undefined = false

variable {s s' : State}

theorem Owned.consistent (h : Owned s) : Consistent s where
  exclusive_iff := h.1.exclusive_iff
  readers _ := h.1.readers_eq
  defined := h.2

theorem count_eraseIdx {guards : List Guard} {i : ℕ} {g : Guard} (hi : guards[i]? = some g)
    (g' : Guard) :
    guards.count g' = (guards.eraseIdx i).count g' + if g = g' then 1 else 0 := by
  obtain ⟨hlt, rfl⟩ := List.getElem?_eq_some_iff.1 hi
  have hperm := (List.getElem_cons_eraseIdx_perm hlt).count_eq g'
  rw [← hperm, List.count_cons]
  simp

theorem owned_lockPoll {spurious : Bool} (h : Owned s) :
    Owned (s.polled (LockPoller.poll spurious s.mutex)) := by
  obtain ⟨hheld, hdef⟩ := h
  cases hlock : s.mutex.tryLock spurious with
  | mk locked m =>
      cases locked with
      | true =>
          refine ⟨?_, hdef⟩
          simpa [State.polled, LockPoller.poll, hlock, Guard.adopt] using hheld.tryLock hlock
      | false =>
          obtain rfl := SharedMutex.eq_of_tryLock_failed hlock
          refine ⟨?_, hdef⟩
          simpa [State.polled, LockPoller.poll, hlock, Guard.adopt] using hheld

/-- It fails, for a writer holds the mutex. -/
theorem owned_sharedPoll {spurious : Bool} (h : Owned s) (hmutex : s.mutex = .exclusive) :
    Owned (s.polled (SharedLockPoller.poll spurious s.mutex)) := by
  have hpoll : SharedLockPoller.poll spurious s.mutex = (none, s.mutex) := by
    rw [hmutex]
    rfl
  rw [hpoll]
  exact ⟨by simpa [State.polled] using h.1, h.2⟩

theorem owned_drop {i : ℕ} {g : Guard} (h : Owned s) (hi : s.guards[i]? = some g) :
    Owned (s.released i (g.release s.mutex)) := by
  obtain ⟨hheld, hdef⟩ := h
  rw [count_eraseIdx hi .unique, count_eraseIdx hi .shared] at hheld
  cases g with
  | unique =>
      obtain ⟨m, hm, hheld⟩ := hheld.unlock
      rw [Guard.release, hm]
      exact ⟨by simpa [State.released] using hheld, hdef⟩
  | shared =>
      obtain ⟨m, hm, hheld⟩ := hheld.unlockShared
      rw [Guard.release, hm]
      exact ⟨by simpa [State.released] using hheld, hdef⟩

theorem owned_step {a : Label} (h : Owned s) (hs : step s a = some s')
    (hwriter : SharedPollUnderWriter s a s') : Owned s' := by
  simp only [step, h.2, Bool.false_eq_true, if_false] at hs
  cases a with
  | lockPoll spurious =>
      rw [← Option.some.inj hs]
      exact owned_lockPoll h
  | lockPollBlock =>
      obtain ⟨r, hr, rfl⟩ := Option.map_eq_some_iff.1 hs
      obtain ⟨m, hm, rfl⟩ := Option.map_eq_some_iff.1 hr
      exact ⟨by simpa [State.acquired] using h.1.lock hm, h.2⟩
  | sharedPoll spurious =>
      rw [← Option.some.inj hs]
      exact owned_sharedPoll h (hwriter spurious rfl)
  | sharedPollBlock =>
      obtain ⟨r, hr, rfl⟩ := Option.map_eq_some_iff.1 hs
      obtain ⟨m, hm, rfl⟩ := Option.map_eq_some_iff.1 hr
      exact ⟨by simpa [State.acquired] using h.1.lockShared hm, h.2⟩
  | drop i =>
      obtain ⟨g, hg, rfl⟩ := Option.map_eq_some_iff.1 hs
      exact owned_drop h hg

/-- A shared poll that a writer does not hold up either fails or takes
the mutex as a writer would. -/
theorem sharedPoll_breaks {spurious : Bool} (hmutex : s.mutex ≠ .exclusive)
    (h : Consistent s) (hs : step s (.sharedPoll spurious) = some s') (h' : Consistent s') :
    s'.guards ≠ s.guards ++ [.shared] := by
  simp only [step, h.defined, Bool.false_eq_true, if_false, Option.some.injEq] at hs
  subst hs
  intro hguards
  cases hlock : s.mutex.tryLock spurious with
  | mk locked m =>
      cases locked with
      | true =>
          obtain ⟨-, rfl⟩ := SharedMutex.eq_free_of_tryLock hlock
          refine hmutex (h.exclusive_iff.2 ?_)
          simpa [State.polled, SharedLockPoller.poll, hlock, Guard.adopt] using
            h'.exclusive_iff
      | false => simp [State.polled, SharedLockPoller.poll, hlock, Guard.adopt] at hguards

/-! ### Whole runs -/

theorem owned_init : Owned init := ⟨⟨rfl, rfl⟩, rfl⟩

/-- Along a run the guards that are alive agree with the mutex, and a
shared poll succeeds unless a writer holds the mutex, if and only if a
writer holds the mutex at every shared poll. -/
theorem guards_match_mutex_iff (as : List Label) :
    Visits step Consistent init as ∧ Along step SharedPollSucceeds init as ↔
      Along step SharedPollUnderWriter init as := by
  rw [visits_iff_along, and_assoc, ← along_and, and_iff_right owned_init.consistent]
  refine along_iff (I := Owned) (fun s a s' h hs hwriter => owned_step h hs hwriter)
    (fun s a s' h hs => ⟨fun hgood spurious ha => ?_, fun hwriter => ⟨?_, ?_⟩⟩) owned_init as
  · by_contra hmutex
    subst ha
    exact sharedPoll_breaks hmutex h.consistent hs hgood.1 (hgood.2 spurious rfl hmutex)
  · exact (owned_step h hs hwriter).consistent
  · exact fun spurious ha hmutex => absurd (hwriter spurious ha) hmutex

/-- A shared poll of a free mutex leaves it held by a writer, with no
`unique_lock` alive, and the guard that it gives releases a reader. -/
theorem guards_match_mutex_sharedPoll :
    run step init [.sharedPoll false] = some ⟨.exclusive, [.shared], false⟩ ∧
      run step init [.sharedPoll false, .drop 0] = some ⟨.exclusive, [], true⟩ ∧
      ¬(Visits step Consistent init [.sharedPoll false, .drop 0] ∧
        Along step SharedPollSucceeds init [.sharedPoll false, .drop 0]) := by
  have hrun : run step init [.sharedPoll false, .drop 0] = some ⟨.exclusive, [], true⟩ := rfl
  refine ⟨rfl, hrun, fun h => ?_⟩
  exact absurd (h.1.last hrun).defined (by simp)

end JowiAsio.Awaitables

import Mathlib.Tactic.Common

/-!
A mutex that is held by one writer or by any number of readers.

Every release has to be made in the mode of the acquisition it undoes:
`unlock` of a mutex that no writer holds, and `unlockShared` of one that
no reader holds, are undefined and return `none`. `lock` and `lockShared`
return `none` where the caller has to wait. `HeldBy m w r` says that `m`
is held by `w` writers and `r` readers, and each operation has one lemma
that says what it does to these two numbers.
-/

namespace JowiAsio.Lib

/-- `shared k` is held by `k + 1` readers. -/
inductive SharedMutex
  | free
  | exclusive
  | shared (k : ℕ)
  deriving DecidableEq

namespace SharedMutex

/-! ### Operations -/

def readers : SharedMutex → ℕ
  | .free | .exclusive => 0
  | .shared k => k + 1

/-- An attempt to become the writer may fail although nobody holds the
mutex, when `spurious` says so. -/
def tryLock (spurious : Bool) : SharedMutex → Bool × SharedMutex
  | .free => if spurious then (false, .free) else (true, .exclusive)
  | m => (false, m)

def lock : SharedMutex → Option SharedMutex
  | .free => some .exclusive
  | _ => none

def unlock : SharedMutex → Option SharedMutex
  | .exclusive => some .free
  | _ => none

def lockShared : SharedMutex → Option SharedMutex
  | .free => some (.shared 0)
  | .exclusive => none
  | .shared k => some (.shared (k + 1))

def unlockShared : SharedMutex → Option SharedMutex
  | .shared 0 => some .free
  | .shared (k + 1) => some (.shared k)
  | _ => none

/-! ### Who holds it -/

def HeldBy : SharedMutex → ℕ → ℕ → Prop
  | .free, w, r => w = 0 ∧ r = 0
  | .exclusive, w, r => w = 1 ∧ r = 0
  | .shared k, w, r => w = 0 ∧ r = k + 1

variable {m m' : SharedMutex} {w r : ℕ}

theorem HeldBy.exclusive_iff (h : HeldBy m w r) : m = .exclusive ↔ w = 1 := by
  cases m <;> simp [HeldBy] at h ⊢ <;> omega

theorem HeldBy.readers_eq (h : HeldBy m w r) : m.readers = r := by
  cases m <;> simp [HeldBy, readers] at h ⊢ <;> omega

theorem eq_free_of_tryLock {spurious : Bool} (hlock : m.tryLock spurious = (true, m')) :
    m = .free ∧ m' = .exclusive := by
  cases m <;> cases spurious <;> simp_all [SharedMutex.tryLock]

theorem eq_of_tryLock_failed {spurious : Bool} (hlock : m.tryLock spurious = (false, m')) :
    m' = m := by
  cases m <;> cases spurious <;> simp_all [SharedMutex.tryLock]

theorem HeldBy.tryLock {spurious : Bool} (h : HeldBy m w r)
    (hlock : m.tryLock spurious = (true, m')) : HeldBy m' (w + 1) r := by
  obtain ⟨rfl, rfl⟩ := eq_free_of_tryLock hlock
  exact ⟨by rw [h.1], h.2⟩

theorem HeldBy.lock (h : HeldBy m w r) (hlock : m.lock = some m') : HeldBy m' (w + 1) r := by
  cases m with
  | free =>
      obtain rfl : SharedMutex.exclusive = m' := Option.some.inj hlock
      exact ⟨by rw [h.1], h.2⟩
  | exclusive | shared k => simp [SharedMutex.lock] at hlock

theorem HeldBy.lockShared (h : HeldBy m w r) (hlock : m.lockShared = some m') :
    HeldBy m' w (r + 1) := by
  cases m with
  | free =>
      obtain rfl : SharedMutex.shared 0 = m' := Option.some.inj hlock
      exact ⟨h.1, by rw [h.2]⟩
  | exclusive => simp [SharedMutex.lockShared] at hlock
  | shared k =>
      obtain rfl : SharedMutex.shared (k + 1) = m' := Option.some.inj hlock
      exact ⟨h.1, by rw [h.2]⟩

/-- A writer can release what it holds. -/
theorem HeldBy.unlock (h : HeldBy m (w + 1) r) : ∃ m', m.unlock = some m' ∧ HeldBy m' w r := by
  cases m with
  | free => exact absurd h.1 (Nat.succ_ne_zero w)
  | exclusive => exact ⟨.free, rfl, Nat.succ.inj h.1, h.2⟩
  | shared k => exact absurd h.1 (Nat.succ_ne_zero w)

/-- A reader can release what it holds. -/
theorem HeldBy.unlockShared (h : HeldBy m w (r + 1)) :
    ∃ m', m.unlockShared = some m' ∧ HeldBy m' w r := by
  cases m with
  | free => exact absurd h.2 (Nat.succ_ne_zero r)
  | exclusive => exact absurd h.2 (Nat.succ_ne_zero r)
  | shared k =>
      cases k with
      | zero => exact ⟨.free, rfl, h.1, Nat.succ.inj h.2⟩
      | succ k => exact ⟨.shared k, rfl, h.1, Nat.succ.inj h.2⟩

end SharedMutex

end JowiAsio.Lib

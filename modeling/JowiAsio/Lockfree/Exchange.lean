import JowiAsio.Lib.Atomic
import JowiAsio.Lib.Machine
import JowiAsio.Lockfree.Packing

/-!
`exchange_tag`, `exchange_ptr`, `store_tag` and `store_ptr` of
`atomic<TaggedPtr>` (`tagged_ptr.cc`).

Each of them is a loop around a weak compare-exchange whose first attempt
is a guess: it expects the null word, which nothing has read, and its
target is computed before the loop. `exchange_ptr` guesses the word that
would be right for the null word. `exchange_tag` guesses the null word
itself, so an attempt that finds the null word succeeds and changes
nothing.

The word belongs to any number of threads. A step is one attempt of one
of them, or any other update of the word.
-/

namespace JowiAsio.TaggedPtr

open Lib

namespace Layout

/-- A pointer that fits. -/
abbrev Ptr (L : Layout) := BitVec (8 * L.psize)

abbrev Tag (L : Layout) := BitVec (8 * L.dsize)

def toRawPair (L : Layout) (w : Word) : BitVec 64 × L.Tag :=
  (rawPtr L.psize w, tag L.psize L.dsize w)

end Layout

variable (L : Layout)

/-! ### The calls -/

/-- The field that a call replaces, with its new value. -/
inductive Change
  | tag (t : L.Tag)
  | ptr (p : L.Ptr)

/-- A call of one of the loops; `store_tag` and `store_ptr` discard the
word that the loop returns. -/
structure Call where
  change : Change L
  returns : Bool

variable {L}

namespace Call

def exchangeTag (t : L.Tag) : Call L := ⟨.tag t, true⟩

def exchangePtr (p : L.Ptr) : Call L := ⟨.ptr p, true⟩

def storeTag (t : L.Tag) : Call L := ⟨.tag t, false⟩

def storePtr (p : L.Ptr) : Call L := ⟨.ptr p, false⟩

end Call

namespace Change

/-- `target_ptr` before the loop. -/
def guess : Change L → Word
  | .tag _ => nullTag L.psize 0
  | .ptr p => fromPair L.psize (p.setWidth 64) (0 : L.Tag)

/-- `target_ptr` after an attempt that found `cur`. -/
def aim (cur : Word) : Change L → Word
  | .tag t => fromPair L.psize (L.toRawPair cur).1 t
  | .ptr p => fromPair L.psize (p.setWidth 64) (L.toRawPair cur).2

/-- The word after the change has the new value in its field, and in the
other one what the word before had. -/
def Applied (before after : Word) : Change L → Prop
  | .tag t => L.toRawPair after = ((L.toRawPair before).1, t)
  | .ptr p => L.toRawPair after = (p.setWidth 64, (L.toRawPair before).2)

end Change

/-! ### The threads -/

/-- A thread has no call in progress, after one that returned `ret`, or it
is about to try, `tries` attempts of this call having failed. -/
inductive Pc (L : Layout)
  | ready (ret : Option Word)
  | loop (call : Call L) (tries : ℕ) (cur target : Word)

structure Shared (L : Layout) (ι : Type*) where
  word : Word
  pc : ι → Pc L

/-- The steps: another update of the word, the begin of a call, and an
attempt, which may fail spuriously. -/
inductive Label (L : Layout) (ι : Type*)
  | update (w : Word)
  | call (i : ι) (call : Call L)
  | attempt (i : ι) (spurious : Bool)

variable {ι : Type*}

def initShared (w : Word) : Shared L ι := ⟨w, fun _ => .ready none⟩

section

variable [DecidableEq ι]

def attempt (s : Shared L ι) (i : ι) (spurious : Bool) (call : Call L) (tries : ℕ)
    (cur target : Word) : Shared L ι :=
  match casWeak spurious s.word cur target with
  | ⟨true, word, cur⟩ =>
      ⟨word, Function.update s.pc i (.ready (if call.returns then some cur else none))⟩
  | ⟨false, _, cur⟩ =>
      { s with pc := Function.update s.pc i (.loop call (tries + 1) cur (call.change.aim cur)) }

def step (s : Shared L ι) : Label L ι → Option (Shared L ι)
  | .update w => some { s with word := w }
  | .call i call =>
      match s.pc i with
      | .ready _ =>
          some { s with pc := Function.update s.pc i (.loop call 0 null call.change.guess) }
      | .loop .. => none
  | .attempt i spurious =>
      match s.pc i with
      | .loop call tries cur target => some (attempt s i spurious call tries cur target)
      | .ready _ => none

/-! ### What a call has to do -/

/-- An attempt of the call of thread `i` leaves the word alone and the
call goes on, or it changes the one field and the call returns the word
that it found. -/
def Replaces (s t : Shared L ι) (i : ι) (call : Call L) (tries : ℕ) : Prop :=
  (t.word = s.word ∧ ∃ cur target, t.pc i = .loop call (tries + 1) cur target) ∨
    (call.change.Applied s.word t.word ∧
      t.pc i = .ready (if call.returns then some s.word else none))

/-- Each attempt does, and the begin of a call changes nothing. -/
def ReplacesField (s : Shared L ι) : Label L ι → Shared L ι → Prop
  | .update _, _ => True
  | .call _ _, t => t.word = s.word
  | .attempt i _, t => ∀ call tries cur target, s.pc i = .loop call tries cur target →
      Replaces s t i call tries

/-- A call that replaces the tag by a nonzero one does not find the null
word with its first attempt, unless that fails spuriously. -/
def FirstGuessMisses (s : Shared L ι) : Label L ι → Shared L ι → Prop
  | .attempt i false, _ => ∀ t returns cur target,
      s.pc i = .loop ⟨.tag t, returns⟩ 0 cur target → s.word = null → t = 0
  | _, _ => True

/-! ### Targets -/

/-- A pointer that fits is the pointer of every word it is packed in. -/
theorem Layout.rawPtr_setWidth (p : L.Ptr) : rawPtr L.psize (p.setWidth 64) = p.setWidth 64 := by
  apply L.rawPtr_of_lt
  have hle : 8 * L.psize ≤ 64 := by
    have := L.fits
    omega
  rw [BitVec.toNat_setWidth]
  exact Nat.lt_of_le_of_lt (Nat.mod_le _ _) p.isLt

@[simp] theorem Layout.toRawPair_fromPair (p : BitVec 64) (t : L.Tag) :
    L.toRawPair (fromPair L.psize p t) = (rawPtr L.psize p, t) := by
  simp only [toRawPair, rawPtr_fromPair, tag_fromPair]

@[simp] theorem Layout.toRawPair_null : L.toRawPair null = (0, 0) := by
  refine Prod.ext ?_ ?_
  · apply BitVec.eq_of_getLsbD_eq
    intro i _
    simp [toRawPair, L.getLsbD_rawPtr, null]
  · apply BitVec.eq_of_getLsbD_eq
    intro i _
    simp [toRawPair, L.getLsbD_tag, null]

theorem Layout.nullTag_zero : nullTag L.psize 0 = null := by
  apply BitVec.eq_of_getLsbD_eq
  intro i _
  simp [nullTag, L.getLsbD_rawPtr, null]

namespace Change

variable (c : Change L)

/-- The target computed from what an attempt found is right for it. -/
theorem applied_aim (cur : Word) : c.Applied cur (c.aim cur) := by
  cases c with
  | tag t => rw [Applied, aim, L.toRawPair_fromPair, Layout.toRawPair, L.rawPtr_rawPtr]
  | ptr p => rw [Applied, aim, L.toRawPair_fromPair, L.rawPtr_setWidth]

/-- The guess is right for the null word when the change is not to a
nonzero tag. -/
theorem applied_guess_iff : c.Applied null c.guess ↔ ∀ t, c = .tag t → t = 0 := by
  cases c with
  | tag t =>
      rw [Applied, guess, L.nullTag_zero, L.toRawPair_null]
      constructor
      · rintro h _ ⟨⟩
        exact (congrArg Prod.snd h).symm
      · intro h
        rw [h t rfl]
  | ptr p =>
      rw [Applied, guess, L.toRawPair_fromPair, L.rawPtr_setWidth, L.toRawPair_null]
      exact iff_of_true rfl (by simp)

end Change

/-- A thread in a loop has the guess, or a target computed from what its
last attempt found. -/
def Pc.Aims : Pc L → Prop
  | .ready _ => True
  | .loop call tries cur target =>
      (tries = 0 ∧ cur = null ∧ target = call.change.guess) ∨
        (tries ≠ 0 ∧ target = call.change.aim cur)

def AllAim (s : Shared L ι) : Prop := ∀ i, (s.pc i).Aims

omit [DecidableEq ι] in
theorem allAim_init (w : Word) : AllAim (initShared w : Shared L ι) := fun _ => trivial

variable {s t : Shared L ι} {i : ι} {spurious : Bool} {call : Call L} {tries : ℕ}
  {cur target : Word}

theorem AllAim.update (h : AllAim s) {pc : Pc L} (hpc : pc.Aims) (w : Word) :
    AllAim ⟨w, Function.update s.pc i pc⟩ :=
  (Function.forall_update_iff s.pc fun _ pc => pc.Aims).2 ⟨hpc, fun j _ => h j⟩

/-! ### Attempts -/

/-- The two outcomes of an attempt. -/
theorem attempt_cases (s : Shared L ι) (i : ι) (spurious : Bool) (call : Call L) (tries : ℕ)
    (cur target : Word) :
    (s.word = cur ∧ spurious = false ∧ attempt s i spurious call tries cur target =
        ⟨target, Function.update s.pc i (.ready (if call.returns then some cur else none))⟩) ∨
      ((s.word = cur → spurious = true) ∧ attempt s i spurious call tries cur target =
        ⟨s.word, Function.update s.pc i
          (.loop call (tries + 1) s.word (call.change.aim s.word))⟩) := by
  rw [attempt]
  rcases casWeak_cases spurious s.word cur target with ⟨hw, hs, hcas⟩ | ⟨hmiss, hcas⟩
  · exact .inl ⟨hw, hs, by rw [hcas]⟩
  · exact .inr ⟨hmiss, by rw [hcas]⟩

theorem step_cases {a : Label L ι} (h : step s a = some t) :
    (∃ w, a = .update w ∧ t = { s with word := w }) ∨
      (∃ i call ret, a = .call i call ∧ s.pc i = .ready ret ∧
        t = { s with pc := Function.update s.pc i (.loop call 0 null call.change.guess) }) ∨
      ∃ i spurious call tries cur target, a = .attempt i spurious ∧
        s.pc i = .loop call tries cur target ∧ t = attempt s i spurious call tries cur target := by
  cases a with
  | update w => exact .inl ⟨w, rfl, (Option.some.inj h).symm⟩
  | call i call =>
      cases hpc : s.pc i with
      | ready ret =>
          simp only [step, hpc, Option.some.injEq] at h
          exact .inr (.inl ⟨i, call, ret, rfl, hpc, h.symm⟩)
      | loop call' tries cur target => simp [step, hpc] at h
  | attempt i spurious =>
      cases hpc : s.pc i with
      | ready ret => simp [step, hpc] at h
      | loop call tries cur target =>
          simp only [step, hpc, Option.some.injEq] at h
          exact .inr (.inr ⟨i, spurious, call, tries, cur, target, rfl, hpc, h.symm⟩)

theorem AllAim.step {a : Label L ι} (h : AllAim s) (hstep : step s a = some t) : AllAim t := by
  rcases step_cases hstep with ⟨w, -, rfl⟩ | ⟨i, call, ret, -, -, rfl⟩ |
    ⟨i, spurious, call, tries, cur, target, -, -, rfl⟩
  · exact h
  · exact h.update (show Pc.Aims (.loop ..) from .inl ⟨rfl, rfl, rfl⟩) s.word
  · rcases attempt_cases s i spurious call tries cur target with ⟨-, -, hs⟩ | ⟨-, hs⟩
    · rw [hs]
      exact h.update (show Pc.Aims (.ready _) from trivial) target
    · rw [hs]
      exact h.update (show Pc.Aims (.loop ..) from .inr ⟨Nat.succ_ne_zero tries, rfl⟩) s.word

/-- An attempt that fails changes no word, and one that succeeds is right
if its target is. -/
theorem replaces_attempt_iff {i : ι} :
    Replaces s (attempt s i spurious call tries cur target) i call tries ↔
      (s.word = cur → spurious = false → call.change.Applied s.word target) := by
  rcases attempt_cases s i spurious call tries cur target with ⟨hw, hs, ht⟩ | ⟨hmiss, ht⟩
  · rw [ht, Replaces, hw]
    simp [hs]
  · rw [ht]
    refine iff_of_true (.inl ⟨rfl, _, _, Function.update_self ..⟩) fun hw hs => ?_
    exact absurd (hmiss hw) (by simp [hs])

/-- Only the guess can be wrong. -/
theorem replacesField_iff {a : Label L ι} (h : AllAim s) (hstep : step s a = some t) :
    ReplacesField s a t ↔ FirstGuessMisses s a t := by
  rcases step_cases hstep with ⟨w, rfl, rfl⟩ | ⟨i, call, ret, rfl, -, rfl⟩ |
    ⟨i, spurious, call, tries, cur, target, rfl, hpc, rfl⟩
  · exact Iff.rfl
  · exact iff_of_true rfl trivial
  · have hreplaces : ReplacesField s (.attempt i spurious)
        (attempt s i spurious call tries cur target) ↔
          Replaces s (attempt s i spurious call tries cur target) i call tries := by
      constructor
      · exact fun hf => hf call tries cur target hpc
      · intro hr call' tries' cur' target' hpc'
        rw [hpc, Pc.loop.injEq] at hpc'
        obtain ⟨rfl, rfl, -, -⟩ := hpc'
        exact hr
    rw [hreplaces, replaces_attempt_iff]
    have haims := h i
    rw [hpc] at haims
    rcases haims with ⟨rfl, rfl, rfl⟩ | ⟨htries, rfl⟩
    · -- the first attempt
      cases spurious with
      | true => exact iff_of_true (fun _ hs => absurd hs (by decide)) trivial
      | false =>
          simp only [FirstGuessMisses, hpc, Pc.loop.injEq, forall_const]
          constructor
          · rintro happlied t returns cur target ⟨rfl, -⟩ hw
            rw [hw] at happlied
            exact (Change.applied_guess_iff _).1 (happlied rfl) t rfl
          · intro hmiss hw
            rw [hw, Change.applied_guess_iff]
            intro t ht
            exact hmiss t call.returns _ _ ⟨by rw [← ht], trivial, rfl, rfl⟩ hw
    · refine iff_of_true (fun hw _ => hw ▸ Change.applied_aim _ _) ?_
      cases spurious with
      | true => trivial
      | false =>
          intro t returns cur' target' hpc'
          rw [hpc, Pc.loop.injEq] at hpc'
          exact absurd hpc'.2.1 htries

/-- Along a run every call replaces its field and keeps the other one if
and only if no exchange of the tag for a nonzero one finds the null word
with its first attempt. -/
theorem replacesField_along_iff (w : Word) (as : List (Label L ι)) :
    Along step ReplacesField (initShared w : Shared L ι) as ↔
      Along step FirstGuessMisses (initShared w : Shared L ι) as :=
  along_congr (I := AllAim) (fun _ _ _ hs ht => hs.step ht)
    (fun _ _ _ hs ht => replacesField_iff hs ht) (allAim_init w) as

end

/-- Two-byte tags next to six-byte pointers. -/
def uint16 : Layout := ⟨6, 2, by decide, by decide, by decide⟩

/-- `exchange_tag(1)` on the null word returns it and leaves it. -/
theorem not_replacesField_null :
    (∃ t : Shared uint16 Unit, run step (initShared null)
        [.call () (.exchangeTag 1), .attempt () false] = some t ∧
        t.word = null ∧ t.pc () = .ready (some null)) ∧
      ¬∀ (w : Word) (as : List (Label uint16 Unit)),
        Along step ReplacesField (initShared w : Shared uint16 Unit) as := by
  refine ⟨⟨_, rfl, rfl, rfl⟩, fun h => ?_⟩
  have hattempt := (((h null [.call () (.exchangeTag 1), .attempt () false]) _ rfl).2 _ rfl).1
  rcases hattempt (.exchangeTag 1) 0 null _ rfl with ⟨-, cur, target, hloop⟩ | ⟨happlied, -⟩
  · exact absurd hloop (by simp [attempt, casWeak, initShared, Change.guess, Call.exchangeTag])
  · exact absurd (congrArg Prod.snd happlied) (by decide)

end JowiAsio.TaggedPtr

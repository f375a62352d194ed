import JowiAsio.Lockfree.TaggedPtr

/-!
Which instantiations of `TaggedPtr` (`tagged_ptr.cc`) pack losslessly.

Packing shifts by eight times the size of the tag, which C++ leaves
undefined at 64, and `tag` reads a `D` out of the `uint16_t` that holds
the raw tag, which is too short for a larger `D`. The operations are
therefore taken here with these two checks made explicit.
-/

namespace JowiAsio.TaggedPtr

/-! ### Operations with their preconditions -/

namespace Checked

/-- `v << n` of a `uint64_t`. -/
def shiftLeft (v : Word) (n : ℕ) : Option Word := if n < 64 then some (v <<< n) else none

/-- `v >> n` of a `uint64_t`. -/
def shiftRight (v : Word) (n : ℕ) : Option Word := if n < 64 then some (v >>> n) else none

/-- A `D` of `dsize` bytes read at the address of a `uint16_t`. -/
def readTag (dsize : ℕ) (raw : BitVec 16) : Option (BitVec (8 * dsize)) :=
  if dsize ≤ 2 then some (raw.setWidth (8 * dsize)) else none

def rawPtr (psize : ℕ) (w : Word) : Option (BitVec 64) :=
  (shiftLeft w (tagBitSize psize)).bind fun v => shiftRight v (tagBitSize psize)

def rawTag (psize : ℕ) (w : Word) : Option (BitVec 16) :=
  (shiftRight w (ptrBitSize psize)).map fun v => v.setWidth 16

def tag (psize dsize : ℕ) (w : Word) : Option (BitVec (8 * dsize)) :=
  (rawTag psize w).bind (readTag dsize)

def fromPair (psize : ℕ) {dsize : ℕ} (p : BitVec 64) (t : BitVec (8 * dsize)) : Option Word :=
  (rawPtr psize p).bind fun v =>
    (shiftLeft (longTag psize t) (ptrBitSize psize)).map fun l => v ||| l

end Checked

/-- The inequalities of the concept `Taggable`; an object has at least one
byte. -/
def Taggable (dsize psize : ℕ) : Prop := 1 ≤ dsize ∧ psize ≤ 8 ∧ dsize ≤ 8 - psize

/-- Packing and unpacking are defined and lose nothing. -/
structure Lossless (psize dsize : ℕ) : Prop where
  unpack : ∀ (p : BitVec 64) (t : BitVec (8 * dsize)), p.toNat < 2 ^ (8 * psize) →
    ∃ w, Checked.fromPair psize p t = some w ∧ Checked.rawPtr psize w = some p ∧
      Checked.tag psize dsize w = some t
  repack : ∀ (p : BitVec 64) (t : BitVec (8 * dsize)) (w : Word),
    Checked.fromPair psize p t = some w → ∃ p' t', Checked.rawPtr psize w = some p' ∧
      Checked.tag psize dsize w = some t' ∧ Checked.fromPair psize p' t' = some w
  inj : ∀ (p q : BitVec 64) (t u : BitVec (8 * dsize)), p.toNat < 2 ^ (8 * psize) →
    q.toNat < 2 ^ (8 * psize) →
    (Checked.fromPair psize p t = Checked.fromPair psize q u ↔ p = q ∧ t = u)

/-! ### The checks -/

namespace Layout

variable (L : Layout)

theorem tagBitSize_lt : tagBitSize L.psize < 64 := by
  have := L.psize_pos
  rw [tagBitSize, tagSize]
  omega

theorem checked_rawPtr (w : Word) : Checked.rawPtr L.psize w = some (rawPtr L.psize w) := by
  simp only [Checked.rawPtr, Checked.shiftLeft, Checked.shiftRight, L.tagBitSize_lt, if_true,
    Option.bind_some, rawPtr]

end Layout

/-- With a tag of at least one byte the pointer has fewer than eight. -/
theorem ptrBitSize_lt {psize dsize : ℕ} (h : Taggable dsize psize) : ptrBitSize psize < 64 := by
  obtain ⟨hpos, -, hle⟩ := h
  rw [ptrBitSize]
  omega

section

variable {L : Layout} (h : Taggable L.dsize L.psize)

include h

theorem checked_tag (w : Word) :
    Checked.tag L.psize L.dsize w = some (tag L.psize L.dsize w) := by
  simp only [Checked.tag, Checked.rawTag, Checked.shiftRight, ptrBitSize_lt h, if_true,
    Option.map_some, Option.bind_some, Checked.readTag, L.dsize_le, tag, rawTag]

theorem checked_fromPair (p : BitVec 64) (t : BitVec (8 * L.dsize)) :
    Checked.fromPair L.psize p t = some (fromPair L.psize p t) := by
  simp only [Checked.fromPair, L.checked_rawPtr, Option.bind_some, Checked.shiftLeft,
    ptrBitSize_lt h, if_true, Option.map_some, fromPair]

theorem Layout.lossless : Lossless L.psize L.dsize := by
  refine ⟨?_, ?_, ?_⟩
  · intro p t hp
    refine ⟨_, checked_fromPair h p t, ?_, ?_⟩
    · rw [L.checked_rawPtr, L.rawPtr_fromPair, L.rawPtr_of_lt hp]
    · rw [checked_tag h, L.tag_fromPair]
  · intro p t w hw
    rw [checked_fromPair h, Option.some.injEq] at hw
    subst hw
    refine ⟨_, _, L.checked_rawPtr _, checked_tag h _, ?_⟩
    rw [checked_fromPair h, L.fromPair_rawPtr_tag]
  · intro p q t u hp hq
    rw [checked_fromPair h, checked_fromPair h, Option.some.injEq]
    constructor
    · intro he
      refine ⟨?_, ?_⟩
      · rw [← L.rawPtr_of_lt hp, ← L.rawPtr_fromPair p t, he, L.rawPtr_fromPair, L.rawPtr_of_lt hq]
      · rw [← L.tag_fromPair p t, he, L.tag_fromPair]
    · rintro ⟨rfl, rfl⟩
      rfl

end

/-- Without a pointer byte the first shift of `from_pair` is by 64. -/
theorem not_lossless_of_psize_zero (dsize : ℕ) : ¬Lossless 0 dsize := by
  intro h
  obtain ⟨w, -, hptr, -⟩ := h.unpack 0 0 (by decide)
  exact Option.some_ne_none _ hptr.symm

/-- A tag of more than two bytes is not in the raw tag. -/
theorem checked_tag_of_gt {dsize : ℕ} (hd : 2 < dsize) (psize : ℕ) (w : Word) :
    Checked.tag psize dsize w = none := by
  have hread : ∀ raw, Checked.readTag dsize raw = none := fun raw => if_neg (by omega)
  rw [Checked.tag]
  cases Checked.rawTag psize w with
  | none => rfl
  | some raw => exact hread raw

/-- Packing is lossless if and only if the pointer has at least one byte
and the tag at most two. -/
theorem lossless_iff {psize dsize : ℕ} (h : Taggable dsize psize) :
    Lossless psize dsize ↔ 1 ≤ psize ∧ dsize ≤ 2 := by
  constructor
  · intro hl
    refine ⟨Nat.pos_of_ne_zero ?_, ?_⟩
    · rintro rfl
      exact not_lossless_of_psize_zero dsize hl
    · by_contra hd
      obtain ⟨w, -, -, htag⟩ := hl.unpack 0 0 (Nat.two_pow_pos _)
      rw [checked_tag_of_gt (Nat.lt_of_not_le hd)] at htag
      exact Option.some_ne_none _ htag.symm
  · rintro ⟨hp, hd⟩
    have hfits : psize + dsize ≤ 8 := by
      obtain ⟨-, hp8, hd8⟩ := h
      omega
    exact Layout.lossless (L := ⟨psize, dsize, hp, hd, hfits⟩) h

theorem lossless_uint16 : Lossless 6 2 := (lossless_iff ⟨by decide, by decide, by decide⟩).2
  ⟨by decide, by decide⟩

/-- A tag of four bytes next to a pointer of four: `tag` reads two bytes
too many of every word. -/
theorem not_lossless_uint32 : Taggable 4 4 ∧ (∀ w, Checked.tag 4 4 w = none) ∧
    ¬∀ psize dsize, Taggable dsize psize → Lossless psize dsize := by
  have htaggable : Taggable 4 4 := ⟨by decide, by decide, by decide⟩
  have hnone : ∀ w, Checked.tag 4 4 w = none := fun w => checked_tag_of_gt (by decide) 4 w
  refine ⟨htaggable, hnone, fun h => ?_⟩
  obtain ⟨w, -, -, htag⟩ := (h 4 4 htaggable).unpack 0 0 (by decide)
  rw [hnone] at htag
  exact Option.some_ne_none _ htag.symm

end JowiAsio.TaggedPtr

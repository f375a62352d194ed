import Mathlib.Data.BitVec

/-!
`TaggedPtr` (`tagged_ptr.cc`): a pointer of `psize` bytes and a tag of the
remaining bytes in one 64-bit word, and the atomic operations on such a
word.

The first section is the packing itself, for any `psize` and any size
`dsize` in bytes of the tag type `D`; a value of `D` is the bit pattern of
its bytes, the first byte least significant. The second one says bit by
bit what packing and unpacking do where the sizes fit (`Layout`). The last
section fixes `psize = 6`, the default of the template and the only value
the library uses: an address is then one that fits in 48 bits, and packing
and unpacking are inverse to each other.
-/

namespace JowiAsio

/-- A 64-bit machine word. -/
abbrev Word := BitVec 64

namespace TaggedPtr

/-! ### Packing -/

/-- Size of the tag in bytes. -/
def tagSize (psize : ℕ) : ℕ := 8 - psize

def tagBitSize (psize : ℕ) : ℕ := tagSize psize * 8

def ptrBitSize (psize : ℕ) : ℕ := psize * 8

def rawPtr (psize : ℕ) (w : Word) : BitVec 64 :=
  (w <<< tagBitSize psize) >>> tagBitSize psize

def rawTag (psize : ℕ) (w : Word) : BitVec 16 := (w >>> ptrBitSize psize).setWidth 16

/-- The bits of the raw tag read as a `D`. -/
def tag (psize dsize : ℕ) (w : Word) : BitVec (8 * dsize) :=
  (rawTag psize w).setWidth (8 * dsize)

/-- The bytes `memcpy` puts into the zeroed `long_tag`. -/
def longTag (psize : ℕ) {dsize : ℕ} (t : BitVec (8 * dsize)) : Word :=
  (t.setWidth (8 * min (dsize % 256) (tagSize psize))).setWidth 64

def fromPair (psize : ℕ) {dsize : ℕ} (p : BitVec 64) (t : BitVec (8 * dsize)) : Word :=
  rawPtr psize p ||| (longTag psize t <<< ptrBitSize psize)

def null : Word := 0

def nullTag (psize : ℕ) (p : BitVec 64) : Word := rawPtr psize p

/-! ### The bits of a word -/

/-- A size of the pointer and one of the tag that fit together. -/
structure Layout where
  psize : ℕ
  dsize : ℕ
  psize_pos : 1 ≤ psize
  dsize_le : dsize ≤ 2
  fits : psize + dsize ≤ 8

namespace Layout

variable (L : Layout)

theorem getLsbD_rawPtr (w : Word) (i : ℕ) :
    (rawPtr L.psize w).getLsbD i = (decide (i < 8 * L.psize) && w.getLsbD i) := by
  have hfits := L.fits
  have hge : ¬(8 - L.psize) * 8 + i < (8 - L.psize) * 8 := by omega
  have hlt : (8 - L.psize) * 8 + i < 64 ↔ i < 8 * L.psize := by omega
  simp only [rawPtr, tagBitSize, tagSize, BitVec.getLsbD_ushiftRight, BitVec.getLsbD_shiftLeft,
    Nat.add_sub_cancel_left, hge, hlt, decide_false, Bool.not_false, Bool.and_true]

theorem getLsbD_tag (w : Word) (i : ℕ) : (tag L.psize L.dsize w).getLsbD i =
    (decide (i < 8 * L.dsize) && w.getLsbD (8 * L.psize + i)) := by
  have hd := L.dsize_le
  simp only [tag, rawTag, ptrBitSize, BitVec.getLsbD_setWidth, BitVec.getLsbD_ushiftRight,
    Nat.mul_comm L.psize 8]
  by_cases hi : i < 8 * L.dsize
  · simp [hi, show i < 16 by omega]
  · simp [hi]

/-- The bytes of the tag that `memcpy` copies are all of them. -/
theorem getLsbD_longTag (t : BitVec (8 * L.dsize)) (i : ℕ) :
    (longTag L.psize t).getLsbD i = t.getLsbD i := by
  have hfits := L.fits
  have hmin : min (L.dsize % 256) (8 - L.psize) = L.dsize := by omega
  simp only [longTag, tagSize, hmin, BitVec.getLsbD_setWidth]
  by_cases hi : i < 8 * L.dsize
  · simp [hi, show i < 64 by omega]
  · rw [BitVec.getLsbD_of_ge t i (by omega), Bool.and_false, Bool.and_false]

theorem getLsbD_fromPair (p : BitVec 64) (t : BitVec (8 * L.dsize)) {i : ℕ} (hi : i < 64) :
    (fromPair L.psize p t).getLsbD i =
      if i < 8 * L.psize then p.getLsbD i else t.getLsbD (i - 8 * L.psize) := by
  simp only [fromPair, ptrBitSize, BitVec.getLsbD_or, L.getLsbD_rawPtr, BitVec.getLsbD_shiftLeft,
    L.getLsbD_longTag, Nat.mul_comm L.psize 8]
  by_cases h : i < 8 * L.psize
  · simp [h]
  · simp [h, hi]

@[simp] theorem rawPtr_fromPair (p : BitVec 64) (t : BitVec (8 * L.dsize)) :
    rawPtr L.psize (fromPair L.psize p t) = rawPtr L.psize p := by
  apply BitVec.eq_of_getLsbD_eq
  intro i hi
  rw [L.getLsbD_rawPtr, L.getLsbD_rawPtr, L.getLsbD_fromPair p t hi]
  by_cases h : i < 8 * L.psize <;> simp [h]

@[simp] theorem tag_fromPair (p : BitVec 64) (t : BitVec (8 * L.dsize)) :
    tag L.psize L.dsize (fromPair L.psize p t) = t := by
  have hfits := L.fits
  apply BitVec.eq_of_getLsbD_eq
  intro i hi
  rw [L.getLsbD_tag, L.getLsbD_fromPair p t (by omega), if_neg (by omega),
    Nat.add_sub_cancel_left, decide_eq_true hi, Bool.true_and]

/-- Truncating twice is truncating once. -/
@[simp] theorem rawPtr_rawPtr (w : Word) :
    rawPtr L.psize (rawPtr L.psize w) = rawPtr L.psize w := by
  apply BitVec.eq_of_getLsbD_eq
  intro i _
  rw [L.getLsbD_rawPtr, L.getLsbD_rawPtr, ← Bool.and_assoc, Bool.and_self]

/-- A pointer that fits is not truncated. -/
theorem rawPtr_of_lt {p : BitVec 64} (h : p.toNat < 2 ^ (8 * L.psize)) :
    rawPtr L.psize p = p := by
  apply BitVec.eq_of_getLsbD_eq
  intro i _
  rw [L.getLsbD_rawPtr]
  by_cases hi : i < 8 * L.psize
  · rw [decide_eq_true hi, Bool.true_and]
  · have hlt : p.toNat < 2 ^ i := Nat.lt_of_lt_of_le h (Nat.pow_le_pow_right (by omega) (by omega))
    rw [decide_eq_false hi, Bool.false_and, BitVec.getLsbD, Nat.testBit_lt_two_pow hlt]

/-- Nothing of a word that was packed is lost by unpacking it. -/
theorem fromPair_rawPtr_tag (p : BitVec 64) (t : BitVec (8 * L.dsize)) :
    fromPair L.psize (rawPtr L.psize (fromPair L.psize p t))
      (tag L.psize L.dsize (fromPair L.psize p t)) = fromPair L.psize p t := by
  apply BitVec.eq_of_getLsbD_eq
  intro i hi
  rw [rawPtr_fromPair, tag_fromPair, L.getLsbD_fromPair _ _ hi, L.getLsbD_fromPair _ _ hi,
    L.getLsbD_rawPtr]
  by_cases h : i < 8 * L.psize <;> simp [h]

end Layout

end TaggedPtr

/-! ### Six-byte pointers -/

/-- An address that fits in 48 bits; `0` is the null pointer. -/
abbrev Addr := BitVec 48

namespace TaggedPtr

/-- `from_pair` at `psize = 6`, on an address that fits. -/
def pack {dsize : ℕ} (p : Addr) (t : BitVec (8 * dsize)) : Word :=
  fromPair 6 (p.setWidth 64) t

/-- `raw_ptr` at `psize = 6`. -/
def addr (w : Word) : Addr := (rawPtr 6 w).setWidth 48

/-- The sizes of the default, for a tag of at most two bytes. -/
def Layout.six {dsize : ℕ} (hd : dsize ≤ 2) : Layout :=
  ⟨6, dsize, Nat.le_add_left 1 5, hd, Nat.add_le_add_left hd 6⟩

theorem getLsbD_pack {dsize : ℕ} (hd : dsize ≤ 2) (p : Addr) (t : BitVec (8 * dsize))
    (i : ℕ) (hi : i < 64) :
    (pack p t).getLsbD i = if i < 48 then p.getLsbD i else t.getLsbD (i - 48) := by
  have h := (Layout.six hd).getLsbD_fromPair (p.setWidth 64) t hi
  rw [BitVec.getLsbD_setWidth, decide_eq_true hi, Bool.true_and] at h
  exact h

theorem getLsbD_addr (w : Word) (i : ℕ) :
    (addr w).getLsbD i = (decide (i < 48) && w.getLsbD i) := by
  have hptr : (rawPtr 6 w).getLsbD i = (decide (i < 48) && w.getLsbD i) :=
    (Layout.six (Nat.zero_le 2)).getLsbD_rawPtr w i
  rw [addr, BitVec.getLsbD_setWidth, hptr, ← Bool.and_assoc, Bool.and_self]

theorem getLsbD_tag {dsize : ℕ} (hd : dsize ≤ 2) (w : Word) (i : ℕ) :
    (tag 6 dsize w).getLsbD i = (decide (i < 8 * dsize) && w.getLsbD (48 + i)) :=
  (Layout.six hd).getLsbD_tag w i

variable {dsize : ℕ}

@[simp] theorem addr_pack (hd : dsize ≤ 2) (p : Addr) (t : BitVec (8 * dsize)) :
    addr (pack p t) = p := by
  apply BitVec.eq_of_getLsbD_eq
  intro i hi
  rw [getLsbD_addr, getLsbD_pack hd _ _ _ (by omega)]
  simp [hi]

@[simp] theorem tag_pack (hd : dsize ≤ 2) (p : Addr) (t : BitVec (8 * dsize)) :
    tag 6 dsize (pack p t) = t := by
  apply BitVec.eq_of_getLsbD_eq
  intro i hi
  rw [getLsbD_tag hd, getLsbD_pack hd _ _ _ (by omega)]
  simp [hi]

/-- With two-byte tags no bit of the word is lost. -/
@[simp] theorem pack_addr_tag (w : Word) : pack (addr w) (tag 6 2 w) = w := by
  apply BitVec.eq_of_getLsbD_eq
  intro i hi
  rw [getLsbD_pack (le_refl 2) _ _ _ hi]
  split_ifs with h
  · rw [getLsbD_addr]; simp [h]
  · rw [getLsbD_tag (le_refl 2), show 48 + (i - 48) = i by omega,
      decide_eq_true (by omega), Bool.true_and]

@[simp] theorem addr_null : addr null = 0 := by decide

@[simp] theorem tag_null : tag 6 2 null = 0 := by decide

/-- A word with a pointer in it is not the null word. -/
theorem pack_ne_null (hd : dsize ≤ 2) {p : Addr} (hp : p ≠ 0) (t : BitVec (8 * dsize)) :
    pack p t ≠ null := by
  intro h
  exact hp (by rw [← addr_pack hd p t, h, addr_null])

end TaggedPtr

end JowiAsio

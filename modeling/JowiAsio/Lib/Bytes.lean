import Mathlib.Data.Fin.Basic
import Mathlib.Data.Nat.Notation

/-!
The bytes of a machine word, the first one least significant.
-/

namespace JowiAsio.Lib

abbrev Byte := BitVec 8

/-- The word with these bytes. -/
def ofBytes : {n : ℕ} → (Fin n → Byte) → BitVec (8 * n)
  | 0, _ => 0
  | n + 1, f => ((f (Fin.last n)) ++ ofBytes fun k : Fin n => f k.castSucc).cast (by omega)

/-- The byte at an offset. -/
def byteAt {w : ℕ} (v : BitVec w) (k : ℕ) : Byte := v.extractLsb' (8 * k) 8

theorem byteAt_ofBytes {n : ℕ} (f : Fin n → Byte) (k : Fin n) : byteAt (ofBytes f) k = f k := by
  apply BitVec.eq_of_getLsbD_eq
  intro i hi
  rw [byteAt, BitVec.getLsbD_extractLsb', decide_eq_true hi, Bool.true_and]
  induction n with
  | zero => exact k.elim0
  | succ n ih =>
      rw [ofBytes, BitVec.getLsbD_cast, BitVec.getLsbD_append]
      cases k using Fin.lastCases with
      | last =>
          rw [Fin.val_last, if_neg (by omega), Nat.add_sub_cancel_left]
      | cast k =>
          rw [Fin.val_castSucc, if_pos (by omega)]
          exact ih (fun k => f k.castSucc) k

theorem ofBytes_inj {n : ℕ} {f g : Fin n → Byte} : ofBytes f = ofBytes g ↔ f = g := by
  constructor
  · intro h
    ext1 k
    rw [← byteAt_ofBytes f k, h, byteAt_ofBytes]
  · exact congrArg ofBytes

end JowiAsio.Lib

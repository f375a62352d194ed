import Mathlib.Algebra.BigOperators.Group.Finset.Piecewise
import Mathlib.Algebra.Order.BigOperators.Group.Finset
import Mathlib.Data.List.Count
import Mathlib.Logic.Relation
import Mathlib.Order.Minimal

/-!
Reference counting of objects that hold one pointer each.

`out` is the pointer in each object and `live` the objects that have not
been freed. The references to an object are those that the live objects
hold and those from outside, the roots. `RefCounted` says that the counts
are the numbers of references and that the live objects are those with a
count. Taking, dropping and moving a reference and making an object keep
it; dropping the last reference frees the object, and the reference that
it held becomes one from outside that is still to be dropped.

Where no pointers form a cycle, a live object can be reached from a root
(`RefCounted.reached`). So without roots nothing is live.
-/

namespace JowiAsio.Lib

variable {ν : Type*} [DecidableEq ν] {live : Finset ν} {out : ν → Option ν}
  {count roots roots' : ν → ℕ}

/-- The references to `n` that the live objects hold. -/
def inside (live : Finset ν) (out : ν → Option ν) (n : ν) : ℕ :=
  ∑ m ∈ live, (out m).toList.count n

structure RefCounted (live : Finset ν) (out : ν → Option ν) (count roots : ν → ℕ) : Prop where
  counted : ∀ n, count n = roots n + inside live out n
  alive : ∀ n, n ∈ live ↔ 0 < count n

theorem inside_update (out : ν → Option ν) {m : ν} (hm : m ∈ live) (v : Option ν) (n : ν) :
    inside live (Function.update out m v) n + (out m).toList.count n =
      inside live out n + v.toList.count n := by
  have hrest : ∑ k ∈ live.erase m, (Function.update out m v k).toList.count n =
      ∑ k ∈ live.erase m, (out k).toList.count n := by
    refine Finset.sum_congr rfl fun k hk => ?_
    rw [Function.update_of_ne (Finset.ne_of_mem_erase hk)]
  rw [inside, inside, ← Finset.add_sum_erase _ _ hm, hrest, Function.update_self,
    ← Finset.add_sum_erase live _ hm]
  omega

theorem inside_erase (out : ν → Option ν) {m : ν} (hm : m ∈ live) (n : ν) :
    inside (live.erase m) out n + (out m).toList.count n = inside live out n := by
  rw [inside, inside, ← Finset.add_sum_erase live _ hm, Nat.add_comm]

theorem inside_insert {m : ν} (hm : m ∉ live) (hout : out m = none) (n : ν) :
    inside (insert m live) out n = inside live out n := by
  simp [inside, Finset.sum_insert hm, hout]

namespace RefCounted

/-- What is referred to is live. -/
theorem live_of_root (h : RefCounted live out count roots) {n : ν} (hn : 0 < roots n) :
    n ∈ live := by
  rw [h.alive, h.counted]
  omega

theorem live_of_out (h : RefCounted live out count roots) {m n : ν} (hm : m ∈ live)
    (hmn : out m = some n) : n ∈ live := by
  have hpos : 0 < inside live out n := by
    refine Finset.sum_pos' (fun _ _ => Nat.zero_le _) ⟨m, hm, ?_⟩
    simp [hmn]
  rw [h.alive, h.counted]
  omega

/-- References to live objects are taken. -/
theorem retain (h : RefCounted live out count roots) {R : List ν} (hR : ∀ n ∈ R, n ∈ live)
    (hroots : ∀ n, roots' n = roots n + R.count n) :
    RefCounted live out (fun n => count n + R.count n) roots' where
  counted n := by
    rw [h.counted, hroots]
    omega
  alive n := by
    rw [h.alive]
    refine ⟨fun hn => by omega, fun hn => ?_⟩
    by_cases hmem : n ∈ R
    · exact (h.alive n).1 (hR n hmem)
    · rwa [List.count_eq_zero_of_not_mem hmem, Nat.add_zero] at hn

/-- A pointer is exchanged: the reference that it held comes out, and the
one that it holds then goes in. -/
theorem setOut (h : RefCounted live out count roots) {m : ν} (hm : m ∈ live) {v : Option ν}
    (hroots : ∀ n, roots' n + v.toList.count n = roots n + (out m).toList.count n) :
    RefCounted live (Function.update out m v) count roots' where
  counted n := by
    have hinside := inside_update out hm v n
    have hn := hroots n
    have hcount := h.counted n
    omega
  alive := h.alive

/-- A new object has one reference, from outside. -/
theorem alloc (h : RefCounted live out count roots) {m : ν} (hm : m ∉ live) (hout : out m = none)
    (hroots : ∀ n, roots' n = roots n + [m].count n) :
    RefCounted (insert m live) out (Function.update count m 1) roots' where
  counted n := by
    rw [inside_insert hm hout, hroots]
    have hcount := h.counted n
    rcases eq_or_ne n m with rfl | hne
    · have hzero : count n = 0 := Nat.eq_zero_of_not_pos fun hpos => hm ((h.alive n).2 hpos)
      rw [Function.update_self, List.count_singleton_self]
      omega
    · rw [Function.update_of_ne hne, List.count_singleton, if_neg (by simpa using hne.symm)]
      exact hcount
  alive n := by
    rcases eq_or_ne n m with rfl | hne
    · simp
    · rw [Function.update_of_ne hne, Finset.mem_insert, h.alive]
      exact or_iff_right hne

/-- A reference is dropped that is not the last one. -/
theorem drop (h : RefCounted live out count roots) {m : ν} (hm : 1 < count m)
    (hroots : ∀ n, roots' n + [m].count n = roots n) :
    RefCounted live out (Function.update count m (count m - 1)) roots' where
  counted n := by
    have hn := hroots n
    have hcount := h.counted n
    rcases eq_or_ne n m with rfl | hne
    · rw [List.count_singleton_self] at hn
      rw [Function.update_self]
      omega
    · rw [List.count_singleton, if_neg (by simpa using hne.symm)] at hn
      rw [Function.update_of_ne hne]
      omega
  alive n := by
    rcases eq_or_ne n m with rfl | hne
    · rw [Function.update_self, h.alive]
      omega
    · rw [Function.update_of_ne hne, h.alive]

/-- The last reference is dropped, and the one that the object holds comes
out. -/
theorem free (h : RefCounted live out count roots) {m : ν} (hm : count m = 1)
    (hroots : ∀ n, roots' n + [m].count n = roots n + (out m).toList.count n) :
    RefCounted (live.erase m) out (Function.update count m 0) roots' where
  counted n := by
    have hn := hroots n
    have hcount := h.counted n
    have hlive : m ∈ live := (h.alive m).2 (by omega)
    have hinside := inside_erase out hlive n
    rcases eq_or_ne n m with rfl | hne
    · rw [List.count_singleton_self] at hn
      rw [Function.update_self]
      omega
    · rw [List.count_singleton, if_neg (by simpa using hne.symm)] at hn
      rw [Function.update_of_ne hne]
      omega
  alive n := by
    rcases eq_or_ne n m with rfl | hne
    · simp
    · rw [Function.update_of_ne hne, Finset.mem_erase, h.alive]
      exact and_iff_right hne

/-- When every pointer leads to an object of a greater rank, every live
object can be reached from a root. -/
theorem reached (h : RefCounted live out count roots) {rank : ν → ℕ}
    (hrank : ∀ a b, out a = some b → rank a < rank b) {n : ν} (hn : n ∈ live) :
    ∃ r, 0 < roots r ∧ Relation.ReflTransGen (fun a b => a ∈ live ∧ out a = some b) r n := by
  induction hk : rank n using Nat.strongRecOn generalizing n with
  | ind k ih =>
      by_cases hroot : 0 < roots n
      · exact ⟨n, hroot, .refl⟩
      · -- some live object refers to `n`
        have hpos := (h.alive n).1 hn
        rw [h.counted] at hpos
        have hinside : 0 < inside live out n := by omega
        obtain ⟨m, hm, hmn⟩ := Finset.exists_ne_zero_of_sum_ne_zero hinside.ne'
        have hout : out m = some n := by
          have hmem := List.count_pos_iff.1 (Nat.pos_of_ne_zero hmn)
          simpa using hmem
        obtain ⟨r, hr, hpath⟩ := ih (rank m) (hk ▸ hrank m n hout) hm rfl
        exact ⟨r, hr, hpath.tail ⟨hm, hout⟩⟩

theorem eq_empty (h : RefCounted live out count roots) {rank : ν → ℕ}
    (hrank : ∀ a b, out a = some b → rank a < rank b) (hroots : ∀ n, roots n = 0) :
    live = ∅ := by
  refine Finset.eq_empty_of_forall_notMem fun n hn => ?_
  obtain ⟨r, hr, -⟩ := h.reached hrank hn
  exact absurd (hroots r) hr.ne'

end RefCounted

end JowiAsio.Lib

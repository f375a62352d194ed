import Mathlib.Data.List.Basic
import Mathlib.Data.List.Nodup
import Mathlib.Logic.Function.Basic
import Mathlib.Order.Minimal

/-!
Linked lists in a store of next pointers.

`Chain next o l` says that following `next` from `o` visits exactly the
nodes of `l`, in this order, and then ends. The store is a function, so a
chain is determined by its start (`Chain.unique`) and cannot visit a node
twice (`Chain.nodup`). Where every pointer leads to a node of a greater
rank, there is a chain from every node.
-/

namespace JowiAsio.Lib

variable {ν : Type*} {next : ν → Option ν}

def Chain (next : ν → Option ν) : Option ν → List ν → Prop
  | o, [] => o = none
  | o, a :: l => o = some a ∧ Chain next (next a) l

@[simp] theorem chain_nil {o : Option ν} : Chain next o [] ↔ o = none := Iff.rfl

@[simp] theorem chain_cons {o : Option ν} {a : ν} {l : List ν} :
    Chain next o (a :: l) ↔ o = some a ∧ Chain next (next a) l := Iff.rfl

theorem Chain.eq_nil {l : List ν} (h : Chain next none l) : l = [] := by
  cases l with
  | nil => rfl
  | cons a l => exact absurd h.1 (by simp)

/-- A chain from `a` starts with `a`. -/
theorem Chain.eq_cons {a : ν} {l : List ν} (h : Chain next (some a) l) :
    ∃ l', l = a :: l' ∧ Chain next (next a) l' := by
  cases l with
  | nil => exact absurd h (by simp)
  | cons b l =>
      obtain ⟨hb, hl⟩ := h
      obtain rfl := Option.some.inj hb
      exact ⟨l, rfl, hl⟩

theorem Chain.head {o : Option ν} {l : List ν} (h : Chain next o l) : l.head? = o := by
  cases l with
  | nil => exact h.symm
  | cons a l => exact h.1.symm

theorem Chain.unique {o : Option ν} {l l' : List ν} (h : Chain next o l)
    (h' : Chain next o l') : l = l' := by
  induction l generalizing o l' with
  | nil =>
      obtain rfl := h
      exact h'.eq_nil.symm
  | cons a l ih =>
      obtain ⟨rfl, hl⟩ := h
      obtain ⟨l'', rfl, hl''⟩ := h'.eq_cons
      rw [ih hl hl'']

/-- The rest of a chain behind one of its nodes. -/
theorem Chain.suffix {o : Option ν} {l : List ν} (h : Chain next o l) {a : ν} (ha : a ∈ l) :
    ∃ l', Chain next (next a) l' ∧ (a :: l') <:+ l := by
  induction l generalizing o with
  | nil => exact absurd ha List.not_mem_nil
  | cons b l ih =>
      rcases List.mem_cons.1 ha with rfl | ha
      · exact ⟨l, h.2, List.suffix_refl _⟩
      · obtain ⟨l', hl', hsuf⟩ := ih h.2 ha
        exact ⟨l', hl', hsuf.trans (List.suffix_cons b l)⟩

/-- A chain visits no node twice. -/
theorem Chain.nodup {o : Option ν} {l : List ν} (h : Chain next o l) : l.Nodup := by
  induction l generalizing o with
  | nil => exact List.nodup_nil
  | cons a l ih =>
      refine List.nodup_cons.2 ⟨fun ha => ?_, ih h.2⟩
      -- the rest behind the second visit would be the rest behind the first
      obtain ⟨l', hl', hsuf⟩ := h.2.suffix ha
      have hlen := hsuf.length_le
      rw [h.2.unique hl', List.length_cons] at hlen
      omega

/-! ### Ranks -/

/-- The nodes of a chain have a greater rank than the one it starts
behind, when every pointer leads to a node of a greater rank. -/
theorem Chain.rank_lt {rank : ν → ℕ} (hrank : ∀ a b, next a = some b → rank a < rank b) {a : ν}
    {l : List ν} (h : Chain next (next a) l) : ∀ b ∈ l, rank a < rank b := by
  induction l generalizing a with
  | nil => simp
  | cons c l ih =>
      have hac := hrank a c h.1
      intro b hb
      rcases List.mem_cons.1 hb with rfl | hb
      · exact hac
      · exact Nat.lt_trans hac (ih h.2 b hb)

/-- With bounded ranks, following pointers ends. -/
theorem exists_chain_of_rank {rank : ν → ℕ} {bound : ℕ}
    (hrank : ∀ a b, next a = some b → rank a < rank b ∧ rank b ≤ bound) (a : ν) :
    ∃ l, Chain next (next a) l := by
  induction hk : bound - rank a using Nat.strongRecOn generalizing a with
  | ind k ih =>
      cases ha : next a with
      | none => exact ⟨[], rfl⟩
      | some b =>
          obtain ⟨hlt, hle⟩ := hrank a b ha
          obtain ⟨l, hl⟩ := ih (bound - rank b) (by omega) b rfl
          exact ⟨b :: l, rfl, hl⟩

/-- A node of the least rank in a set has no pointer from the set. -/
theorem exists_unreferenced {rank : ν → ℕ} (hrank : ∀ a b, next a = some b → rank a < rank b)
    {G : Set ν} (hG : G.Nonempty) : ∃ b ∈ G, ∀ a ∈ G, next a ≠ some b := by
  obtain ⟨b, hb, hmin⟩ := exists_minimalFor_of_wellFoundedLT (· ∈ G) rank hG
  exact ⟨b, hb, fun a ha hab => absurd (hmin ha (hrank a b hab).le) (hrank a b hab).not_ge⟩

section

variable [DecidableEq ν]

/-- Writing to a node outside a chain does not change it. -/
theorem Chain.update {o : Option ν} {l : List ν} (h : Chain next o l) {a : ν} (ha : a ∉ l)
    (v : Option ν) : Chain (Function.update next a v) o l := by
  induction l generalizing o with
  | nil => exact h
  | cons b l ih =>
      have hne : b ≠ a := fun e => ha (e ▸ List.mem_cons_self)
      refine ⟨h.1, ?_⟩
      rw [Function.update_of_ne hne]
      exact ih h.2 fun hal => ha (List.mem_cons_of_mem _ hal)

/-- Linking a fresh node behind the node that ends a chain. -/
theorem Chain.link {o : Option ν} {l : List ν} (h : Chain next o l) {a b : ν} (ha : a ∈ l)
    (hend : next a = none) (hb : b ∉ l) (hnone : next b = none) :
    Chain (Function.update next a (some b)) o (l ++ [b]) := by
  induction l generalizing o with
  | nil => exact absurd ha List.not_mem_nil
  | cons c l ih =>
      have hbc : b ≠ c := fun e => hb (e ▸ List.mem_cons_self)
      rcases List.mem_cons.1 ha with rfl | hal
      · have hl := h.2
        rw [hend] at hl
        obtain rfl := hl.eq_nil
        simp [h.1, Function.update_of_ne hbc, hnone]
      · have hca : c ≠ a := fun e => (List.nodup_cons.1 h.nodup).1 (e ▸ hal)
        refine ⟨h.1, ?_⟩
        rw [Function.update_of_ne hca]
        exact ih h.2 hal fun hbl => hb (List.mem_cons_of_mem _ hbl)

end

end JowiAsio.Lib

import Mathlib.Data.List.Count
import Mathlib.Data.List.Perm.Basic

/-!
Holders, and the items that they name.

How often an item is named, over all holders, is what an invariant of a
machine in which items are handed on can speak about. A step replaces the
holders `O` by `N` and leaves the others, `H`, as they are, so only what
`O` and `N` name has to be counted. The lemmas avoid subtraction, so that
`omega` can combine them.
-/

namespace JowiAsio.Lib

variable {F κ : Type*} [DecidableEq κ] {names names' : F → List κ} {all all' O N H : List F}

theorem count_split (hO : all.Perm (O ++ H)) (c : κ) :
    (all.flatMap names).count c = (O.flatMap names).count c + (H.flatMap names).count c := by
  rw [(hO.flatMap_right names).count_eq c, List.flatMap_append, List.count_append]

theorem count_flatMap_pos {g : F} {c : κ} (hg : g ∈ H) (hc : c ∈ names g) :
    0 < (H.flatMap names).count c :=
  List.count_pos_iff.2 (List.mem_flatMap.2 ⟨g, hg, hc⟩)

/-- What is named at most once, and by a holder in `H`, is not named in
`O`. -/
theorem not_named_of_rest (hO : all.Perm (O ++ H)) {c : κ} (hone : (all.flatMap names).count c ≤ 1)
    {g : F} (hg : g ∈ H) (hc : c ∈ names g) : c ∉ O.flatMap names := by
  intro hmem
  have hsplit : (all.flatMap names).count c = _ := count_split hO c
  have hH := count_flatMap_pos hg hc
  have hpos := List.count_pos_iff.2 hmem
  omega

/-- The counts change as those of the replaced holders do. -/
theorem count_replace (hO : all.Perm (O ++ H)) (hN : all'.Perm (N ++ H))
    (hH : ∀ g ∈ H, names' g = names g) (c : κ) :
    (all'.flatMap names').count c + (O.flatMap names).count c =
      (all.flatMap names).count c + (N.flatMap names').count c := by
  have hsame : H.flatMap names' = H.flatMap names := List.flatMap_congr hH
  rw [count_split hO c, count_split hN c, hsame]
  omega

/-! ### Holders in rows -/

/-- The holders in the row `w`, and those in the others. -/
theorem flatten_perm {rows : List (List F)} {w : ℕ} {row : List F} (hw : rows[w]? = some row) :
    rows.flatten.Perm (row ++ (rows.eraseIdx w).flatten) := by
  obtain ⟨hlt, rfl⟩ := List.getElem?_eq_some_iff.1 hw
  exact (List.getElem_cons_eraseIdx_perm hlt).symm.flatten

theorem flatten_set_perm {rows : List (List F)} {w : ℕ} (hw : w < rows.length) (row : List F) :
    (rows.set w row).flatten.Perm (row ++ (rows.eraseIdx w).flatten) :=
  (List.set_perm_cons_eraseIdx hw row).flatten

end JowiAsio.Lib

import Mathlib.Logic.Function.Basic
import Mathlib.Tactic.SplitIfs

/-!
The read-modify-write operations of an atomic cell, each as one step.

`casWeak spurious cell e d` is a weak compare-exchange: it succeeds when
the cell holds `e`, unless the label of the step makes it fail
spuriously, and on failure it reports the value the cell holds.
-/

namespace JowiAsio.Lib

variable {α : Type*}

/-- What a compare-exchange leaves behind: whether it succeeded, the cell
afterwards and the caller's `expected` afterwards. -/
structure CasResult (α : Type*) where
  ok : Bool
  cell : α
  expected : α
  deriving DecidableEq

section

variable [DecidableEq α]

def casWeak (spurious : Bool) (cell e d : α) : CasResult α :=
  if cell = e ∧ spurious = false then ⟨true, d, e⟩ else ⟨false, cell, cell⟩

def casStrong (cell e d : α) : CasResult α := casWeak false cell e d

/-- The two outcomes of a weak compare-exchange. -/
theorem casWeak_cases (spurious : Bool) (cell e d : α) :
    (cell = e ∧ spurious = false ∧ casWeak spurious cell e d = ⟨true, d, e⟩) ∨
      ((cell = e → spurious = true) ∧ casWeak spurious cell e d = ⟨false, cell, cell⟩) := by
  unfold casWeak
  split_ifs with h
  · exact .inl ⟨h.1, h.2, rfl⟩
  · exact .inr ⟨fun hc => by simpa [hc] using h, rfl⟩

theorem casWeak_ok {cell e : α} (h : cell = e) (d : α) : (casWeak false cell e d).ok = true := by
  simp [casWeak, h]

theorem casWeak_not_ok {spurious : Bool} {cell e : α} (h : cell = e → spurious = true) (d : α) :
    (casWeak spurious cell e d).ok = false := by
  rcases casWeak_cases spurious cell e d with ⟨hc, hf, -⟩ | ⟨-, hr⟩
  · simp [hf] at h
    exact absurd hc h
  · rw [hr]

end

end JowiAsio.Lib

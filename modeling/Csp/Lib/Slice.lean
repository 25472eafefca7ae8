import Mathlib.Data.List.Basic
import Mathlib.Tactic.Common
import Csp.Lib.Split

/-! Ranges of a list with their bounds checked, and positions of a separator: the cut at the
first separator is the two ranges around its position. -/

namespace Slice
variable {α : Type*}

/-- The elements from `i` on and before `j`, if the bounds are in order and in the list. -/
def range (l : List α) (i j : Nat) : Option (List α) :=
  if i ≤ j ∧ j ≤ l.length then some ((l.take j).drop i) else none

theorem range_of_le {l : List α} {i j : Nat} (hi : i ≤ j) (hj : j ≤ l.length) :
    range l i j = some ((l.take j).drop i) := if_pos ⟨hi, hj⟩

theorem range_to_end {l : List α} {i : Nat} (hi : i ≤ l.length) :
    range l i l.length = some (l.drop i) := by
  rw [range_of_le hi (Nat.le_refl _), List.take_length]

variable [DecidableEq α]

def position (sep : α) : List α → Option Nat
  | [] => none
  | a :: l => if a = sep then some 0 else (position sep l).map (· + 1)

theorem position_eq_cut (sep : α) (l : List α) :
    position sep l = (Split.cut sep l).map fun c => c.1.length := by
  induction l with
  | nil => rfl
  | cons a l ih =>
    by_cases ha : a = sep
    · simp [position, Split.cut, ha]
    · simp only [position, Split.cut, if_neg ha, ih, Option.map_map]
      rfl

theorem position_of_cut {sep : α} {l p q : List α} (h : Split.cut sep l = some (p, q)) :
    position sep l = some p.length := by
  rw [position_eq_cut, h, Option.map_some]

theorem position_of_cut_none {sep : α} {l : List α} (h : Split.cut sep l = none) :
    position sep l = none := by
  rw [position_eq_cut, h, Option.map_none]

end Slice

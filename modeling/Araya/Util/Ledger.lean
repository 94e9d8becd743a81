import Mathlib.Data.List.Basic

/-!
Tables whose entries are appended under a key and taken back by it. What a table holds after a run is said by the run alone:
each entry that no later move of the run takes back, in the order in which they were entered.
-/

namespace Araya.Ledger

universe u v

inductive Move (κ : Type u) (ν : Type v) where
  | enter (key : κ) (value : ν)
  | leave (key : κ)

variable {κ : Type u} {ν : Type v} [DecidableEq κ]

def Move.apply (table : List (κ × ν)) : Move κ ν → List (κ × ν)
  | .enter key value => table ++ [(key, value)]
  | .leave key => table.filter fun entry => decide (entry.1 ≠ key)

def run (moves : List (Move κ ν)) (table : List (κ × ν)) : List (κ × ν) := moves.foldl Move.apply table

/-- The run takes the key back. -/
def leaves (key : κ) (moves : List (Move κ ν)) : Bool :=
  moves.any fun
    | .enter _ _ => false
    | .leave other => decide (key = other)

/-- The entries of a run that it does not take back. -/
def standing : List (Move κ ν) → List (κ × ν)
  | [] => []
  | .enter key value :: moves => if leaves key moves then standing moves else (key, value) :: standing moves
  | .leave _ :: moves => standing moves

theorem run_standing (moves : List (Move κ ν)) (table : List (κ × ν)) :
    run moves table = (table.filter fun entry => !leaves entry.1 moves) ++ standing moves := by
  unfold run
  induction moves generalizing table with
  | nil => simp [leaves, standing]
  | cons move moves ih =>
      rw [List.foldl_cons, ih]
      cases move with
      | enter key value =>
          rw [Move.apply, List.filter_append, List.append_assoc, standing]
          congr 1
          cases left : leaves key moves <;> simp [left]
      | leave key =>
          rw [Move.apply, List.filter_filter, standing]
          congr 2
          funext entry
          simp only [leaves, List.any_cons]
          by_cases same : entry.1 = key <;> simp [same]

/-- A run that started with nothing holds what stands. -/
theorem run_nil (moves : List (Move κ ν)) : run moves [] = standing moves := by
  rw [run_standing]
  rfl

end Araya.Ledger

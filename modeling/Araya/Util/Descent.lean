import Araya.Util.Machine
import Araya.Util.Sorted
import Mathlib.Data.Prod.Lex
import Mathlib.Order.WellFounded

/-!
Machines that come to rest. Where a measure falls with every frame that is executed, and does not grow with what the
environment does in between, each call comes to its end. A measure of a state with a map of records is a total over the
records.
-/

namespace Araya
namespace StackMachine

universe u v w x
variable {σ : Type u} {φ : Type v} {ι : Type w} {m : StackMachine σ φ ι} {α : Type x} [Preorder α]

/-- The measure falls with every frame, and the operations inside a running call do not raise it. -/
structure Descent (m : StackMachine σ φ ι) (μ : Config σ φ → α) : Prop where
  run : ∀ c c', m.next c .run = some c' → μ c' < μ c
  inside : ∀ c i c', m.nested i = true → m.next c (.op i) = some c' → μ c' ≤ μ c

section
variable [WellFoundedLT α] {μ : Config σ φ → α}

/-- Every stack is executed to its end. -/
theorem Descent.drains (d : m.Descent μ) (c : Config σ φ) :
    ∃ n e, m.drain (fun _ _ => true) n c = some e ∧ e.stack = [] := by
  induction h : μ c using WellFoundedLT.induction generalizing c with
  | ind _ ih =>
      subst h
      cases hst : c.stack with
      | nil => exact ⟨0, c, by simp [drain, hst], hst⟩
      | cons f rest =>
          obtain ⟨c', step⟩ : ∃ c', m.next c .run = some c' := by
            simp only [next, hst]
            cases m.exec f c.state <;> exact ⟨_, rfl⟩
          obtain ⟨n, e, run, empty⟩ := ih (μ c') (d.run c c' step) c' rfl
          refine ⟨n + 1, e, ?_, empty⟩
          simp [drain, hst, step, run]

/-- In a run of frames and of operations inside them only finitely many steps execute a frame. -/
theorem Descent.finite (d : m.Descent μ) (run : ℕ → Config σ φ) (a : ℕ → Label ι)
    (steps : ∀ n, m.next (run n) (a n) = some (run (n + 1))) (inside : ∀ n i, a n = .op i → m.nested i = true) :
    ∃ N, ∀ n, N ≤ n → a n ≠ .run := by
  have falls (n k : ℕ) : μ (run (n + k)) ≤ μ (run n) := by
    induction k with
    | zero => exact le_refl _
    | succ k ih =>
        refine le_trans ?_ ih
        have step := steps (n + k)
        cases here : a (n + k) with
        | run => exact le_of_lt (d.run _ _ (here ▸ step))
        | op i => exact d.inside _ i _ (inside _ i here) (here ▸ step)
  have from_on (n : ℕ) : ∃ N, ∀ k, N ≤ k → a k ≠ .run := by
    induction h : μ (run n) using WellFoundedLT.induction generalizing n with
    | ind _ ih =>
        subst h
        by_cases later : ∃ k, a (n + k) = .run
        · obtain ⟨k, here⟩ := later
          have below : μ (run (n + k + 1)) < μ (run n) := lt_of_lt_of_le (d.run _ _ (here ▸ steps (n + k))) (falls n k)
          exact ih _ below _ rfl
        · refine ⟨n, fun k hk here => later ⟨k - n, ?_⟩⟩
          rwa [Nat.add_sub_cancel' hk]
  exact from_on 0

end
end StackMachine

/-! Totals -/

namespace SortedMap

universe u v
variable {α : Type u} {β : Type v} [LinearOrder α]

/-- The total of a measure over the values of the map. -/
def total (m : SortedMap α β) (w : β → Nat) : Nat := m.toList.foldr (fun e n => w e.2 + n) 0

/-- An insertion adds the new value to what is left without the key. -/
theorem total_insert (m : SortedMap α β) (a : α) (x : β) (w : β → Nat) :
    (m.insert a x).total w = (m.erase a).total w + w x := by
  have fresh : (a, x) ∉ (m.erase a).toList := by
    intro h
    simpa using mem_toList.mp h
  have perm : (m.insert a x).toList.Perm ((a, x) :: (m.erase a).toList) := by
    refine (List.perm_ext_iff_of_nodup (nodup_toList _) (List.nodup_cons.mpr ⟨fresh, nodup_toList _⟩)).mpr ?_
    rintro ⟨b, y⟩
    rw [List.mem_cons, mem_toList, mem_toList, find?_insert, find?_erase, Prod.mk.injEq]
    by_cases hba : b = a
    · simp only [hba, if_pos, true_and, Option.some.injEq, reduceCtorEq, or_false]
      exact eq_comm
    · simp [hba]
  have added := perm.foldr_eq' (f := fun e n => w e.2 + n) (fun x _ y _ z => Nat.add_left_comm ..) 0
  rw [total, total, added, List.foldr_cons, Nat.add_comm]

theorem total_erase {m : SortedMap α β} {a : α} {x : β} (h : m.find? a = some x) (w : β → Nat) :
    m.total w = (m.erase a).total w + w x := by
  have same : m.insert a x = m := by
    apply ext_find?
    intro b
    rw [find?_insert]
    split
    · next hb => rw [hb, h]
    · rfl
  have added := total_insert m a x w
  rwa [same] at added

theorem total_replace {m : SortedMap α β} {a : α} {x : β} (h : m.find? a = some x) (y : β) (w : β → Nat) :
    (m.insert a y).total w + w x = m.total w + w y := by
  rw [total_insert, total_erase h]
  omega

theorem total_erase_le (m : SortedMap α β) (a : α) (w : β → Nat) : (m.erase a).total w ≤ m.total w := by
  cases h : m.find? a with
  | some x => exact Nat.le_trans (Nat.le_add_right _ (w x)) (Nat.le_of_eq (total_erase h w).symm)
  | none => rw [erase_of_none h]

theorem le_total {m : SortedMap α β} {a : α} {x : β} (h : m.find? a = some x) (w : β → Nat) : w x ≤ m.total w := by
  rw [total_erase h]
  exact Nat.le_add_left ..

theorem total_filterMap (m : SortedMap α β) {f : β → Option β} {w : β → Nat} (less : ∀ x y, f x = some y → w y ≤ w x) :
    (m.filterMap f).total w ≤ m.total w := by
  obtain ⟨l, sorted⟩ := m
  simp only [total, filterMap]
  clear sorted
  induction l with
  | nil => exact Nat.le_refl _
  | cons e es ih =>
      simp only [List.filterMap_cons, List.foldr_cons]
      cases h : f e.2 with
      | none => exact Nat.le_trans ih (Nat.le_add_left ..)
      | some y =>
          simp only [Option.map_some, List.foldr_cons]
          exact Nat.add_le_add (less e.2 y h) ih

end SortedMap
end Araya

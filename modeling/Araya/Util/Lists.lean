import Mathlib.Data.List.Basic
import Mathlib.Order.Lattice

/-!
Where an entry of a list comes from when one is added at the end or changed in place, what a joined list of words is, and
the runs of equal keys of a sorted list.
-/

namespace Araya
variable {α : Type*} {l : List α} {a b : α} {f : α → α} {i j : Nat}

theorem getElem?_concat (h : (l ++ [a])[i]? = some b) : l[i]? = some b ∨ i = l.length ∧ b = a := by
  rcases Nat.lt_trichotomy i l.length with old | last | beyond
  · exact .inl ((List.getElem?_append_left old).symm.trans h)
  · rw [last, List.getElem?_concat_length] at h
    exact .inr ⟨last, (Option.some.inj h).symm⟩
  · have out : (l ++ [a]).length ≤ i := by
      rw [List.length_append]
      exact beyond
    rw [List.getElem?_eq_none out] at h
    cases h

theorem getElem?_modify_cases (h : (l.modify i f)[j]? = some b) :
    ∃ a, l[j]? = some a ∧ (i = j ∧ b = f a ∨ i ≠ j ∧ b = a) := by
  rw [List.getElem?_modify] at h
  obtain ⟨a, before, rfl⟩ := Option.map_eq_some_iff.mp h
  by_cases here : i = j
  · exact ⟨a, before, .inl ⟨here, if_pos here⟩⟩
  · exact ⟨a, before, .inr ⟨here, if_neg here⟩⟩

theorem getElem?_set_cases (h : (l.set i a)[j]? = some b) : j = i ∧ b = a ∨ l[j]? = some b := by
  rw [List.getElem?_set] at h
  split at h
  · next here =>
      split at h <;> cases h
      exact .inl ⟨here.symm, rfl⟩
  · exact .inr h

theorem intercalate_cons (separator word : List α) (more : List (List α)) :
    List.intercalate separator (word :: more) = word ++ more.flatMap (separator ++ ·) := by
  induction more generalizing word with
  | nil => rw [List.intercalate_singleton, List.flatMap_nil, List.append_nil]
  | cons next more ih => rw [List.intercalate_cons_cons, ih, List.flatMap_cons, List.append_assoc, List.append_assoc]

/-! Runs of equal keys -/

section
variable {κ β : Type*} [LinearOrder κ]

/-- The runs of entries with equal keys. -/
def runs : List (κ × β) → List (κ × List β)
  | [] => []
  | e :: rest =>
    match runs rest with
    | [] => [(e.1, [e.2])]
    | g :: gs => if e.1 = g.1 then (g.1, e.2 :: g.2) :: gs else (e.1, [e.2]) :: g :: gs

theorem runs_flatten (l : List (κ × β)) : (runs l).flatMap (fun g => g.2.map (Prod.mk g.1)) = l := by
  induction l with
  | nil => rfl
  | cons e rest ih =>
      unfold runs
      split
      case h_1 none =>
        rw [none] at ih
        rw [← ih]
        rfl
      case h_2 g gs some =>
        rw [some, List.flatMap_cons] at ih
        split
        case isTrue same =>
          rw [← ih, List.flatMap_cons, List.map_cons, ← same]
          rfl
        case isFalse =>
          rw [← ih, List.flatMap_cons, List.flatMap_cons]
          rfl

theorem runs_keys {l : List (κ × β)} (sorted : l.Pairwise fun a b => a.1 ≤ b.1) :
    (runs l).Pairwise (fun g h => g.1 < h.1) ∧ ∀ g ∈ runs l, g.2 ≠ [] ∧ ∃ e ∈ l, e.1 = g.1 := by
  induction l with
  | nil => exact ⟨.nil, nofun⟩
  | cons e rest ih =>
      obtain ⟨least, sorted⟩ := List.pairwise_cons.mp sorted
      obtain ⟨keys, held⟩ := ih sorted
      unfold runs
      split
      case h_1 => exact ⟨List.pairwise_singleton _ _, by simp⟩
      case h_2 g gs some =>
        rw [some] at keys held
        have older {g' : κ × List β} (member : g' ∈ g :: gs) : g'.2 ≠ [] ∧ ∃ e' ∈ e :: rest, e'.1 = g'.1 := by
          obtain ⟨full, e', there, key⟩ := held g' member
          exact ⟨full, e', List.mem_cons_of_mem _ there, key⟩
        split
        case isTrue same =>
          refine ⟨?_, fun g' member => ?_⟩
          · obtain ⟨less, keys⟩ := List.pairwise_cons.mp keys
            exact List.pairwise_cons.mpr ⟨less, keys⟩
          · rcases List.mem_cons.mp member with rfl | member
            · exact ⟨List.cons_ne_nil _ _, e, List.mem_cons_self, same⟩
            · exact older (List.mem_cons_of_mem _ member)
        case isFalse differs =>
          refine ⟨List.pairwise_cons.mpr ⟨fun g' member => ?_, keys⟩, fun g' member => ?_⟩
          · obtain ⟨-, e', there, key⟩ := held g List.mem_cons_self
            have less : e.1 < g.1 := lt_of_le_of_ne (key ▸ least e' there) differs
            rcases List.mem_cons.mp member with rfl | member
            · exact less
            · exact lt_trans less ((List.pairwise_cons.mp keys).1 g' member)
          · rcases List.mem_cons.mp member with rfl | member
            · exact ⟨List.cons_ne_nil _ _, e, List.mem_cons_self, rfl⟩
            · exact older member

theorem filter_flatten {groups : List (κ × List β)} (distinct : groups.Pairwise fun g h => g.1 ≠ h.1) {g : κ × List β}
    (member : g ∈ groups) :
    ((groups.flatMap fun g => g.2.map (Prod.mk g.1)).filter (·.1 = g.1)).map Prod.snd = g.2 := by
  have own (g : κ × List β) : ((g.2.map (Prod.mk g.1)).filter (·.1 = g.1)).map Prod.snd = g.2 := by
    rw [List.filter_eq_self.mpr (by simp), List.map_map]
    exact List.map_id _
  have other {g h : κ × List β} (apart : h.1 ≠ g.1) : (h.2.map (Prod.mk h.1)).filter (·.1 = g.1) = [] :=
    List.filter_eq_nil_iff.mpr (by simp [apart])
  induction groups with
  | nil => cases member
  | cons h groups ih =>
      obtain ⟨apart, distinct⟩ := List.pairwise_cons.mp distinct
      rw [List.flatMap_cons, List.filter_append, List.map_append]
      rcases List.mem_cons.mp member with rfl | member
      · have none : (groups.flatMap fun g => g.2.map (Prod.mk g.1)).filter (·.1 = g.1) = [] := by
          rw [List.filter_flatMap]
          exact List.flatMap_eq_nil_iff.mpr fun h member => other (apart h member).symm
        rw [own, none, List.map_nil, List.append_nil]
      · rw [other (apart g member), List.map_nil, List.nil_append, ih distinct member]

/-- The run of a key in a sorted list has all that the list holds under it. -/
theorem mem_runs {l : List (κ × β)} (sorted : l.Pairwise fun a b => a.1 ≤ b.1) {g : κ × List β} :
    g ∈ runs l ↔ g.2 ≠ [] ∧ (l.filter (·.1 = g.1)).map Prod.snd = g.2 := by
  obtain ⟨keys, held⟩ := runs_keys sorted
  have whole {g : κ × List β} (member : g ∈ runs l) : (l.filter (·.1 = g.1)).map Prod.snd = g.2 := by
    have found := filter_flatten (keys.imp ne_of_lt) member
    rwa [runs_flatten] at found
  refine ⟨fun member => ⟨(held g member).1, whole member⟩, fun ⟨full, same⟩ => ?_⟩
  have some : l.filter (·.1 = g.1) ≠ [] := fun none => full (by rw [← same, none, List.map_nil])
  obtain ⟨e, there⟩ := List.exists_mem_of_ne_nil _ some
  obtain ⟨inside, key⟩ := List.mem_filter.mp there
  rw [← runs_flatten l] at inside
  obtain ⟨g', member, under⟩ := List.mem_flatMap.mp inside
  obtain ⟨b, -, rfl⟩ := List.mem_map.mp under
  have key : g'.1 = g.1 := of_decide_eq_true key
  have : g' = g := Prod.ext key (by rw [← whole member, ← same, key])
  exact this ▸ member

end
end Araya

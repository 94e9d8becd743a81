import Araya.Runtime.Lifecycle

/-!
What a resolution is: satisfiability is that every required key has a usable
binding, and a satisfiable resolution collects exactly the usable bindings of
the declared keys.
-/

namespace Araya
namespace Runtime
variable {rt : Runtime} {id : FiberId} {scope : ScopeId}

theorem usable_iff {b : Binding} : usable id b = true ↔
    b.value.isSome = true ∧ b.state = .active ∧ b.available = true ∧ b.provider ≠ id := by
  simp [usable, and_assoc]

theorem binding?_eq_some {k : ServiceId} {b : Binding} : rt.binding? id scope k = some b ↔
    rt.contexts.lookup scope k = some b ∧ b.value.isSome = true ∧ b.state = .active ∧
      b.available = true ∧ b.provider ≠ id := by
  rw [binding?, Option.filter_eq_some_iff, usable_iff]

theorem binding?_congr {rt' : Runtime} {k : ServiceId}
    (h : rt'.contexts.lookup scope k = rt.contexts.lookup scope k) :
    rt'.binding? id scope k = rt.binding? id scope k := by
  rw [binding?, h, binding?]

/-! The loop over the declared dependencies -/

theorem resolveLoop_satisfiable {ds : List Dependency} {r : Resolution} (h : r.satisfiable = true) :
    (rt.resolveLoop id scope ds r).satisfiable = true ↔
      ∀ d ∈ ds, d.required = true → (rt.binding? id scope d.key).isSome = true := by
  induction ds generalizing r with
  | nil => simp [resolveLoop, h]
  | cons d ds ih =>
      simp only [resolveLoop, List.forall_mem_cons]
      split
      · next b hb =>
          refine (ih (by exact h)).trans ?_
          simp [hb]
      · next hb =>
          split
          · next hreq => simp [hb, hreq]
          · next hreq =>
              refine (ih h).trans ?_
              simp [hreq]

theorem resolveLoop_bindings {ds : List Dependency} {r : Resolution}
    (h : (rt.resolveLoop id scope ds r).satisfiable = true) (k : ServiceId) :
    (rt.resolveLoop id scope ds r).bindings.find? k =
      if k ∈ ds.map (·.key) ∧ (rt.binding? id scope k).isSome = true then rt.binding? id scope k
      else r.bindings.find? k := by
  induction ds generalizing r with
  | nil => simp [resolveLoop]
  | cons d ds ih =>
      simp only [resolveLoop] at h ⊢
      split at h
      · next b hb =>
          rw [ih h]
          by_cases hk : k = d.key
          · subst hk
            simp [hb]
          · simp [hk]
      · next hb =>
          split at h
          · simp at h
          · next hreq =>
              rw [if_neg hreq, ih h]
              by_cases hk : k = d.key
              · subst hk
                simp [hb]
              · simp [hk]

theorem resolveLoop_providers {ds : List Dependency} {r : Resolution}
    (hr : ∀ k, r.providers.find? k = (r.bindings.find? k).map (·.provider)) (k : ServiceId) :
    (rt.resolveLoop id scope ds r).providers.find? k =
      ((rt.resolveLoop id scope ds r).bindings.find? k).map (·.provider) := by
  induction ds generalizing r with
  | nil => exact hr k
  | cons d ds ih =>
      simp only [resolveLoop]
      split
      · next b hb =>
          apply ih
          intro j
          simp only [SortedMap.find?_insert, hr]
          split <;> rfl
      · split
        · exact hr k
        · exact ih hr

/-! Resolutions -/

theorem resolve_satisfiable {f : FiberRecord} : (rt.resolve id f).satisfiable = true ↔
    ∀ d ∈ f.inject, d.required = true → (rt.binding? id f.scope d.key).isSome = true :=
  resolveLoop_satisfiable rfl

theorem resolve_bindings {f : FiberRecord} (h : (rt.resolve id f).satisfiable = true)
    (k : ServiceId) : (rt.resolve id f).bindings.find? k =
      if k ∈ f.descriptor.injectKeys then rt.binding? id f.scope k else none := by
  refine (resolveLoop_bindings h k).trans ?_
  by_cases hk : k ∈ f.descriptor.injectKeys
  · cases hb : rt.binding? id f.scope k <;> simp [Descriptor.injectKeys]
  · have hk' : k ∉ f.inject.map (·.key) := hk
    rw [if_neg (fun h => hk' h.1), if_neg hk]
    rfl

theorem resolve_providers {f : FiberRecord} (k : ServiceId) :
    (rt.resolve id f).providers.find? k = ((rt.resolve id f).bindings.find? k).map (·.provider) :=
  resolveLoop_providers (fun _ => rfl) k

/-- A satisfiable resolution names a provider by a usable binding of a declared key. -/
theorem resolve_names {f : FiberRecord} (h : (rt.resolve id f).satisfiable = true) {k : ServiceId}
    {p : FiberId} : (rt.resolve id f).providers.find? k = some p ↔
      k ∈ f.descriptor.injectKeys ∧ ∃ b, rt.binding? id f.scope k = some b ∧ b.provider = p := by
  rw [resolve_providers, resolve_bindings h]
  split
  · next hk => simp [hk]
  · next hk => simp [hk]

theorem same_iff {r : Resolution} {committed : SortedMap ServiceId FiberId} :
    r.same committed = true ↔ r.satisfiable = true ∧ r.providers = committed := by
  simp only [Resolution.same, Bool.and_eq_true, beq_iff_eq, List.all_eq_true, and_assoc]
  constructor
  · rintro ⟨hs, hsize, hall⟩
    refine ⟨hs, SortedMap.eq_of_subset_of_size ?_ hsize⟩
    intro k p hk
    exact hall (k, p) (SortedMap.mem_toList.mpr hk)
  · rintro ⟨hs, rfl⟩
    exact ⟨hs, rfl, fun e he => SortedMap.mem_toList.mp he⟩

theorem providersStillActive_iff {f : FiberRecord} : rt.providersStillActive f = true ↔
    ∀ k p, f.committed.find? k = some p → ∃ b, rt.contexts.lookup f.scope k = some b ∧
      b.value.isSome = true ∧ b.provider = p ∧ b.state = .active ∧ b.available = true := by
  simp only [providersStillActive, List.all_eq_true]
  constructor
  · intro h k p hk
    have he := h (k, p) (SortedMap.mem_toList.mpr hk)
    dsimp only at he
    split at he
    · cases he
    · next b hb =>
        simp only [Bool.and_eq_true, beq_iff_eq] at he
        exact ⟨b, hb, he.1.1.1, he.1.1.2, he.1.2, he.2⟩
  · intro h e he
    obtain ⟨b, hb, hv, hp, hs, ha⟩ := h e.1 e.2 (SortedMap.mem_toList.mp he)
    rw [hb]
    simp [hv, hp, hs, ha]

end Runtime
end Araya

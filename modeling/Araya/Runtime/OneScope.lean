import Araya.Runtime.Ownership

/-!
The bindings of one scope. Where all bindings are made in one scope each key has one place for them, and what a
binding, a mark or a teardown does to the lookups of that scope can be said key by key.
-/

namespace Araya

namespace Contexts
variable {c : Contexts} {s : ScopeId} {k k' : ServiceId} {b : Binding}

/-- Every binding is stored where a binding made in the scope goes. -/
def Homed (c : Contexts) (s : ScopeId) : Prop :=
  ∀ d k r b, c.bindings.find? (slot d k r) = some b → c.tree.bindTarget s = some d ∧ r = c.realmFor s k

theorem findOn_insert {r : Realm} {d : ScopeId} {b' : Binding} {chain : List ScopeId}
    (h : c.findOn k r chain = some (d, b)) :
    ({ c with bindings := c.bindings.insert (slot d k r) b' } : Contexts).findOn k r chain = some (d, b') := by
  induction chain with
  | nil => cases h
  | cons e es ih =>
      simp only [findOn, SortedMap.find?_insert] at h ⊢
      by_cases he : e = d
      · subst he
        rw [if_pos rfl]
      · rw [if_neg fun same => he (slot_inj.mp same).1]
        split at h
        · cases h
          exact absurd rfl he
        · exact ih h

theorem lookup_modifyLookup (f : Binding → Binding) :
    (c.modifyLookup s k f).lookup s k' = if k' = k then (c.lookup s k).map f else c.lookup s k' := by
  have realm : (c.modifyLookup s k f).realmFor s k' = c.realmFor s k' :=
    Runtime.realmFor_congr (modifyLookup_tree ..) (modifyLookup_realms ..) s k'
  unfold lookup lookupRealm
  rw [realm, modifyLookup_tree]
  unfold modifyLookup
  split
  · next none =>
      split
      · next same => rw [same, none]; rfl
      · rfl
  · next d b found =>
      split
      · next same => rw [same, findOn_insert found, found]; rfl
      · next other =>
          refine congrArg _ (Runtime.findOn_congr (fun d' => ?_) _)
          exact (SortedMap.find?_insert ..).trans (if_neg fun same => other (slot_inj.mp same).2.1)

namespace Homed

theorem lookup (h : c.Homed s) :
    c.lookup s k = (c.tree.bindTarget s).bind fun d => c.bindings.find? (slot d k (c.realmFor s k)) := by
  have none_of {d : ScopeId} (other : c.tree.bindTarget s ≠ some d) :
      c.bindings.find? (slot d k (c.realmFor s k)) = none := by
    cases found : c.bindings.find? (slot d k (c.realmFor s k)) with
    | none => rfl
    | some b => exact absurd (h d k _ b found).1 other
  have search (chain : List ScopeId) (t : ScopeId) (target : c.tree.bindTarget s = some t) (mem : t ∈ chain) :
      (c.findOn k (c.realmFor s k) chain).map Prod.snd = c.bindings.find? (slot t k (c.realmFor s k)) := by
    induction chain with
    | nil => cases mem
    | cons e es ih =>
        simp only [findOn]
        by_cases he : e = t
        · subst he
          cases found : c.bindings.find? (slot e k (c.realmFor s k)) with
          | some b => rfl
          | none =>
              dsimp only
              cases later : c.findOn k (c.realmFor s k) es with
              | none => rfl
              | some at_ =>
                  obtain ⟨d, b⟩ := at_
                  have stored := (findOn_some later).2
                  obtain rfl := Option.some.inj (target.symm.trans (h d k _ b stored).1)
                  cases found.symm.trans stored
        · rw [none_of fun same => he (Option.some.inj (same.symm.trans target))]
          exact ih ((List.mem_cons.mp mem).resolve_left (Ne.symm he))
  cases target : c.tree.bindTarget s with
  | some t => exact search _ t target (List.mem_of_find?_eq_some target)
  | none =>
      rw [Option.bind_none]
      cases found : c.lookup s k with
      | none => rfl
      | some b =>
          obtain ⟨d, -, stored⟩ := lookup_some found
          rw [(h d k _ b stored).1] at target
          cases target

theorem of_bindings {d : Contexts} (h : c.Homed s) (tree : d.tree = c.tree) (realms : d.realms = c.realms)
    (sub : ∀ t b, d.bindings.find? t = some b → ∃ b', c.bindings.find? t = some b') : d.Homed s := by
  intro t k r b found
  obtain ⟨b', stored⟩ := sub _ b found
  rw [tree, Runtime.realmFor_congr tree realms]
  exact h t k r b' stored

theorem bind (h : c.Homed s) : (c.bind s k b).Homed s := by
  intro d j r b' found
  have realm : (c.bind s k b).realmFor s j = c.realmFor s j :=
    Runtime.realmFor_congr (bind_tree ..) (bind_realms ..) s j
  rw [realm, bind_tree]
  unfold Contexts.bind bindRealm at found
  split at found
  · exact h d j r b' found
  · next t target =>
      dsimp only at found
      rw [SortedMap.find?_insert] at found
      split at found
      · next same =>
          obtain ⟨rfl, rfl, rfl⟩ := slot_inj.mp same
          exact ⟨target, rfl⟩
      · exact h d j r b' found

theorem lookup_bind (h : c.Homed s) : (c.bind s k b).lookup s k' =
    if k' = k then (c.tree.bindTarget s).map fun _ => b else c.lookup s k' := by
  have realm : (c.bind s k b).realmFor s k' = c.realmFor s k' :=
    Runtime.realmFor_congr (bind_tree ..) (bind_realms ..) s k'
  rw [h.bind.lookup, realm, bind_tree, h.lookup]
  unfold Contexts.bind bindRealm
  cases target : c.tree.bindTarget s with
  | none => simp
  | some t =>
      rw [Option.bind_some, Option.bind_some, Option.map_some, SortedMap.find?_insert]
      by_cases same : k' = k
      · subst same
        rw [if_pos rfl, if_pos rfl]
      · rw [if_neg same, if_neg fun at_ => same (slot_inj.mp at_).2.1]

theorem unbind (h : c.Homed s) : (c.unbind s k).Homed s :=
  h.of_bindings (unbind_tree ..) (unbind_realms ..) fun _ b found => ⟨b, Runtime.unbind_sub found⟩

theorem lookup_unbind (h : c.Homed s) :
    (c.unbind s k).lookup s k' = if k' = k then none else c.lookup s k' := by
  have realm : (c.unbind s k).realmFor s k' = c.realmFor s k' :=
    Runtime.realmFor_congr (unbind_tree ..) (unbind_realms ..) s k'
  rw [h.unbind.lookup, realm, unbind_tree, h.lookup]
  unfold Contexts.unbind unbindRealm
  cases target : c.tree.bindTarget s with
  | none => simp
  | some t =>
      rw [Option.bind_some, Option.bind_some, SortedMap.find?_erase]
      by_cases same : k' = k
      · subst same
        rw [if_pos rfl, if_pos rfl]
      · rw [if_neg same, if_neg fun at_ => same (slot_inj.mp at_).2.1]

theorem modifyLookup (h : c.Homed s) (f : Binding → Binding) : (c.modifyLookup s k f).Homed s := by
  refine h.of_bindings (modifyLookup_tree ..) (modifyLookup_realms ..) fun t b found => ?_
  unfold Contexts.modifyLookup at found
  split at found
  · exact ⟨b, found⟩
  · next d b' at_ =>
      dsimp only at found
      rw [SortedMap.find?_insert] at found
      split at found
      · next same => exact ⟨b', same ▸ (findOn_some at_).2⟩
      · exact ⟨b, found⟩

end Homed
end Contexts

namespace Runtime
open Contexts

/-- The binding with another state, if the fiber provides it under one of the keys. -/
def marked (id : FiberId) (state : ProviderState) (keys : List ServiceId) (k : ServiceId) (b : Binding) : Binding :=
  if b.provider = id ∧ k ∈ keys then { b with state } else b

section
variable {c : Contexts} {s : ScopeId} {k : ServiceId} {id : FiberId} {state : ProviderState} {keys : List ServiceId}

@[simp] theorem marked_provider (b : Binding) : (marked id state keys k b).provider = b.provider := by
  unfold marked
  split <;> rfl

theorem markProvided_cons (key : ServiceId) : markProvided c id s state (key :: keys) =
    markProvided (match c.lookup s key with
      | none => c
      | some b => if b.provider = id then c.modifyLookup s key fun b => { b with state } else c) id s state keys := rfl

theorem markProvided_same : (markProvided c id s state keys).tree = c.tree ∧
    (markProvided c id s state keys).realms = c.realms := by
  induction keys generalizing c with
  | nil => exact ⟨rfl, rfl⟩
  | cons key keys ih =>
      rw [markProvided_cons]
      refine ⟨ih.1.trans ?_, ih.2.trans ?_⟩ <;> split
      · rfl
      · split <;> simp
      · rfl
      · split <;> simp

theorem markProvided_homed (h : c.Homed s) : (markProvided c id s state keys).Homed s := by
  induction keys generalizing c with
  | nil => exact h
  | cons key keys ih =>
      rw [markProvided_cons]
      refine ih ?_
      split
      · exact h
      · split
        · exact h.modifyLookup _
        · exact h

theorem lookup_markProvided :
    (markProvided c id s state keys).lookup s k = (c.lookup s k).map (marked id state keys k) := by
  induction keys generalizing c with
  | nil =>
      have same : marked id state [] k = fun b => b := funext fun b => if_neg fun h => List.not_mem_nil h.2
      rw [same, Option.map_id']
      rfl
  | cons key keys ih =>
      rw [markProvided_cons, ih]
      by_cases hk : k = key
      · subst hk
        cases found : c.lookup s k with
        | none => simp [found]
        | some b =>
            dsimp only
            by_cases own : b.provider = id
            · rw [if_pos own, lookup_modifyLookup, if_pos rfl, found]
              simp [marked, own]
            · rw [if_neg own, found]
              simp [marked, own]
      · have other : marked id state (key :: keys) k = marked id state keys k := by
          funext b
          simp [marked, hk]
        rw [other]
        congr 1
        split
        · rfl
        · split
          · rw [lookup_modifyLookup, if_neg hk]
          · rfl

end

/-- A teardown leaves a binding of the scope, or takes back one that its fiber provides. -/
theorem teardownOf_lookup {rt : Runtime} {s : ScopeId} {id : FiberId} {f : FiberRecord} (homed : rt.contexts.Homed s)
    (scope : ∀ act, f.activation = some act → act.scope = s) :
    (rt.teardownOf id f).contexts.Homed s ∧ ∀ k,
      (rt.teardownOf id f).contexts.lookup s k = rt.contexts.lookup s k ∨
        (rt.teardownOf id f).contexts.lookup s k = none ∧ ∃ b, rt.contexts.lookup s k = some b ∧ b.provider = id := by
  unfold teardownOf
  split
  · exact ⟨homed, fun k => .inl rfl⟩
  · next act there =>
      obtain rfl := scope act there
      unfold teardown
      induction act.effects.reverse generalizing rt with
      | nil => exact ⟨homed, fun k => .inl rfl⟩
      | cons e es ih =>
          have one : (runEffect id act.scope rt e).contexts.Homed act.scope ∧ ∀ k,
              (runEffect id act.scope rt e).contexts.lookup act.scope k = rt.contexts.lookup act.scope k ∨
                (runEffect id act.scope rt e).contexts.lookup act.scope k = none ∧
                  ∃ b, rt.contexts.lookup act.scope k = some b ∧ b.provider = id := by
            cases e with
            | retireChild child => exact ⟨homed, fun k => .inl rfl⟩
            | unbind key =>
                simp only [runEffect]
                split
                · exact ⟨homed, fun k => .inl rfl⟩
                · next b found =>
                    split
                    · next own =>
                        refine ⟨homed.unbind, fun k => ?_⟩
                        rw [homed.lookup_unbind]
                        split
                        · next same => exact .inr ⟨rfl, b, same ▸ found, own⟩
                        · exact .inl rfl
                    · exact ⟨homed, fun k => .inl rfl⟩
          obtain ⟨homed', rest⟩ := ih one.1
          refine ⟨homed', fun k => ?_⟩
          rw [List.foldl_cons]
          obtain kept | ⟨gone, b, found, own⟩ := rest k
          · rw [kept]
            exact one.2 k
          · obtain kept | ⟨gone', _⟩ := one.2 k
            · exact .inr ⟨gone, b, kept ▸ found, own⟩
            · rw [gone'] at found
              cases found

theorem teardownOf_same (rt : Runtime) (id : FiberId) (f : FiberRecord) :
    (rt.teardownOf id f).contexts.tree = rt.contexts.tree ∧ (rt.teardownOf id f).contexts.realms = rt.contexts.realms := by
  unfold teardownOf
  split
  · exact ⟨rfl, rfl⟩
  · next act _ =>
      unfold teardown
      induction act.effects.reverse generalizing rt with
      | nil => exact ⟨rfl, rfl⟩
      | cons e es ih =>
          have one : (runEffect id act.scope rt e).contexts.tree = rt.contexts.tree ∧
              (runEffect id act.scope rt e).contexts.realms = rt.contexts.realms := by
            cases e with
            | retireChild child => exact ⟨rfl, rfl⟩
            | unbind key =>
                simp only [runEffect]
                repeat' split
                all_goals simp
          rw [List.foldl_cons]
          exact ⟨(ih _).1.trans one.1, (ih _).2.trans one.2⟩

end Runtime
end Araya

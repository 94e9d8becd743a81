import Araya.Runtime.Resolve

/-!
The two ways to a service: the access of a component or of the host through its activation, and the resolution of
a fiber's declarations. Where the host has no declarations it looks the key up itself.
-/

namespace Araya

/-- What `find_binding` reads of an activation, and of the activations of its parent fibers. -/
structure AccessPoint where
  specDeclared : Bool := false
  inject : List ServiceId := []
  committedView : SortedMap ServiceId Binding := ∅
  scope : ScopeId
  parents : List (List ServiceId × SortedMap ServiceId Binding) := []

def undeclared (key : ServiceId) : String := "undeclared capability access: '" ++ key.name ++ "'"

/-- The first parent that binds an undeclared key, unless one declares it before. -/
def findInParents (key : ServiceId) : List (List ServiceId × SortedMap ServiceId Binding) → Except String (Option Binding)
  | [] => .error (undeclared key)
  | (inject, view) :: parents =>
    match view.find? key with
    | some b => .ok (some b)
    | none => if key ∈ inject then .ok none else findInParents key parents

def findBinding (contexts : Contexts) (a : AccessPoint) (key : ServiceId) : Except String (Option Binding) :=
  if a.specDeclared then
    if key ∈ a.inject then .ok (a.committedView.find? key) else findInParents key a.parents
  else .ok ((contexts.lookup a.scope key).filter fun b => b.value.isSome && b.state == .active)

/-- The nearest binding of a key is available if it could be used otherwise. -/
def Contexts.Promoted (contexts : Contexts) (scope : ScopeId) (key : ServiceId) : Prop :=
  ∀ b ∈ contexts.lookup scope key, b.value.isSome = true → b.state = .active → b.available = true

namespace Runtime
variable {rt : Runtime} {a : AccessPoint} {id : FiberId} {key : ServiceId}

/-- The host sees what the resolution of another fiber's declaration takes. -/
theorem findBinding_binding? (root : a.specDeclared = false)
    (other : ∀ b ∈ rt.contexts.lookup a.scope key, b.provider ≠ id) :
    findBinding rt.contexts a key = .ok (rt.binding? id a.scope key) ↔ rt.contexts.Promoted a.scope key := by
  rw [findBinding, root, if_neg Bool.false_ne_true, Except.ok.injEq, binding?, Contexts.Promoted]
  cases found : rt.contexts.lookup a.scope key with
  | none => exact iff_of_true rfl fun _ member => absurd member (Option.not_mem_none _)
  | some b =>
      have foreign : b.provider ≠ id := other b (by rw [found]; rfl)
      simp only [Option.filter_some, usable, bne_iff_ne.mpr foreign, Bool.and_true, Option.mem_some_iff, forall_eq']
      cases value : b.value.isSome <;> cases state : b.state <;> cases available : b.available <;> simp

theorem findBinding_agrees (root : a.specDeclared = false) {f : FiberRecord} (beside : f.scope = a.scope)
    (other : ∀ b ∈ rt.contexts.lookup a.scope key, b.provider ≠ id) :
    (findBinding rt.contexts a key = .ok (rt.binding? id f.scope key) ↔ rt.contexts.Promoted a.scope key) ∧
      (key ∈ f.descriptor.injectKeys → (rt.resolve id f).satisfiable = true →
        (findBinding rt.contexts a key = .ok ((rt.resolve id f).bindings.find? key) ↔ rt.contexts.Promoted a.scope key)) := by
  rw [beside]
  refine ⟨findBinding_binding? root other, fun declared satisfiable => ?_⟩
  rw [resolve_bindings satisfiable, if_pos declared, beside]
  exact findBinding_binding? root other

/-- A logger that the root context provides, and a fiber beside it that asks for one. -/
def provided (available : Bool) : Runtime :=
  { contexts := ({} : Contexts).bind 0 { name := "log" } { value := some 7, provider := 1, available } }

def asking : FiberRecord where
  descriptor := { name := "asking", inject := [{ key := { name := "log" }, required := false }] }
  scope := 0

theorem findBinding_agrees_logger :
    findBinding (provided true).contexts { scope := 0 } { name := "log" } =
        .ok ((provided true).binding? 2 0 { name := "log" }) ∧
      findBinding (provided true).contexts { scope := 0 } { name := "log" } =
        .ok (((provided true).resolve 2 asking).bindings.find? { name := "log" }) := by
  have foreign : ∀ b ∈ (provided true).contexts.lookup 0 { name := "log" }, b.provider ≠ 2 := by decide
  have promoted : (provided true).contexts.Promoted 0 { name := "log" } := by
    unfold Contexts.Promoted
    decide
  have root : ({ scope := 0 } : AccessPoint).specDeclared = false := rfl
  have beside : asking.scope = ({ scope := 0 } : AccessPoint).scope := rfl
  obtain ⟨taken, resolved⟩ := findBinding_agrees root beside foreign
  exact ⟨taken.mpr promoted, (resolved (by decide) (by decide)).mpr promoted⟩

/-- The service is not available yet: the host gets it, and a fiber does not. -/
theorem findBinding_unavailable : ¬ ∀ (rt : Runtime) (a : AccessPoint) (id : FiberId) (f : FiberRecord) (key : ServiceId),
    a.specDeclared = false → f.scope = a.scope → key ∈ f.descriptor.injectKeys →
      (∀ b ∈ rt.contexts.lookup a.scope key, b.provider ≠ id) → (rt.resolve id f).satisfiable = true →
        findBinding rt.contexts a key = .ok ((rt.resolve id f).bindings.find? key) := by
  intro agrees
  have same := agrees (provided false) { scope := 0 } 2 asking { name := "log" } rfl rfl (by decide) (by decide) (by decide)
  rw [findBinding, if_neg Bool.false_ne_true, Except.ok.injEq] at same
  exact absurd same (by decide)

end Runtime
end Araya

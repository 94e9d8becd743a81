import Mathlib.Data.Set.Defs
import Mathlib.Logic.Function.Basic
import Mathlib.Tactic.Common

/-!
A calculus of fibers. A fiber declares what it reads and what it provides. While it is active the table of provisions
names it; it loads against a view of that table, and it is taken down when no active fiber has it in its view. Each
rule is one step of one fiber, in any order; a rule may be stricter than the system that refines it needs.
-/

namespace Araya
namespace Calculus

inductive Stage where
  | inactive
  | reloading
  | active
  | unloading

structure Fiber (Name Key : Type*) where
  provides : Set Key
  declares : Set Key
  requires : Set Key
  needs : ∀ k ∈ requires, k ∈ declares
  stage : Stage := .inactive
  view : Key → Option Name := fun _ => none
  retired : Bool := false

structure State (Name Key : Type*) where
  registry : Name → Option (Fiber Name Key)
  table : Key → Option Name

variable {Name Key : Type*} [DecidableEq Name]

namespace State

def empty : State Name Key := ⟨fun _ => none, fun _ => none⟩

def put (s : State Name Key) (n : Name) (x : Fiber Name Key) : State Name Key :=
  { s with registry := Function.update s.registry n (some x) }

def drop (s : State Name Key) (n : Name) : State Name Key := { s with registry := Function.update s.registry n none }

/-- No fiber reads what it provides itself. -/
def offers (s : State Name Key) (n : Name) (k : Key) : Option Name :=
  if s.table k = some n then none else s.table k

/-- The view a fiber ought to have, where it ought to run at all. -/
structure Target (s : State Name Key) (n : Name) (x : Fiber Name Key) (v : Key → Option Name) : Prop where
  kept : x.retired = false
  required : ∀ k ∈ x.requires, s.offers n k ≠ none
  declared : ∀ k ∈ x.declares, v k = s.offers n k
  undeclared : ∀ k, k ∉ x.declares → v k = none

/-- Some other active fiber has it in its view. -/
def Relied (s : State Name Key) (n : Name) : Prop :=
  ∃ m y k, m ≠ n ∧ s.registry m = some y ∧ y.stage = .active ∧ y.view k = some n

end State

inductive Law where
  | oInsert
  | oRetire
  | oRemove
  | lBegin
  | lFinish
  | lDivert
  | lLeave
  | lUnload
  deriving DecidableEq

/-- The rules. A load may be called off at any time. It lands where the table still has what the fiber has in its view,
whatever else it offers by then; and what the fiber enters in the table is some of what it declares to provide. -/
inductive Rule (s : State Name Key) : Law → State Name Key → Prop
  | oInsert {n : Name} {x : Fiber Name Key} : s.registry n = none → x.stage = .inactive → (∀ k, x.view k = none) →
      (∀ m y, s.registry m = some y → ∀ k ∈ y.provides, k ∉ x.provides) → Rule s .oInsert (s.put n x)
  | oRetire {n : Name} {x : Fiber Name Key} : s.registry n = some x → x.retired = false →
      Rule s .oRetire (s.put n { x with retired := true })
  | oRemove {n : Name} {x : Fiber Name Key} : s.registry n = some x → x.retired = true → x.stage = .inactive →
      Rule s .oRemove (s.drop n)
  | lBegin {n : Name} {x : Fiber Name Key} {v : Key → Option Name} : s.registry n = some x → x.stage = .inactive →
      s.Target n x v → Rule s .lBegin (s.put n { x with stage := .reloading, view := v })
  | lFinish {n : Name} {x : Fiber Name Key} {t : Key → Option Name} : s.registry n = some x → x.stage = .reloading →
      (∀ k m, x.view k = some m → s.table k = some m) → (∀ k, t k = s.table k ∨ k ∈ x.provides ∧ t k = some n) →
      Rule s .lFinish { s.put n { x with stage := .active } with table := t }
  | lDivert {n : Name} {x : Fiber Name Key} : s.registry n = some x → x.stage = .reloading →
      Rule s .lDivert (s.put n { x with stage := .unloading })
  | lLeave {n : Name} {x : Fiber Name Key} : s.registry n = some x → x.stage = .active → ¬ s.Target n x x.view →
      Rule s .lLeave { s.put n { x with stage := .unloading } with
        table := fun k => if s.table k = some n then none else s.table k }
  | lUnload {n : Name} {x : Fiber Name Key} : s.registry n = some x → x.stage = .unloading → ¬ s.Relied n →
      Rule s .lUnload (s.put n { x with stage := .inactive, view := fun _ => none })

/-- One rule after the other. -/
def Spells : List Law → State Name Key → State Name Key → Prop
  | [], s, t => t = s
  | l :: ls, s, t => ∃ u, Rule s l u ∧ Spells ls u t

/-! What the rules keep -/

/-- A fiber that is installed: its provisions were entered and have not been taken down. -/
def Fiber.Installed (x : Fiber Name Key) : Prop := x.stage = .active ∨ x.stage = .unloading

structure Sound (s : State Name Key) : Prop where
  listed : ∀ k n, s.table k = some n → ∃ x, s.registry n = some x ∧ x.stage = .active ∧ k ∈ x.provides
  others : ∀ n x k, s.registry n = some x → x.view k ≠ some n
  required : ∀ n x, s.registry n = some x → x.stage = .reloading ∨ x.stage = .active → ∀ k ∈ x.requires, x.view k ≠ none
  /-- What an active fiber reads is not taken down. -/
  installed : ∀ m y k n, s.registry m = some y → y.stage = .active → y.view k = some n →
    ∃ x, s.registry n = some x ∧ x.Installed ∧ k ∈ x.provides

section
variable {s t : State Name Key} {n m : Name} {x y : Fiber Name Key} {l : Law} {k : Key}

theorem offers_some : s.offers n k = some m ↔ s.table k = some m ∧ m ≠ n := by
  unfold State.offers
  split
  · next own =>
      rw [own]
      exact ⟨fun h => (nomatch h), fun ⟨same, other⟩ => absurd (Option.some.inj same).symm other⟩
  · next other =>
      refine ⟨fun h => ⟨h, ?_⟩, And.left⟩
      rintro rfl
      exact other h

theorem put_registry : (s.put n x).registry m = if m = n then some x else s.registry m :=
  Function.update_apply ..

theorem drop_registry : (s.drop n).registry m = if m = n then none else s.registry m :=
  Function.update_apply ..

theorem put_relied (relied : (s.put n x).Relied n) : s.Relied n := by
  obtain ⟨m, y, k, other, found, reads⟩ := relied
  rw [put_registry, if_neg other] at found
  exact ⟨m, y, k, other, found, reads⟩

omit [DecidableEq Name] in
theorem Sound.empty : Sound (State.empty : State Name Key) :=
  ⟨fun _ _ h => (nomatch h), fun _ _ _ h => (nomatch h), fun _ _ h => (nomatch h), fun _ _ _ _ h => (nomatch h)⟩

/-- One fiber is put in the place of another: what it was listed for and read for it must still be good for. -/
theorem Sound.put (h : Sound s) (found : s.registry n = some x)
    (registry : t.registry = Function.update s.registry n (some y)) (provides : y.provides = x.provides)
    (listed : ∀ k, t.table k = some n → y.stage = .active ∧ k ∈ y.provides)
    (kept : ∀ k m, t.table k = some m → m ≠ n → s.table k = some m) (own : ∀ k, y.view k ≠ some n)
    (required : y.stage = .reloading ∨ y.stage = .active → ∀ k ∈ y.requires, y.view k ≠ none)
    (reads : y.stage = .active → ∀ k m, y.view k = some m → ∃ z, s.registry m = some z ∧ z.Installed ∧ k ∈ z.provides)
    (relied : s.Relied n → x.Installed → y.Installed) : Sound t := by
  have at' (m : Name) : t.registry m = if m = n then some y else s.registry m := by
    rw [registry, Function.update_apply]
  have lookup {m : Name} {z : Fiber Name Key} (hz : t.registry m = some z) :
      m = n ∧ z = y ∨ m ≠ n ∧ s.registry m = some z := by
    rw [at'] at hz
    split at hz
    · next same => exact .inl ⟨same, (Option.some.inj hz).symm⟩
    · next other => exact .inr ⟨other, hz⟩
  constructor
  · intro k m entry
    by_cases same : m = n
    · subst same
      exact ⟨y, by rw [at', if_pos rfl], listed k entry⟩
    · obtain ⟨z, hz, stands⟩ := h.listed k m (kept k m entry same)
      exact ⟨z, by rw [at', if_neg same, hz], stands⟩
  · intro m z k hz
    obtain ⟨rfl, rfl⟩ | ⟨-, was⟩ := lookup hz
    · exact own k
    · exact h.others m z k was
  · intro m z hz busy
    obtain ⟨rfl, rfl⟩ | ⟨-, was⟩ := lookup hz
    · exact required busy
    · exact h.required m z was busy
  · intro i z k m hz active reading
    obtain ⟨w, hw, standing, declared⟩ : ∃ w, s.registry m = some w ∧ w.Installed ∧ k ∈ w.provides := by
      obtain ⟨rfl, rfl⟩ | ⟨-, was⟩ := lookup hz
      · exact reads active k m reading
      · exact h.installed i z k m was active reading
    by_cases same : m = n
    · subst same
      cases found.symm.trans hw
      refine ⟨y, by rw [at', if_pos rfl], ?_, provides ▸ declared⟩
      obtain ⟨rfl, rfl⟩ | ⟨other, was⟩ := lookup hz
      · exact absurd reading (own k)
      · exact relied ⟨i, z, k, other, was, active, reading⟩ standing
    · exact ⟨w, by rw [at', if_neg same, hw], standing, declared⟩

/-- Every rule keeps what an active fiber reads in place. -/
theorem Rule.sound (r : Rule s l t) (h : Sound s) : Sound t := by
  have idle {n : Name} {x : Fiber Name Key} (found : s.registry n = some x) (off : x.stage ≠ .active) (k : Key) :
      s.table k ≠ some n := by
    intro entry
    obtain ⟨z, hz, active, -⟩ := h.listed k n entry
    cases found.symm.trans hz
    exact off active
  have target {n : Name} {x : Fiber Name Key} {v : Key → Option Name} (good : s.Target n x v) {k : Key} {m : Name}
      (reading : v k = some m) : s.table k = some m ∧ m ≠ n := by
    by_cases declared : k ∈ x.declares
    · exact offers_some.mp ((good.declared k declared).symm.trans reading)
    · rw [good.undeclared k declared] at reading
      cases reading
  cases r with
  | @oInsert n x fresh inactive blank apart =>
      have lookup {m : Name} {z : Fiber Name Key} (hz : (s.put n x).registry m = some z) :
          m = n ∧ z = x ∨ m ≠ n ∧ s.registry m = some z := by
        rw [put_registry] at hz
        split at hz
        · next same => exact .inl ⟨same, (Option.some.inj hz).symm⟩
        · next other => exact .inr ⟨other, hz⟩
      have older {m : Name} {z : Fiber Name Key} (hz : s.registry m = some z) : (s.put n x).registry m = some z := by
        rw [put_registry, if_neg, hz]
        rintro rfl
        cases fresh.symm.trans hz
      constructor
      · intro k m entry
        obtain ⟨z, hz, stands⟩ := h.listed k m entry
        exact ⟨z, older hz, stands⟩
      · intro m z k hz
        obtain ⟨rfl, rfl⟩ | ⟨-, was⟩ := lookup hz
        · rw [blank k]
          exact Option.some_ne_none m ∘ Eq.symm
        · exact h.others m z k was
      · intro m z hz busy
        obtain ⟨rfl, rfl⟩ | ⟨-, was⟩ := lookup hz
        · rw [inactive] at busy
          rcases busy with up | up <;> cases up
        · exact h.required m z was busy
      · intro i z k m hz active reading
        obtain ⟨rfl, rfl⟩ | ⟨-, was⟩ := lookup hz
        · rw [inactive] at active
          cases active
        · obtain ⟨w, hw, stands⟩ := h.installed i z k m was active reading
          exact ⟨w, older hw, stands⟩
  | @oRetire n x found _ =>
      refine h.put found rfl rfl (fun k entry => ?_) (fun _ _ entry _ => entry) (fun k => h.others n x k found)
        (h.required n x found) (fun active k m => h.installed n x k m found active) (fun _ stands => stands)
      obtain ⟨z, hz, stands⟩ := h.listed k n entry
      cases found.symm.trans hz
      exact stands
  | @oRemove n x found _ inactive =>
      have away {m : Name} {z : Fiber Name Key} (hz : (s.drop n).registry m = some z) : s.registry m = some z := by
        rw [drop_registry] at hz
        split at hz
        · cases hz
        · exact hz
      have stays {m : Name} {z : Fiber Name Key} (hz : s.registry m = some z) (up : z.Installed) :
          (s.drop n).registry m = some z := by
        rw [drop_registry, if_neg, hz]
        rintro rfl
        cases found.symm.trans hz
        rw [Fiber.Installed, inactive] at up
        rcases up with up | up <;> cases up
      constructor
      · intro k m entry
        obtain ⟨z, hz, active, declared⟩ := h.listed k m entry
        exact ⟨z, stays hz (.inl active), active, declared⟩
      · exact fun m z k hz => h.others m z k (away hz)
      · exact fun m z hz => h.required m z (away hz)
      · intro i z k m hz active reading
        obtain ⟨w, hw, up, declared⟩ := h.installed i z k m (away hz) active reading
        exact ⟨w, stays hw up, up, declared⟩
  | @lBegin n x v found inactive good =>
      refine h.put found rfl rfl (fun k entry => absurd entry (idle found (by simp [inactive]) k)) (fun _ _ entry _ => entry)
        (fun k reading => (target good reading).2 rfl) (fun _ k needed none => ?_) (fun active => nomatch active)
        (fun _ up => ?_)
      · exact good.required k needed ((good.declared k (x.needs k needed)).symm.trans none)
      · rw [Fiber.Installed, inactive] at up
        rcases up with up | up <;> cases up
  | @lFinish n x t found reloading current joins =>
      refine h.put found rfl rfl (fun k entry => ?_) (fun k m entry other => ?_) (fun k => h.others n x k found)
        (fun _ => h.required n x found (.inl reloading)) (fun _ k m reading => ?_) (fun _ _ => .inl rfl)
      · obtain same | ⟨declared, -⟩ := joins k
        · exact absurd (same.symm.trans entry) (idle found (by simp [reloading]) k)
        · exact ⟨rfl, declared⟩
      · obtain same | ⟨-, own⟩ := joins k
        · exact same.symm.trans entry
        · exact absurd (Option.some.inj (entry.symm.trans own)) other
      · obtain ⟨z, hz, active, declared⟩ := h.listed k m (current k m reading)
        exact ⟨z, hz, .inl active, declared⟩
  | @lDivert n x found reloading =>
      exact h.put found rfl rfl (fun k entry => absurd entry (idle found (by simp [reloading]) k)) (fun _ _ entry _ => entry)
        (fun k => h.others n x k found) (fun busy => by rcases busy with up | up <;> cases up)
        (fun active => nomatch active) (fun _ _ => .inr rfl)
  | @lLeave n x found active _ =>
      refine h.put found rfl rfl (fun k entry => ?_) (fun k m entry _ => ?_) (fun k => h.others n x k found)
        (fun busy => by rcases busy with up | up <;> cases up) (fun active => nomatch active) (fun _ _ => .inr rfl)
      · dsimp only at entry
        split at entry
        · cases entry
        · next other => exact absurd entry other
      · dsimp only at entry
        split at entry
        · cases entry
        · exact entry
  | @lUnload n x found unloading unrelied =>
      exact h.put found rfl rfl (fun k entry => absurd entry (idle found (by simp [unloading]) k)) (fun _ _ entry _ => entry)
        (fun k reading => nomatch reading) (fun busy => by rcases busy with up | up <;> cases up)
        (fun active => nomatch active) (fun relied => absurd relied unrelied)

theorem Spells.sound {ls : List Law} (r : Spells ls s t) (h : Sound s) : Sound t := by
  induction ls generalizing s with
  | nil =>
      obtain rfl := r
      exact h
  | cons l ls ih =>
      obtain ⟨u, rule, later⟩ := r
      exact ih later (rule.sound h)

end
end Calculus
end Araya

import Mathlib.Logic.Function.Basic
import Araya.Runtime.Engine
import Araya.Runtime.Effects

/-!
The ledger of a runtime: what the withdrawal discipline is about, apart from the
contexts and the plugins. Every step of the engine is one of a few moves on the
ledger; the moves are listed once, and the engine's functions are shown to make
no other.
-/

namespace Araya

/-! Phases and guards -/

/-- The state of a fiber, where unloading is told apart by what it unloads: a
published activation, or a load that was cancelled. -/
inductive Phase where
  | inactive
  | loading
  | active
  | withdrawing
  | diverted
  deriving DecidableEq, Repr

def FiberRecord.phase (f : FiberRecord) : Phase :=
  match f.state with
  | .inactive => .inactive
  | .loading => .loading
  | .active => .active
  | .unloading => if f.activation.map (·.state) = some .unloading then .withdrawing else .diverted

section
variable {f : FiberRecord}

theorem FiberRecord.phase_inactive : f.phase = .inactive ↔ f.state = .inactive := by
  unfold FiberRecord.phase
  grind

theorem FiberRecord.phase_loading : f.phase = .loading ↔ f.state = .loading := by
  unfold FiberRecord.phase
  grind

theorem FiberRecord.phase_active : f.phase = .active ↔ f.state = .active := by
  unfold FiberRecord.phase
  grind

theorem FiberRecord.phase_unloading :
    f.phase = .withdrawing ∨ f.phase = .diverted ↔ f.state = .unloading := by
  unfold FiberRecord.phase
  grind

end

structure Guard where
  phase : Phase := .inactive
  retired : Bool := false
  committed : SortedMap ServiceId FiberId := ∅
  consumers : SortedSet FiberId := ∅
  remaining : Nat := 0
  done : Gate := {}

namespace Guard

/-- The activation was published and is not torn down. -/
def Published (g : Guard) : Prop := g.phase = .active ∨ g.phase = .withdrawing

instance (g : Guard) : Decidable g.Published := inferInstanceAs (Decidable (_ ∨ _))

def Names (g : Guard) (p : FiberId) : Prop := ∃ k, g.committed.find? k = some p

theorem names_iff {g : Guard} {p : FiberId} : g.Names p ↔ ∃ e ∈ g.committed.toList, e.2 = p := by
  constructor
  · rintro ⟨k, hk⟩
    exact ⟨(k, p), SortedMap.mem_toList.mpr hk, rfl⟩
  · rintro ⟨e, he, rfl⟩
    exact ⟨e.1, SortedMap.mem_toList.mp he⟩

/-- Released by a consumer: it leaves the set, and a positive counter goes down. -/
def released (g : Guard) (id : FiberId) : Guard :=
  { g with consumers := g.consumers.erase id, remaining := g.remaining - 1 }

/-- The activation is gone, and with it what it committed to. -/
def parked (g : Guard) : Guard := { g with phase := .inactive, committed := ∅ }

theorem parked_names (g : Guard) {p : FiberId} : ¬ g.parked.Names p := by
  rintro ⟨k, hk⟩
  simp [parked] at hk

end Guard

def FiberRecord.guard (f : FiberRecord) : Guard where
  phase := f.phase
  retired := decide (f.reactivate < 0)
  committed := f.committed
  consumers := f.consumers
  remaining := f.remaining
  done := f.done

structure Ledger where
  guards : FiberId → Option Guard
  nextId : Nat
  applies : List FiberId

namespace Ledger

def set (l : Ledger) (id : FiberId) (g : Guard) : Ledger :=
  { l with guards := Function.update l.guards id (some g) }

def erase (l : Ledger) (id : FiberId) : Ledger :=
  { l with guards := Function.update l.guards id none }

@[simp] theorem set_guards (l : Ledger) (id j : FiberId) (g : Guard) :
    (l.set id g).guards j = if j = id then some g else l.guards j := by
  simp only [set, Function.update_apply]

@[simp] theorem erase_guards (l : Ledger) (id j : FiberId) :
    (l.erase id).guards j = if j = id then none else l.guards j := by
  simp only [erase, Function.update_apply]

@[simp] theorem set_nextId (l : Ledger) (id : FiberId) (g : Guard) : (l.set id g).nextId = l.nextId := rfl
@[simp] theorem set_applies (l : Ledger) (id : FiberId) (g : Guard) : (l.set id g).applies = l.applies := rfl
@[simp] theorem erase_nextId (l : Ledger) (id : FiberId) : (l.erase id).nextId = l.nextId := rfl
@[simp] theorem erase_applies (l : Ledger) (id : FiberId) : (l.erase id).applies = l.applies := rfl

/-- How many consumers are mounted and not inactive. -/
def countInstalled (l : Ledger) (consumers : SortedSet FiberId) : Nat :=
  consumers.count fun c => ((l.guards c).map (·.phase)).any (· != .inactive)

def eraseAll (l : Ledger) (ids : List FiberId) : Ledger := ids.foldl erase l

theorem eraseAll_guards (l : Ledger) (ids : List FiberId) (j : FiberId) :
    (l.eraseAll ids).guards j = if j ∈ ids then none else l.guards j := by
  induction ids generalizing l with
  | nil => simp [eraseAll]
  | cons i is ih =>
      have step : (l.eraseAll (i :: is)).guards j = ((l.erase i).eraseAll is).guards j := rfl
      rw [step, ih]
      by_cases hj : j ∈ is <;> by_cases hi : j = i <;> simp [hj, hi]

@[simp] theorem eraseAll_nextId (l : Ledger) (ids : List FiberId) : (l.eraseAll ids).nextId = l.nextId := by
  induction ids generalizing l with
  | nil => rfl
  | cons i is ih => exact ih (l.erase i)

@[simp] theorem eraseAll_applies (l : Ledger) (ids : List FiberId) : (l.eraseAll ids).applies = l.applies := by
  induction ids generalizing l with
  | nil => rfl
  | cons i is ih => exact ih (l.erase i)

/-- The fiber joins the consumers of every fiber on a list. -/
def enroll (l : Ledger) (id : FiberId) (ps : List FiberId) : Ledger :=
  { l with guards := fun j => (l.guards j).map fun g =>
      if j ∈ ps then { g with consumers := g.consumers.insert id } else g }

/-- The two ledgers differ at most in how far the counter of identities went. -/
structure Same (l l' : Ledger) : Prop where
  guards : l'.guards = l.guards
  applies : l'.applies = l.applies
  nextId : l.nextId ≤ l'.nextId

theorem Same.refl (l : Ledger) : Same l l := ⟨rfl, rfl, Nat.le_refl _⟩

end Ledger

namespace Runtime

def ledger (rt : Runtime) : Ledger where
  guards id := (rt.find id).map (·.guard)
  nextId := rt.nextId
  applies := rt.applies

@[simp] theorem ledger_guards (rt : Runtime) (id : FiberId) :
    rt.ledger.guards id = (rt.find id).map (·.guard) := rfl

@[simp] theorem ledger_set (rt : Runtime) (id : FiberId) (f : FiberRecord) :
    (rt.set id f).ledger = rt.ledger.set id f.guard := by
  have hg : (rt.set id f).ledger.guards = (rt.ledger.set id f.guard).guards := by
    funext j
    simp only [ledger_guards, find_set, Ledger.set_guards]
    split <;> rfl
  exact congrArg (fun g => Ledger.mk g rt.nextId rt.applies) hg

@[simp] theorem ledger_eraseFiber (rt : Runtime) (id : FiberId) :
    (rt.eraseFiber id).ledger = rt.ledger.erase id := by
  have hg : (rt.eraseFiber id).ledger.guards = (rt.ledger.erase id).guards := by
    funext j
    simp only [ledger_guards, find_eraseFiber, Ledger.erase_guards]
    split <;> rfl
  exact congrArg (fun g => Ledger.mk g rt.nextId rt.applies) hg

theorem ledger_eraseAll (rt : Runtime) (ids : List FiberId) :
    (ids.foldl eraseFiber rt).ledger = rt.ledger.eraseAll ids := by
  induction ids generalizing rt with
  | nil => rfl
  | cons i is ih => rw [List.foldl_cons, ih, ledger_eraseFiber]; rfl

/-- Rewriting a fiber's record without touching its guard leaves the ledger alone. -/
theorem ledger_set_same {rt : Runtime} {id : FiberId} {f g : FiberRecord} (h : rt.find id = some f)
    (hg : g.guard = f.guard) : (rt.set id g).ledger = rt.ledger := by
  have hs : (rt.ledger.set id g.guard).guards = rt.ledger.guards := by
    funext j
    simp only [Ledger.set_guards, ledger_guards]
    split
    · next hj => rw [hj, h, hg]; rfl
    · rfl
  rw [ledger_set]
  exact congrArg (fun g => Ledger.mk g rt.nextId rt.applies) hs

theorem ledger_countInstalled (rt : Runtime) (consumers : SortedSet FiberId) :
    rt.countInstalled consumers = rt.ledger.countInstalled consumers := by
  apply SortedSet.count_congr
  intro c _
  simp only [ledger_guards]
  cases hf : rt.find c with
  | none => rfl
  | some g =>
      have hi : g.guard.phase = .inactive ↔ g.state = .inactive := g.phase_inactive
      have same : (g.state != .inactive) = (g.guard.phase != .inactive) := by
        rw [Bool.eq_iff_iff, bne_iff_ne, bne_iff_ne, ne_eq, ne_eq, hi]
      exact same

end Runtime
end Araya

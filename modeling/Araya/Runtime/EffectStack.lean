import Mathlib.Data.List.Nodup
import Mathlib.Tactic.Tauto
import Araya.Util.Machine

/-!
The cleanups of an activation. `run_all` counts down from the end of a stack that the cleanups it calls may grow, so
what is added meanwhile moves its count: an addition is only run if another cleanup releases it.
-/

namespace Araya

/-- `effect_stack`. The entry of a cleanup is the mark that it was released. -/
structure EffectStack where
  entries : List Bool := []
  error : Option String := none

namespace EffectStack
variable (s : EffectStack)

def add : EffectStack := { s with entries := s.entries ++ [false] }

/-- `run_entry`, up to the call: there is none for an entry that is released or missing. -/
def runEntry (index : Nat) : Option EffectStack :=
  if s.entries[index]? = some false then some { s with entries := s.entries.set index true } else none

/-- The first error of a cleanup is kept. -/
def caught (raised : Option String) : EffectStack := { s with error := s.error.or raised }

end EffectStack

/-- A stack with the cleanups that run, `depth` of them, each called by the one before it, and the count of a `run_all`.
From `total` on the fields are histories: how many cleanups were registered, how many of them before `run_all`, and those
that `release` and the loop of `run_all` have called, in order. -/
structure Cleanups where
  stack : EffectStack := {}
  depth : Nat := 0
  processed : Option Nat := none
  ended : Bool := false
  total : Nat := 0
  before : Nat := 0
  early : List Nat := []
  looped : List Nat := []

inductive CleanupOp where
  | add
  | release (index : Nat)
  | leave (raised : Option String)
  | runAll
  | visit

namespace Cleanups
variable (c : Cleanups)

/-- Someone other than the loop of `run_all` acts. -/
def Free : Prop := c.ended = false ∧ (c.processed = none ∨ 0 < c.depth)

instance : Decidable c.Free := inferInstanceAs (Decidable (_ ∧ _))

def called (s : EffectStack) : Cleanups := { c with stack := s, depth := c.depth + 1 }

/-- One turn of the loop of `run_all`. -/
def visit (processed : Nat) : Cleanups :=
  if processed < c.stack.entries.length then
    let index := c.stack.entries.length - 1 - processed
    let c := { c with processed := some (processed + 1) }
    match c.stack.runEntry index with
    | some s => { c.called s with looped := c.looped ++ [index] }
    | none => c
  else { c with stack := { c.stack with entries := [] }, processed := none, ended := true }

def next : CleanupOp → Option Cleanups
  | .add => if c.Free then some { c with stack := c.stack.add, total := c.total + 1 } else none
  | .release index =>
    if c.Free then
      match c.stack.runEntry index with
      | some s => some { c.called s with early := c.early ++ [index] }
      | none => some c
    else none
  | .leave raised =>
    if 0 < c.depth then some { c with stack := c.stack.caught raised, depth := c.depth - 1 } else none
  | .runAll =>
    if c.ended = false ∧ c.processed = none ∧ c.depth = 0 then some { c with processed := some 0, before := c.total }
    else none
  | .visit =>
    match c.processed with
    | some processed => if c.depth = 0 then some (c.visit processed) else none
    | none => none

end Cleanups

/-- A stack from its start to the end of its `run_all`, whatever the cleanups do. -/
def cleanupSystem : System Cleanups CleanupOp where
  start c := c = {}
  step c op c' := c.next op = some c'

/-- Each cleanup has run once, those that nobody released in the reverse order of their registration. -/
structure Cleanups.Complete (c : Cleanups) : Prop where
  once : (c.early ++ c.looped).Perm (List.range c.total)
  reversed : c.looped.Pairwise (· > ·)
  emptied : c.stack.entries = []

/-- What holds until the end of `run_all`. -/
structure Cleanups.Sound (c : Cleanups) : Prop where
  length : c.stack.entries.length = c.total
  released : ∀ i, c.stack.entries[i]? = some true ↔ i ∈ c.early ∨ i ∈ c.looped
  nodup : (c.early ++ c.looped).Nodup
  waiting : c.processed = none → c.looped = []
  before : c.processed ≠ none → c.before ≤ c.total
  passed : ∀ p ∈ c.processed, ∀ i < c.before, c.total ≤ i + p → c.stack.entries[i]? = some true
  above : c.processed ≠ none → ∀ l ∈ c.looped, ∀ i < c.before, l ≤ i → c.stack.entries[i]? = some true
  first : ∀ l ∈ c.looped.head?, l < c.before
  grown : c.processed ≠ none → c.before < c.total ∨ 0 < c.depth → c.looped ≠ []
  ordered : (c.looped.filter (· < c.before)).Pairwise (· > ·)

/-- What holds at the end. -/
structure Cleanups.Closed (c : Cleanups) : Prop where
  idle : c.depth = 0 ∧ c.processed = none
  emptied : c.stack.entries = []
  called : ∀ i, i ∈ c.early ∨ i ∈ c.looped → i < c.total
  nodup : (c.early ++ c.looped).Nodup
  before : c.before ≤ c.total
  old : ∀ i < c.before, i ∈ c.early ∨ i ∈ c.looped
  first : ∀ l ∈ c.looped.head?, l < c.before
  grown : c.before < c.total → c.looped ≠ []
  ordered : (c.looped.filter (· < c.before)).Pairwise (· > ·)

theorem EffectStack.runEntry_some {s s' : EffectStack} {index : Nat} (h : s.runEntry index = some s') :
    s.entries[index]? = some false ∧ s'.entries = s.entries.set index true := by
  unfold runEntry at h
  split at h
  · next pending =>
      cases h
      exact ⟨pending, rfl⟩
  · cases h

theorem EffectStack.runEntry_none {s : EffectStack} {index : Nat} (h : s.runEntry index = none) (bound : index < s.entries.length) :
    s.entries[index]? = some true := by
  unfold runEntry at h
  split at h
  · cases h
  · next other =>
      rw [List.getElem?_eq_getElem bound] at other ⊢
      cases released : s.entries[index] with
      | true => rfl
      | false => exact absurd (congrArg some released) other

namespace Cleanups
variable {c c' : Cleanups}

/-- An entry that is called keeps the marks of the others. -/
theorem getElem?_set {entries : List Bool} {index : Nat} (pending : entries[index]? = some false) (i : Nat) :
    (entries.set index true)[i]? = some true ↔ i = index ∨ entries[i]? = some true := by
  have bound := (List.getElem?_eq_some_iff.mp pending).1
  by_cases same : i = index
  · subst same
    simp [bound]
  · rw [List.getElem?_set_ne (Ne.symm same)]
    simp [same]

namespace Sound

theorem lt_total (inv : c.Sound) {i : Nat} (released : c.stack.entries[i]? = some true) : i < c.total :=
  inv.length ▸ (List.getElem?_eq_some_iff.mp released).1

theorem uncalled (inv : c.Sound) {i : Nat} (pending : c.stack.entries[i]? = some false) : i ∉ c.early ∧ i ∉ c.looped := by
  have unreleased : ¬ c.stack.entries[i]? = some true := by
    rw [pending]
    decide
  exact ⟨fun h => unreleased ((inv.released i).mpr (.inl h)), fun h => unreleased ((inv.released i).mpr (.inr h))⟩

theorem add (inv : c.Sound) (free : c.Free) : Sound { c with stack := c.stack.add, total := c.total + 1 } := by
  have grows (i : Nat) : c.stack.add.entries[i]? = some true ↔ c.stack.entries[i]? = some true := by
    unfold EffectStack.add
    rcases Nat.lt_trichotomy i c.stack.entries.length with inside | rfl | outside
    · rw [List.getElem?_append_left inside]
    · simp
    · rw [List.getElem?_eq_none (by simp; omega), List.getElem?_eq_none (by omega)]
  refine ⟨?_, fun i => (grows i).trans (inv.released i), inv.nodup, inv.waiting, ?_, ?_, ?_, inv.first, ?_, inv.ordered⟩
  · simp [EffectStack.add, inv.length]
  · exact fun running => Nat.le_succ_of_le (inv.before running)
  · intro p running i old past
    have past : c.total + 1 ≤ i + p := past
    exact (grows i).mpr (inv.passed p running i old (by omega))
  · exact fun running l member i old past => (grows i).mpr (inv.above running l member i old past)
  · intro running _
    rcases free.2 with idle | deep
    · exact absurd idle running
    · exact inv.grown running (.inr deep)

/-- A cleanup that is called by `release`. -/
theorem release (inv : c.Sound) (free : c.Free) {index : Nat} {s : EffectStack} (h : c.stack.runEntry index = some s) :
    Sound { c.called s with early := c.early ++ [index] } := by
  obtain ⟨pending, entries⟩ := EffectStack.runEntry_some h
  obtain ⟨fresh, fresh'⟩ := inv.uncalled pending
  have grows (i : Nat) : s.entries[i]? = some true ↔ i = index ∨ c.stack.entries[i]? = some true := by
    rw [entries]
    exact getElem?_set pending i
  refine ⟨?_, fun i => (grows i).trans ?_, ?_, inv.waiting, inv.before, ?_, ?_, inv.first, ?_, inv.ordered⟩
  · exact (congrArg List.length entries).trans (List.length_set.trans inv.length)
  · rw [inv.released, List.mem_append, List.mem_singleton]
    tauto
  · rw [List.append_assoc, List.singleton_append, List.perm_middle.nodup_iff, List.nodup_cons]
    exact ⟨fun member => (List.mem_append.mp member).elim fresh fresh', inv.nodup⟩
  · exact fun p running i old past => (grows i).mpr (.inr (inv.passed p running i old past))
  · exact fun running l member i old past => (grows i).mpr (.inr (inv.above running l member i old past))
  · intro running _
    rcases free.2 with idle | deep
    · exact absurd idle running
    · exact inv.grown running (.inr deep)

/-- A turn of the loop that comes to a released entry. -/
theorem skip (inv : c.Sound) {processed : Nat} (running : c.processed = some processed) (more : processed < c.stack.entries.length)
    (h : c.stack.runEntry (c.stack.entries.length - 1 - processed) = none) :
    Sound { c with processed := some (processed + 1) } := by
  have some : c.processed ≠ none := by simp [running]
  have released := EffectStack.runEntry_none h (by omega)
  refine ⟨inv.length, inv.released, inv.nodup, nofun, fun _ => inv.before some, ?_, fun _ => inv.above some, inv.first,
    fun _ => inv.grown some, inv.ordered⟩
  rintro p ⟨⟩ i old past
  by_cases here : i = c.stack.entries.length - 1 - processed
  · exact here ▸ released
  · exact inv.passed processed running i old (by have := inv.length; dsimp only at past; omega)

/-- A turn of the loop that calls a cleanup. -/
theorem visit (inv : c.Sound) {processed : Nat} (running : c.processed = some processed)
    (more : processed < c.stack.entries.length) {s : EffectStack}
    (h : c.stack.runEntry (c.stack.entries.length - 1 - processed) = some s) :
    Sound { Cleanups.called { c with processed := some (processed + 1) } s with
      looped := c.looped ++ [c.stack.entries.length - 1 - processed] } := by
  have some : c.processed ≠ none := by simp [running]
  obtain ⟨pending, entries⟩ := EffectStack.runEntry_some h
  rw [inv.length] at pending entries more ⊢
  generalize hindex : c.total - 1 - processed = index at *
  obtain ⟨fresh, fresh'⟩ := inv.uncalled pending
  have unreleased : ¬ c.stack.entries[index]? = Option.some true := by
    rw [pending]
    decide
  have grows (i : Nat) : s.entries[i]? = Option.some true ↔ i = index ∨ c.stack.entries[i]? = Option.some true := by
    rw [entries]
    exact getElem?_set pending i
  have passed (i : Nat) (old : i < c.before) (past : index ≤ i) : s.entries[i]? = Option.some true := by
    refine (grows i).mpr ?_
    by_cases here : i = index
    · exact .inl here
    · exact .inr (inv.passed processed running i old (by omega))
  refine ⟨?_, fun i => (grows i).trans ?_, ?_, nofun, fun _ => inv.before some, ?_, ?_, ?_, ?_, ?_⟩
  · exact (congrArg List.length entries).trans (List.length_set.trans inv.length)
  · rw [inv.released, List.mem_append, List.mem_singleton]
    tauto
  · rw [← List.append_assoc]
    refine List.nodup_append.mpr ⟨inv.nodup, List.pairwise_singleton _ _, fun a called b now same => ?_⟩
    rw [same, List.mem_singleton.mp now] at called
    exact (List.mem_append.mp called).elim fresh fresh'
  · rintro p ⟨⟩ i old past
    exact passed i old (by dsimp only [Cleanups.called] at past; omega)
  · intro _ l member i old past
    rcases List.mem_append.mp member with before | now
    · exact (grows i).mpr (.inr (inv.above some l before i old past))
    · exact passed i old (List.mem_singleton.mp now ▸ past)
  · intro l member
    cases looped : c.looped with
    | nil =>
        dsimp only [Cleanups.called] at member
        rw [looped] at member
        cases member
        have whole : ¬ c.before < c.total := fun late => inv.grown some (.inl late) looped
        show index < c.before
        omega
    | cons l' rest =>
        dsimp only [Cleanups.called] at member
        rw [looped] at member
        exact inv.first l (looped ▸ member)
  · exact fun _ _ => List.append_ne_nil_of_right_ne_nil _ (List.cons_ne_nil _ _)
  · dsimp only [Cleanups.called]
    rw [List.filter_append]
    refine List.pairwise_append.mpr ⟨inv.ordered, (List.pairwise_singleton _ _).filter _, fun l looped i now => ?_⟩
    · obtain ⟨now, old⟩ := List.mem_filter.mp now
      cases List.mem_singleton.mp now
      obtain ⟨looped, -⟩ := List.mem_filter.mp looped
      exact Nat.lt_of_not_le fun past => unreleased (inv.above some l looped index (of_decide_eq_true old) past)

/-- The end of the loop. -/
theorem close (inv : c.Sound) {processed : Nat} (running : c.processed = some processed) (still : c.depth = 0)
    (less : ¬ processed < c.stack.entries.length) :
    Closed { c with stack := { c.stack with entries := [] }, processed := none, ended := true } := by
  have some : c.processed ≠ none := by simp [running]
  refine ⟨⟨still, rfl⟩, rfl, fun i called => inv.lt_total ((inv.released i).mpr called), inv.nodup, inv.before some, ?_,
    inv.first, fun late => inv.grown some (.inl late), inv.ordered⟩
  exact fun i old => (inv.released i).mp (inv.passed processed running i old (by have := inv.length; omega))

end Sound

/-- One step keeps what holds before the end and at it. -/
theorem Sound.next {op : CleanupOp} (inv : c.ended = false → c.Sound) (closed : c.ended = true → c.Closed)
    (h : c.next op = some c') : (c'.ended = false → c'.Sound) ∧ (c'.ended = true → c'.Closed) := by
  cases op with
  | add =>
      unfold Cleanups.next at h
      dsimp only at h
      split at h
      · next free =>
          cases h
          exact ⟨fun _ => (inv free.1).add free, fun stopped => absurd (stopped.symm.trans free.1) (by decide)⟩
      · cases h
  | release index =>
      unfold Cleanups.next at h
      dsimp only at h
      split at h
      · next free =>
          split at h
          · next s run =>
              cases h
              exact ⟨fun _ => (inv free.1).release free run, fun stopped => absurd (stopped.symm.trans free.1) (by decide)⟩
          · cases h
            exact ⟨inv, closed⟩
      · cases h
  | leave raised =>
      unfold Cleanups.next at h
      dsimp only at h
      split at h
      · next deep =>
          cases h
          refine ⟨fun going => ?_, fun stopped => absurd (closed stopped).idle.1 (Nat.ne_of_gt deep)⟩
          have inv := inv going
          exact ⟨inv.length, inv.released, inv.nodup, inv.waiting, inv.before, inv.passed, inv.above, inv.first,
            fun running _ => inv.grown running (.inr deep), inv.ordered⟩
      · cases h
  | runAll =>
      unfold Cleanups.next at h
      dsimp only at h
      split at h
      · next ready =>
          cases h
          obtain ⟨going, idle, still⟩ := ready
          have inv := inv going
          have none := inv.waiting idle
          refine ⟨fun _ => ⟨inv.length, inv.released, inv.nodup, nofun, fun _ => Nat.le_refl _, ?_, ?_, ?_, ?_, ?_⟩,
            fun stopped => absurd (stopped.symm.trans going) (by decide)⟩
          · rintro p ⟨⟩ i old past
            exact absurd old (Nat.not_lt.mpr past)
          · intro _ l member
            rw [none] at member
            cases member
          · intro l member
            rw [none] at member
            cases member
          · exact fun _ late => late.elim (fun h => absurd h (Nat.lt_irrefl _)) fun deep => absurd still (Nat.ne_of_gt deep)
          · rw [none]
            exact .nil
      · cases h
  | visit =>
      unfold Cleanups.next at h
      dsimp only at h
      split at h
      case h_2 => cases h
      case h_1 processed running =>
        split at h
        case isFalse => cases h
        case isTrue still =>
          cases h
          have going : c.ended = false := by
            refine eq_false_of_ne_true fun stopped => ?_
            rw [(closed stopped).idle.2] at running
            cases running
          have inv := inv going
          unfold Cleanups.visit
          dsimp only
          split
          · next more =>
              split
              · next s run =>
                  exact ⟨fun _ => inv.visit running more run, fun stopped => absurd (stopped.symm.trans going) (by decide)⟩
              · next run => exact ⟨fun _ => inv.skip running more run, fun stopped => absurd (stopped.symm.trans going) (by decide)⟩
          · next less => exact ⟨nofun, fun _ => inv.close running still less⟩

theorem Sound.start : Sound {} :=
  ⟨rfl, by simp, .nil, fun _ => rfl, fun h => absurd rfl h, nofun, nofun, nofun, fun h => absurd rfl h, .nil⟩

theorem Closed.reached (h : cleanupSystem.Reached (fun _ _ => True) c) (ended : c.ended = true) : c.Closed := by
  have inv := h.invariant (I := fun c => (c.ended = false → c.Sound) ∧ (c.ended = true → c.Closed))
    (fun c start => by cases start; exact ⟨fun _ => Sound.start, nofun⟩)
    fun c op c' _ inv step _ => Sound.next inv.1 inv.2 step
  exact inv.2 ended

/-- Nothing is missed if whatever the cleanups add during `run_all` is released by one of them. -/
theorem run_all_complete (h : cleanupSystem.Reached (fun _ _ => True) c) (ended : c.ended = true) :
    c.Complete ↔ ∀ i, c.before ≤ i → i < c.total → i ∈ c.early := by
  have closed := Closed.reached h ended
  constructor
  · intro complete i late bound
    refine (List.mem_append.mp (complete.once.mem_iff.mpr (List.mem_range.mpr bound))).resolve_right fun looped => ?_
    -- the first call of the loop was one of the old cleanups, so this one came out of order
    cases hl : c.looped with
    | nil => exact absurd (hl ▸ looped) List.not_mem_nil
    | cons l rest =>
        have old := closed.first l (by rw [hl]; rfl)
        have reversed := complete.reversed
        rw [hl] at looped reversed
        rcases List.mem_cons.mp looped with rfl | behind
        · omega
        · have less := (List.pairwise_cons.mp reversed).1 i behind
          omega
  · intro released
    have all (i : Nat) : i ∈ c.early ++ c.looped ↔ i ∈ List.range c.total := by
      rw [List.mem_append, List.mem_range]
      refine ⟨closed.called i, fun bound => ?_⟩
      rcases Nat.lt_or_ge i c.before with old | late
      · exact closed.old i old
      · exact .inl (released i late bound)
    refine ⟨(List.perm_ext_iff_of_nodup closed.nodup List.nodup_range).mpr all, ?_, closed.emptied⟩
    have own : c.looped.filter (· < c.before) = c.looped := by
      refine List.filter_eq_self.mpr fun l looped => decide_eq_true (Nat.lt_of_not_le fun late => ?_)
      have twice := released l late (closed.called l (.inr looped))
      exact (List.nodup_append.mp closed.nodup).2.2 l twice l looped rfl
    exact own ▸ closed.ordered

/-- A cleanup adds an effect and releases it again. -/
theorem run_all_complete_released : ∃ c, cleanupSystem.Reached (fun _ _ => True) c ∧ c.ended = true ∧ c.total = 3 ∧
    c.looped = [1, 0] ∧ c.Complete := by
  have played : (System.follow Cleanups.next (fun _ _ => true) {}
      [.add, .add, .runAll, .visit, .add, .release 2, .leave none, .leave none, .visit, .visit, .leave none, .visit]).any
        (fun c => decide (c.ended = true ∧ c.before = 2 ∧ c.total = 3 ∧ c.looped = [1, 0] ∧ c.early = [2])) = true := by
    decide +kernel
  obtain ⟨c, hc, hplayed⟩ := (Option.any_eq_true _ _).mp played
  obtain ⟨ended, before, total, looped, early⟩ := of_decide_eq_true hplayed
  have reached := System.follow_reached (S := cleanupSystem) (P := fun _ _ => True) (fun _ _ _ h => h) (fun _ _ _ => trivial) hc
    (.start rfl)
  refine ⟨c, reached, ended, total, looped, (run_all_complete reached ended).mpr fun i late bound => ?_⟩
  rw [early, List.mem_singleton]
  omega

/-- What a cleanup adds moves the count back to the cleanup itself, and the addition is cleared without a call. -/
theorem run_all_drops : ¬ ∀ c, cleanupSystem.Reached (fun _ _ => True) c → c.ended = true → c.Complete := by
  intro complete
  have played : (System.follow Cleanups.next (fun _ _ => true) {}
      [.add, .runAll, .visit, .add, .leave none, .visit, .visit]).any
        (fun c => decide (c.ended = true ∧ c.total = 2 ∧ c.early = [] ∧ c.looped = [0])) = true := by
    decide +kernel
  obtain ⟨c, hc, hplayed⟩ := (Option.any_eq_true _ _).mp played
  obtain ⟨ended, total, early, looped⟩ := of_decide_eq_true hplayed
  have reached := System.follow_reached (S := cleanupSystem) (P := fun _ _ => True) (fun _ _ _ h => h) (fun _ _ _ => trivial) hc
    (.start rfl)
  have once := (complete c reached ended).once.length_eq
  rw [early, looped, total] at once
  cases once

end Cleanups
end Araya

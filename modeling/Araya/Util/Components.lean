import Mathlib.Logic.Relation
import Mathlib.Logic.Function.Basic
import Mathlib.Data.Finset.Card
import Mathlib.Data.Finset.Filter
import Mathlib.Data.List.Nodup

/-!
The strongly connected components of a finite graph, by one depth-first search. A vertex is numbered when it is entered
and stays on a stack until its component is found; `low` is the least number on the stack that the search has met from it.
-/

namespace Araya

universe u

/-- The tables of the search. The stack has the vertex that was pushed last in front. -/
structure Search (V : Type u) where
  index : V → Option Nat := fun _ => none
  low : V → Nat := fun _ => 0
  onStack : V → Bool := fun _ => false
  stack : List V := []
  next : Nat := 0
  found : List (List V) := []

section
variable {V : Type u} [DecidableEq V]

/-- Pops a stack down to a vertex. -/
def popTo (p : V) : List V → List V × List V
  | [] => ([], [])
  | q :: rest => if q = p then ([q], rest) else (q :: (popTo p rest).1, (popTo p rest).2)

namespace Search

def enter (p : V) (s : Search V) : Search V where
  index := Function.update s.index p (some s.next)
  low := Function.update s.low p s.next
  onStack := Function.update s.onStack p true
  stack := p :: s.stack
  next := s.next + 1
  found := s.found

def lower (p : V) (n : Nat) (s : Search V) : Search V := { s with low := Function.update s.low p (min (s.low p) n) }

/-- The component of its first vertex leaves the stack. -/
def leave (p : V) (s : Search V) : Search V :=
  let popped := popTo p s.stack
  { s with
    onStack := fun v => s.onStack v && !popped.1.contains v
    stack := popped.2
    found := s.found ++ [popped.1] }

/-- One successor of a vertex, given the search from a vertex that is new. -/
def visit (s : Search V) (connect : V → Search V → Search V) (p w : V) : Search V :=
  match s.index w with
  | none =>
    let s := connect w s
    s.lower p (s.low w)
  | some n => if s.onStack w then s.lower p n else s

variable (succ : V → List V)

/-- The search from a vertex. The fuel is more than the vertices that are still to be entered. -/
def connect : Nat → V → Search V → Search V
  | 0, _, s => s
  | fuel + 1, p, s =>
    let s := (succ p).foldl (fun s w => s.visit (connect fuel) p w) (s.enter p)
    if s.index p = some (s.low p) then s.leave p else s

/-- The search from every vertex that no other one has led to. -/
def scan (vertices : List V) : Search V :=
  vertices.foldl (fun s p => if s.index p = none then connect succ vertices.length p s else s) {}

end Search
end

/-! What the search keeps -/

section
variable {V : Type u} (succ : V → List V)

namespace Search

def Reach (a b : V) : Prop := Relation.ReflTransGen (fun v w => w ∈ succ v) a b

/-- All the vertices that reach each other with one of them. -/
def IsComponent (c : List V) : Prop := c.Nodup ∧ ∃ r, ∀ v, v ∈ c ↔ Reach succ r v ∧ Reach succ v r

def Seen (s : Search V) (v : V) : Prop := s.index v ≠ none

def number (s : Search V) (v : V) : Nat := (s.index v).getD 0

/-- The component of the vertex is found. -/
def Done (s : Search V) (v : V) : Prop := s.Seen v ∧ v ∉ s.stack

/-- The search in the middle, with the vertices on the way to the current one. Older vertices of the stack reach newer ones,
and each of them an older one on the way. -/
structure Sound (way : List V) (s : Search V) : Prop where
  flagged : ∀ v, s.onStack v = true ↔ v ∈ s.stack
  seen : ∀ v ∈ s.stack, s.Seen v
  past : ∀ v, s.Seen v → s.number v < s.next
  order : s.stack.Pairwise fun a b => s.number b < s.number a
  onWay : ∀ x ∈ way, x ∈ s.stack
  finished : ∀ v, s.Seen v → v ∉ way → ∀ w ∈ succ v, s.Seen w
  closed : ∀ v, s.Done v → ∀ w ∈ succ v, s.Done w
  forward : ∀ a ∈ s.stack, ∀ b ∈ s.stack, s.number a ≤ s.number b → Reach succ a b
  back : ∀ a ∈ s.stack, ∃ x ∈ way, s.number x ≤ s.number a ∧ Reach succ a x
  components : ∀ c ∈ s.found, IsComponent succ c
  covered : ∀ v, s.Done v ↔ ∃ c ∈ s.found, v ∈ c
  once : s.found.Pairwise List.Disjoint

/-- What a search from `p` adds. -/
structure Grown (succ : V → List V) (p : V) (s s' : Search V) : Prop where
  same : ∀ v, s.Seen v → s'.index v = s.index v ∧ s'.low v = s.low v
  later : ∀ v, s'.Seen v → ¬ s.Seen v → s.next ≤ s'.number v
  only : ∀ v, s'.Seen v → s.Seen v ∨ Reach succ p v
  next : s.next ≤ s'.next
  entered : s'.Seen p

/-- The search from `p` is over: its component is found, or `low` is the number of an older vertex on the stack. -/
structure Connected (way : List V) (p : V) (s s' : Search V) : Prop extends Grown succ p s s' where
  sound : Sound succ way s'
  stack : ∃ above, s'.stack = above ++ s.stack
  bound : ∀ a ∈ s'.stack, a ∉ s.stack → ∀ b ∈ succ a, b ∈ s.stack → s'.low p ≤ s.number b
  low : s.next ≤ s'.low p ∨ ∃ y ∈ s.stack, Reach succ p y ∧ s'.low p = s.number y

/-- The search from `p` in the middle of its successors. -/
structure Visiting (way : List V) (p : V) (s : Search V) (visited : List V) (s' : Search V) : Prop extends Grown succ p s s' where
  base : Sound succ way s
  sound : Sound succ (p :: way) s'
  new : ¬ s.Seen p
  own : s'.number p = s.next
  after : s.next < s'.next
  stack : ∃ above, s'.stack = above ++ p :: s.stack
  bound : ∀ a ∈ s'.stack, a ∉ s.stack → a ≠ p → ∀ b ∈ succ a, b ∈ s.stack → s'.low p ≤ s.number b
  least : s'.low p ≤ s.next
  low : ∃ y ∈ s'.stack, Reach succ p y ∧ s'.low p = s'.number y
  handled : ∀ w ∈ visited, s'.Seen w ∧ (w ∈ s.stack → s'.low p ≤ s.number w)

end Search
end

section
variable {V : Type u} {succ : V → List V} {way : List V} {p v w : V} {s s' s₁ : Search V}

namespace Search

/-- Any member of a component is as good as its first. -/
theorem IsComponent.mem_iff {c : List V} (h : IsComponent succ c) (member : p ∈ c) :
    v ∈ c ↔ Reach succ p v ∧ Reach succ v p := by
  obtain ⟨-, r, members⟩ := h
  obtain ⟨out, back⟩ := (members p).mp member
  rw [members]
  exact ⟨fun ⟨led, leads⟩ => ⟨back.trans led, leads.trans out⟩, fun ⟨led, leads⟩ => ⟨out.trans led, leads.trans back⟩⟩

theorem seen_iff : s.Seen v ↔ s.index v = some (s.number v) := by
  unfold Seen number
  cases s.index v <;> simp

theorem number_congr (same : s'.index v = s.index v) : s'.number v = s.number v := congrArg (Option.getD · 0) same

theorem Seen.congr (h : s.Seen v) (same : s'.index v = s.index v) : s'.Seen v := by
  unfold Seen
  rwa [same]

theorem Grown.seen (h : Grown succ p s s') (old : s.Seen v) : s'.Seen v := old.congr (h.same v old).1

theorem Grown.number (h : Grown succ p s s') (old : s.Seen v) : s'.number v = s.number v := number_congr (h.same v old).1

namespace Sound

theorem nodup (h : Sound succ way s) : s.stack.Nodup := h.order.imp fun less same => by
  rw [same] at less
  exact Nat.lt_irrefl _ less

/-- Each vertex of the stack that a vertex on the way reaches comes back to it. -/
theorem back_to (h : Sound succ way s) (reach : ∀ x ∈ way, Reach succ x p) {a : V} (there : a ∈ s.stack) : Reach succ a p := by
  obtain ⟨x, onWay, -, back⟩ := h.back a there
  exact back.trans (reach x onWay)

/-- What a found vertex reaches is found. -/
theorem done_reach (h : Sound succ way s) (done : s.Done v) (reach : Reach succ v w) : s.Done w := by
  induction reach with
  | refl => exact done
  | tail _ edge ih => exact h.closed _ ih _ edge

end Sound

theorem start_sound : Sound succ [] ({} : Search V) where
  flagged v := by simp
  seen := nofun
  past v seen := absurd rfl seen
  order := .nil
  onWay := nofun
  finished v seen := absurd rfl seen
  closed v done := absurd rfl done.1
  forward := nofun
  back := nofun
  components := nofun
  covered v := ⟨fun done => absurd rfl done.1, nofun⟩
  once := .nil

namespace Visiting
variable {visited : List V}

theorem stack_mem (h : Visiting succ way p s visited s') (there : v ∈ s.stack) : v ∈ s'.stack := by
  obtain ⟨above, split⟩ := h.stack
  rw [split]
  exact List.mem_append_right _ (List.mem_cons_of_mem _ there)

/-- A successor that was entered before and is not on the stack. -/
theorem skip (h : Visiting succ way p s visited s') (seen : s'.Seen w) (off : w ∉ s'.stack) :
    Visiting succ way p s (w :: visited) s' := by
  refine { h with handled := fun u member => ?_ }
  rcases List.mem_cons.mp member with rfl | old
  · exact ⟨seen, fun there => absurd (h.stack_mem there) off⟩
  · exact h.handled u old

theorem stack_split (h : Visiting succ way p s visited s') : ∃ above, s'.stack = above ++ p :: s.stack ∧ p ∉ above ∧
    p ∉ s.stack ∧ (∀ a ∈ above, s.next < s'.number a) ∧ ∀ b ∈ s.stack, s'.number b = s.number b ∧ s'.number b < s.next := by
  obtain ⟨above, split⟩ := h.stack
  have nodup := h.sound.nodup
  have order := h.sound.order
  rw [split] at nodup order
  refine ⟨above, split, ?_, ?_, fun a there => ?_, fun b there => ?_⟩
  · exact fun there => List.disjoint_of_nodup_append nodup there List.mem_cons_self
  · exact (List.nodup_cons.mp (List.nodup_append.mp nodup).2.1).1
  · rw [← h.own]
    exact (List.pairwise_append.mp order).2.2 a there p List.mem_cons_self
  · have old := h.base.seen b there
    rw [h.number old]
    exact ⟨rfl, h.base.past b old⟩

theorem component_reach (h : Visiting succ way p s visited s') (reach : ∀ x ∈ way, Reach succ x p) {above : List V}
    (split : s'.stack = above ++ p :: s.stack) (newer : ∀ a ∈ above, s.next < s'.number a)
    (leads : ∀ a ∈ above ++ [p], ∀ b ∈ succ a, b ∈ above ++ [p] ∨ s'.Done b) : IsComponent succ (above ++ [p]) := by
  have whole : s'.stack = above ++ [p] ++ s.stack := by rw [split, List.append_cons]
  have onStack : p ∈ s'.stack := by simp [split]
  have nodup := h.sound.nodup
  rw [whole] at nodup
  have led {v : V} (out : Reach succ p v) : v ∈ above ++ [p] ∨ s'.Done v := by
    induction out with
    | refl => exact .inl (List.mem_append_right _ List.mem_cons_self)
    | tail _ edge ih => exact ih.elim (fun member => leads _ member _ edge) fun done => .inr (h.sound.closed _ done _ edge)
  refine ⟨(List.nodup_append.mp nodup).1, p, fun v => ⟨fun member => ?_, fun ⟨out, back⟩ => ?_⟩⟩
  · have there : v ∈ s'.stack := whole ▸ List.mem_append_left _ member
    refine ⟨h.sound.forward p onStack v there ?_, h.sound.back_to (fun x onWay => ?_) there⟩
    · rw [h.own]
      rcases List.mem_append.mp member with upper | own
      · exact (newer v upper).le
      · rw [List.mem_singleton.mp own, h.own]
    · rcases List.mem_cons.mp onWay with rfl | onWay
      · exact .refl
      · exact reach x onWay
  · exact (led out).resolve_right fun done => (h.sound.done_reach done back).2 onStack

end Visiting

/-! Entering a vertex -/

variable [DecidableEq V]

theorem enter_index : (s.enter p).index v = if v = p then some s.next else s.index v := Function.update_apply _ _ _ _

theorem enter_low : (s.enter p).low v = if v = p then s.next else s.low v := Function.update_apply _ _ _ _

theorem seen_enter : (s.enter p).Seen v ↔ v = p ∨ s.Seen v := by
  unfold Seen
  rw [enter_index]
  split <;> simp [*]

theorem number_enter : (s.enter p).number v = if v = p then s.next else s.number v := by
  unfold number
  rw [enter_index]
  split <;> rfl

theorem enter_visiting (sound : Sound succ way s) (new : ¬ s.Seen p) (reach : ∀ x ∈ way, Reach succ x p) :
    Visiting succ way p s [] (s.enter p) := by
  have other {v : V} (old : s.Seen v) : v ≠ p := fun same => new (same ▸ old)
  have numbered {v : V} (old : s.Seen v) : (s.enter p).number v = s.number v := by rw [number_enter, if_neg (other old)]
  have own : (s.enter p).number p = s.next := by rw [number_enter, if_pos rfl]
  refine
    { same := fun v old => ⟨by rw [enter_index, if_neg (other old)], by rw [enter_low, if_neg (other old)]⟩
      later := fun v seen fresh => ?_
      only := fun v seen => (seen_enter.mp seen).symm.imp_right fun same => by rw [same]; exact .refl
      next := Nat.le_succ _
      entered := seen_enter.mpr (.inl rfl)
      base := sound
      new
      own
      after := Nat.lt_succ_self _
      stack := ⟨[], rfl⟩
      bound := fun a there absent differs => absurd ((List.mem_cons.mp there).resolve_left differs) absent
      least := by rw [enter_low, if_pos rfl]
      low := ⟨p, List.mem_cons_self, .refl, by rw [own, enter_low, if_pos rfl]⟩
      handled := nofun
      sound := ?_ }
  · rcases seen_enter.mp seen with rfl | old
    · exact own.ge
    · exact absurd old fresh
  · have done {v : V} : (s.enter p).Done v ↔ s.Done v := by
      unfold Done
      rw [seen_enter]
      show _ ∧ v ∉ p :: s.stack ↔ _
      rw [List.mem_cons, not_or]
      constructor
      · rintro ⟨rfl | old, differs, absent⟩
        · exact absurd rfl differs
        · exact ⟨old, absent⟩
      · rintro ⟨old, absent⟩
        exact ⟨.inr old, other old, absent⟩
    refine
      { flagged := fun v => ?_
        seen := fun v there => ?_
        past := fun v seen => ?_
        order := ?_
        onWay := fun x member => ?_
        finished := fun v seen off w edge => ?_
        closed := fun v found w edge => done.mpr (sound.closed v (done.mp found) w edge)
        forward := fun a ha b hb less => ?_
        back := fun a there => ?_
        components := sound.components
        covered := fun v => done.trans (sound.covered v)
        once := sound.once }
    · show Function.update s.onStack p true v = true ↔ v ∈ p :: s.stack
      rw [Function.update_apply, List.mem_cons]
      by_cases same : v = p
      · simp [same]
      · simpa [same] using sound.flagged v
    · exact seen_enter.mpr ((List.mem_cons.mp there).imp_right (sound.seen v))
    · rcases seen_enter.mp seen with rfl | old
      · rw [own]
        exact Nat.lt_succ_self _
      · rw [numbered old]
        exact Nat.lt_succ_of_lt (sound.past v old)
    · refine List.pairwise_cons.mpr ⟨fun b there => ?_, sound.order.imp_of_mem fun ha hb less => ?_⟩
      · rw [own, numbered (sound.seen b there)]
        exact sound.past b (sound.seen b there)
      · rwa [numbered (sound.seen _ ha), numbered (sound.seen _ hb)]
    · exact List.mem_cons.mpr ((List.mem_cons.mp member).imp_right (sound.onWay x))
    · rw [List.mem_cons, not_or] at off
      rcases seen_enter.mp seen with rfl | old
      · exact absurd rfl off.1
      · exact seen_enter.mpr (.inr (sound.finished v old off.2 w edge))
    · rcases List.mem_cons.mp hb with rfl | hb
      · rcases List.mem_cons.mp ha with rfl | ha
        · exact .refl
        · exact sound.back_to reach ha
      · have old := sound.seen b hb
        rcases List.mem_cons.mp ha with rfl | ha
        · rw [own, numbered old] at less
          exact absurd (sound.past b old) (Nat.not_lt.mpr less)
        · rw [numbered old, numbered (sound.seen a ha)] at less
          exact sound.forward a ha b hb less
    · rcases List.mem_cons.mp there with rfl | ha
      · exact ⟨a, List.mem_cons_self, le_rfl, .refl⟩
      · obtain ⟨x, onWay, less, back⟩ := sound.back a ha
        refine ⟨x, List.mem_cons_of_mem _ onWay, ?_, back⟩
        rwa [numbered (sound.seen a ha), numbered (sound.seen x (sound.onWay x onWay))]

/-! Visiting a successor -/

theorem lower_low {n : Nat} : (s.lower p n).low v = if v = p then min (s.low p) n else s.low v := Function.update_apply _ _ _ _

/-- The numbers on the stack do not say what `low` is. -/
theorem Sound.lower (h : Sound succ way s) (n : Nat) : Sound succ way (s.lower p n) :=
  ⟨h.flagged, h.seen, h.past, h.order, h.onWay, h.finished, h.closed, h.forward, h.back, h.components, h.covered, h.once⟩

namespace Visiting
variable {visited : List V}

/-- `low` goes down to the number of a vertex of the stack that `p` reaches. -/
theorem lower (h : Visiting succ way p s visited s') {n : Nat} {y : V} (there : y ∈ s'.stack) (reach : Reach succ p y)
    (numbered : s'.number y = n) : Visiting succ way p s visited (s'.lower p n) := by
  have low : (s'.lower p n).low p = min (s'.low p) n := by rw [lower_low, if_pos rfl]
  have less : (s'.lower p n).low p ≤ s'.low p := by
    rw [low]
    exact Nat.min_le_left _ _
  refine
    { h with
      same := fun v old => ⟨(h.same v old).1, ?_⟩
      sound := h.sound.lower n
      bound := fun a ha absent differs b edge hb => less.trans (h.bound a ha absent differs b edge hb)
      least := less.trans h.least
      low := ?_
      handled := fun u member => ⟨(h.handled u member).1, fun hu => less.trans ((h.handled u member).2 hu)⟩ }
  · have other : v ≠ p := fun same => h.new (same ▸ old)
    rw [lower_low, if_neg other]
    exact (h.same v old).2
  · rcases Nat.le_total (s'.low p) n with least | least
    · obtain ⟨x, hx, reaches, own⟩ := h.low
      exact ⟨x, hx, reaches, by rw [low, Nat.min_eq_left least]; exact own⟩
    · exact ⟨y, there, reach, by rw [low, Nat.min_eq_right least]; exact numbered.symm⟩

/-- A successor on the stack. -/
theorem meet (h : Visiting succ way p s visited s') (edge : w ∈ succ p) (there : w ∈ s'.stack) :
    Visiting succ way p s (w :: visited) (s'.lower p (s'.number w)) := by
  have lowered := h.lower there (.single edge) rfl
  refine { lowered with handled := fun u member => ?_ }
  rcases List.mem_cons.mp member with rfl | old
  · refine ⟨h.sound.seen u there, fun older => ?_⟩
    rw [lower_low, if_pos rfl, h.number (h.base.seen u older)]
    exact Nat.min_le_right _ _
  · exact lowered.handled u old

/-- A successor that is searched from. -/
theorem deepen (h : Visiting succ way p s visited s') (edge : w ∈ succ p) (fresh : ¬ s'.Seen w)
    (conn : Connected succ (p :: way) w s' s₁) : Visiting succ way p s (w :: visited) (s₁.lower p (s₁.low w)) := by
  have low : (s₁.lower p (s₁.low w)).low p = min (s'.low p) (s₁.low w) := by
    rw [lower_low, if_pos rfl, (conn.same p h.entered).2]
  have less : (s₁.lower p (s₁.low w)).low p ≤ s'.low p := by
    rw [low]
    exact Nat.min_le_left _ _
  refine
    { same := fun v old => ⟨(conn.same v (h.seen old)).1.trans (h.same v old).1, ?_⟩
      later := fun v seen absent => ?_
      only := fun v seen => (conn.only v seen).elim (h.only v) fun reach => .inr (.head edge reach)
      next := h.next.trans conn.next
      entered := conn.seen h.entered
      base := h.base
      sound := conn.sound.lower _
      new := h.new
      own := (conn.number h.entered).trans h.own
      after := h.after.trans_le conn.next
      stack := ?_
      bound := fun a ha absent differs b step hb => ?_
      least := less.trans h.least
      low := ?_
      handled := fun u member => ?_ }
  · have other : v ≠ p := fun same => h.new (same ▸ old)
    rw [lower_low, if_neg other]
    exact (conn.same v (h.seen old)).2.trans (h.same v old).2
  · by_cases middle : s'.Seen v
    · exact (h.later v middle absent).trans (conn.number middle).ge
    · exact h.next.trans (conn.later v seen middle)
  · obtain ⟨front, first⟩ := conn.stack
    obtain ⟨above, second⟩ := h.stack
    exact ⟨front ++ above, by rw [List.append_assoc, ← second]; exact first⟩
  · by_cases middle : a ∈ s'.stack
    · exact less.trans (h.bound a middle absent differs b step hb)
    · have found := conn.bound a ha middle b step (h.stack_mem hb)
      rw [h.number (h.base.seen b hb)] at found
      rw [low]
      exact (Nat.min_le_right _ _).trans found
  · obtain ⟨front, first⟩ := conn.stack
    have kept {y : V} (there : y ∈ s'.stack) : y ∈ s₁.stack := first ▸ List.mem_append_right _ there
    obtain ⟨y, there, reach, numbered⟩ : ∃ y ∈ s'.stack, Reach succ p y ∧ min (s'.low p) (s₁.low w) = s'.number y := by
      obtain ⟨x, hx, reaches, own⟩ := h.low
      rcases conn.low with popped | ⟨y, hy, from_w, numbered⟩
      · exact ⟨x, hx, reaches, by rw [Nat.min_eq_left ((h.least.trans h.after.le).trans popped)]; exact own⟩
      · rcases Nat.le_total (s'.low p) (s₁.low w) with least | least
        · exact ⟨x, hx, reaches, by rw [Nat.min_eq_left least]; exact own⟩
        · exact ⟨y, hy, .head edge from_w, by rw [Nat.min_eq_right least]; exact numbered⟩
    refine ⟨y, kept there, reach, low.trans (numbered.trans ?_)⟩
    exact (conn.number (h.sound.seen y there)).symm
  · rcases List.mem_cons.mp member with rfl | old
    · exact ⟨conn.entered, fun there => absurd (h.seen (h.base.seen u there)) fresh⟩
    · obtain ⟨seen, bounded⟩ := h.handled u old
      exact ⟨conn.seen seen, fun there => less.trans (bounded there)⟩

/-- One successor, when a search from a new vertex does what it should. -/
theorem visit (h : Visiting succ way p s visited s') (edge : w ∈ succ p) {connect : V → Search V → Search V}
    (search : ¬ s'.Seen w → Connected succ (p :: way) w s' (connect w s')) :
    Visiting succ way p s (w :: visited) (s'.visit connect p w) := by
  unfold Search.visit
  split
  case h_1 none => exact h.deepen edge (fun seen => seen none) (search fun seen => seen none)
  case h_2 n some =>
    have seen : s'.Seen w := by
      unfold Seen
      rw [some]
      exact Option.some_ne_none n
    split
    case isTrue flagged =>
      have numbered : s'.number w = n := by
        unfold Search.number
        rw [some]
        rfl
      exact numbered ▸ h.meet edge ((h.sound.flagged w).mp flagged)
    case isFalse unflagged => exact h.skip seen fun there => unflagged ((h.sound.flagged w).mpr there)

/-! Leaving a vertex -/

theorem finish (h : Visiting succ way p s visited s') (all : ∀ w ∈ succ p, w ∈ visited) (seen : s'.Seen v) (off : v ∉ way)
    (edge : w ∈ succ v) : s'.Seen w := by
  by_cases same : v = p
  · subst same
    exact (h.handled w (all w edge)).1
  · exact h.sound.finished v seen (fun member => (List.mem_cons.mp member).elim same off) w edge

/-- The vertex reaches an older one on the stack, so its component is not complete. -/
theorem inner (h : Visiting succ way p s visited s') (all : ∀ w ∈ succ p, w ∈ visited) (inner : s'.low p ≠ s.next) :
    Connected succ way p s s' := by
  obtain ⟨above, split, -, -, newer, older⟩ := h.stack_split
  obtain ⟨y, there, reach, numbered⟩ := h.low
  have less : s'.number y < s.next := numbered ▸ lt_of_le_of_ne h.least inner
  have onStack : y ∈ s.stack := by
    rw [split] at there
    rcases List.mem_append.mp there with upper | rest
    · exact absurd (newer y upper) (Nat.lt_asymm less)
    · rcases List.mem_cons.mp rest with rfl | under
      · exact absurd h.own less.ne
      · exact under
  refine
    { h.toGrown with
      stack := ⟨above ++ [p], by rw [split, List.append_assoc]; rfl⟩
      bound := fun a ha absent b edge hb => ?_
      low := .inr ⟨y, onStack, reach, numbered.trans (older y onStack).1⟩
      sound :=
        { h.sound with
          onWay := fun x member => h.sound.onWay x (List.mem_cons_of_mem _ member)
          finished := fun v seen off w edge => h.finish all seen off edge
          back := fun a ha => ?_ } }
  · obtain ⟨x, member, before, back⟩ := h.sound.back a ha
    rcases List.mem_cons.mp member with rfl | onWay
    · obtain ⟨x', onWay, before', back'⟩ := h.base.back y onStack
      refine ⟨x', onWay, ?_, back.trans (reach.trans back')⟩
      rw [h.own] at before
      have own := (older y onStack).1
      have own' := (older x' (h.base.onWay x' onWay)).1
      omega
    · exact ⟨x, onWay, before, back⟩
  · by_cases same : a = p
    · subst same
      exact (h.handled b (all b edge)).2 hb
    · exact h.bound a ha absent same b edge hb

end Visiting

theorem popTo_append {above rest : List V} (absent : p ∉ above) : popTo p (above ++ p :: rest) = (above ++ [p], rest) := by
  induction above with
  | nil => simp [popTo]
  | cons a above ih =>
      rw [List.mem_cons, not_or] at absent
      rw [List.cons_append, popTo, if_neg (Ne.symm absent.1), ih absent.2]
      rfl

namespace Visiting
variable {visited : List V}

/-- What is on the stack down to a root is its component. -/
theorem component (h : Visiting succ way p s visited s') (all : ∀ w ∈ succ p, w ∈ visited) (root : s'.low p = s.next)
    {above : List V} (split : s'.stack = above ++ p :: s.stack) (newer : ∀ a ∈ above, s.next < s'.number a)
    (older : ∀ b ∈ s.stack, s'.number b = s.number b ∧ s'.number b < s.next) :
    ∀ a ∈ above ++ [p], ∀ b ∈ succ a, b ∈ above ++ [p] ∨ s'.Done b := by
  intro a member b edge
  have there : a ∈ s'.stack := by
    rw [split, List.append_cons]
    exact List.mem_append_left _ member
  have absent : a ∉ s.stack := fun old => by
    have before := (older a old).2
    rcases List.mem_append.mp member with upper | own
    · exact Nat.lt_asymm before (newer a upper)
    · rw [List.mem_singleton.mp own, h.own] at before
      exact Nat.lt_irrefl _ before
  have seen := h.finish all (h.sound.seen a there) (fun onWay => absent (h.base.onWay a onWay)) edge
  by_cases onStack : b ∈ s'.stack
  · rw [split, List.append_cons] at onStack
    refine .inl ((List.mem_append.mp onStack).resolve_right fun under => ?_)
    have low : s'.low p ≤ s.number b := by
      by_cases same : a = p
      · subst same
        exact (h.handled b (all b edge)).2 under
      · exact h.bound a there absent same b edge under
    have own := older b under
    omega
  · exact .inr ⟨seen, onStack⟩

/-- The vertex is a root, and its component leaves the stack. -/
theorem root (h : Visiting succ way p s visited s') (all : ∀ w ∈ succ p, w ∈ visited) (root : s'.low p = s.next)
    (reach : ∀ x ∈ way, Reach succ x p) : Connected succ way p s (s'.leave p) := by
  obtain ⟨above, split, alone, -, newer, older⟩ := h.stack_split
  have leads := h.component all root split newer older
  have component := h.component_reach reach split newer leads
  have popped : popTo p s'.stack = (above ++ [p], s.stack) := by rw [split, popTo_append alone]
  have stack : (s'.leave p).stack = s.stack := congrArg Prod.snd popped
  have found : (s'.leave p).found = s'.found ++ [above ++ [p]] := congrArg (fun c => s'.found ++ [c]) (congrArg Prod.fst popped)
  have whole : s'.stack = above ++ [p] ++ s.stack := by rw [split, List.append_cons]
  have apart : ∀ v ∈ s.stack, v ∉ above ++ [p] := fun v under upper =>
    List.disjoint_of_nodup_append (whole ▸ h.sound.nodup) upper under
  have done (v : V) : (s'.leave p).Done v ↔ s'.Done v ∨ v ∈ above ++ [p] := by
    unfold Done
    rw [stack, whole, List.mem_append, not_or]
    constructor
    · rintro ⟨seen, off⟩
      by_cases member : v ∈ above ++ [p]
      · exact .inr member
      · exact .inl ⟨seen, member, off⟩
    · rintro (⟨seen, -, off⟩ | member)
      · exact ⟨seen, off⟩
      · exact ⟨h.sound.seen v (whole ▸ List.mem_append_left _ member), fun under => apart v under member⟩
  have kept {v : V} (there : v ∈ s.stack) : v ∈ s'.stack := h.stack_mem there
  refine
    { same := h.same
      later := h.later
      only := h.only
      next := h.next
      entered := h.entered
      stack := ⟨[], stack⟩
      bound := fun a there absent => absurd (stack ▸ there) absent
      low := .inl root.ge
      sound :=
        { flagged := fun v => ?_
          seen := fun v there => h.sound.seen v (kept (stack ▸ there))
          past := h.sound.past
          order := ?_
          onWay := fun x member => stack ▸ h.base.onWay x member
          finished := fun v seen off w edge => h.finish all seen off edge
          closed := fun v found w edge => ?_
          forward := fun a ha b hb less => h.sound.forward a (kept (stack ▸ ha)) b (kept (stack ▸ hb)) less
          back := fun a there => ?_
          components := fun c member => ?_
          covered := fun v => ?_
          once := ?_ } }
  · show (s'.onStack v && !(popTo p s'.stack).1.contains v) = true ↔ _
    rw [popped, stack, Bool.and_eq_true, h.sound.flagged, whole, List.mem_append, Bool.not_eq_true', Bool.eq_false_iff, Ne,
      List.contains_iff_mem]
    exact ⟨fun ⟨there, off⟩ => there.resolve_left off, fun under => ⟨.inr under, apart v under⟩⟩
  · rw [stack]
    exact (List.pairwise_append.mp (whole ▸ h.sound.order)).2.1
  · refine (done w).mpr ?_
    rcases (done v).mp found with old | new
    · exact .inl (h.sound.closed v old w edge)
    · exact (leads v new w edge).symm
  · rw [stack] at there
    obtain ⟨x, onWay, less, back⟩ := h.base.back a there
    refine ⟨x, onWay, ?_, back⟩
    show s'.number x ≤ s'.number a
    rwa [(older a there).1, (older x (h.base.onWay x onWay)).1]
  · rw [found] at member
    rcases List.mem_append.mp member with old | new
    · exact h.sound.components c old
    · exact List.mem_singleton.mp new ▸ component
  · rw [done, h.sound.covered, found]
    simp only [List.mem_append, List.mem_singleton, or_and_right, exists_or, exists_eq_left]
  · rw [found]
    refine List.pairwise_append.mpr ⟨h.sound.once, List.pairwise_singleton _ _, fun c member c' last => ?_⟩
    rw [List.mem_singleton.mp last]
    intro v there again
    exact ((h.sound.covered v).mpr ⟨c, member, there⟩).2 (whole ▸ List.mem_append_left _ again)

end Visiting

/-! The whole search -/

/-- The vertices that are still to be entered. -/
def unseen (vertices : List V) (s : Search V) : Finset V := vertices.toFinset.filter fun v => s.index v = none

theorem unseen_lt {vertices : List V} (kept : ∀ v, s.Seen v → s'.Seen v) (member : p ∈ vertices) (new : ¬ s.Seen p)
    (entered : s'.Seen p) : (s'.unseen vertices).card < (s.unseen vertices).card := by
  refine Finset.card_lt_card (Finset.ssubset_iff_of_subset (fun v there => ?_) |>.mpr ⟨p, ?_, fun there => ?_⟩)
  · obtain ⟨home, none⟩ := Finset.mem_filter.mp there
    exact Finset.mem_filter.mpr ⟨home, not_not.mp fun seen => kept v seen none⟩
  · exact Finset.mem_filter.mpr ⟨List.mem_toFinset.mpr member, not_not.mp new⟩
  · exact entered (Finset.mem_filter.mp there).2

theorem connect_spec {vertices : List V} (closed : ∀ v ∈ vertices, ∀ w ∈ succ v, w ∈ vertices) {fuel : Nat}
    (sound : Sound succ way s) (new : ¬ s.Seen p) (reach : ∀ x ∈ way, Reach succ x p) (member : p ∈ vertices)
    (enough : (s.unseen vertices).card ≤ fuel) : Connected succ way p s (connect succ fuel p s) := by
  induction fuel generalizing way p s with
  | zero =>
      have still : p ∈ s.unseen vertices := Finset.mem_filter.mpr ⟨List.mem_toFinset.mpr member, not_not.mp new⟩
      exact absurd (Finset.card_pos.mpr ⟨p, still⟩) (Nat.not_lt.mpr enough)
  | succ fuel ih =>
      have fold (rest : List V) {visited : List V} {s' : Search V} (h : Visiting succ way p s visited s')
          (edges : ∀ w ∈ rest, w ∈ succ p) : Visiting succ way p s (rest.reverse ++ visited)
            (rest.foldl (fun s w => s.visit (connect succ fuel) p w) s') := by
        induction rest generalizing visited s' with
        | nil => exact h
        | cons w rest visits =>
            obtain ⟨edge, edges⟩ := List.forall_mem_cons.mp edges
            rw [List.reverse_cons, List.append_assoc]
            refine visits (h.visit edge fun fresh => ih h.sound fresh (fun x onWay => ?_) (closed p member w edge) ?_) edges
            · exact (List.mem_cons.mp onWay).elim (fun same => same ▸ .single edge) fun onWay => (reach x onWay).tail edge
            · exact Nat.le_of_lt_succ ((unseen_lt (fun v => h.seen) member new h.entered).trans_le enough)
      have visits := fold (succ p) (enter_visiting sound new reach) fun w edge => edge
      have all : ∀ w ∈ succ p, w ∈ (succ p).reverse ++ [] := fun w edge => by simpa using edge
      have own := seen_iff.mp visits.entered
      rw [visits.own] at own
      unfold connect
      dsimp only
      split
      case isTrue root => exact visits.root all (Option.some.inj (own.symm.trans root)).symm reach
      case isFalse inner => exact visits.inner all fun root => inner (own.trans (congrArg some root.symm))

/-- The search finds the components of the vertices, each once. -/
theorem scan_spec {vertices : List V} (closed : ∀ v ∈ vertices, ∀ w ∈ succ v, w ∈ vertices) :
    (∀ c ∈ (scan succ vertices).found, IsComponent succ c ∧ ∀ v ∈ c, v ∈ vertices) ∧
      (scan succ vertices).found.Pairwise List.Disjoint ∧ ∀ v ∈ vertices, ∃ c ∈ (scan succ vertices).found, v ∈ c := by
  have led {v w : V} (home : v ∈ vertices) (reach : Reach succ v w) : w ∈ vertices := by
    induction reach with
    | refl => exact home
    | tail _ edge ih => exact closed _ ih _ edge
  have fold (rest : List V) {s : Search V} (sound : Sound succ [] s) (home : ∀ v, s.Seen v → v ∈ vertices)
      (among : ∀ p ∈ rest, p ∈ vertices) :
      let s' := rest.foldl (fun s p => if s.index p = none then connect succ vertices.length p s else s) s
      Sound succ [] s' ∧ (∀ v, s'.Seen v → v ∈ vertices) ∧ (∀ v, s.Seen v → s'.Seen v) ∧ ∀ p ∈ rest, s'.Seen p := by
    induction rest generalizing s with
    | nil => exact ⟨sound, home, fun v seen => seen, nofun⟩
    | cons p rest ih =>
        obtain ⟨member, among⟩ := List.forall_mem_cons.mp among
        rw [List.foldl_cons]
        split
        case isTrue none =>
          have enough : (s.unseen vertices).card ≤ vertices.length :=
            (Finset.card_filter_le _ _).trans (List.toFinset_card_le _)
          have conn := connect_spec closed sound (not_not.mpr none) nofun member enough
          obtain ⟨sound', home', kept, entered⟩ := ih conn.sound
            (fun v seen => (conn.only v seen).elim (home v) (led member)) among
          exact ⟨sound', home', fun v seen => kept v (conn.seen seen),
            List.forall_mem_cons.mpr ⟨kept p conn.entered, entered⟩⟩
        case isFalse some =>
          obtain ⟨sound', home', kept, entered⟩ := ih sound home among
          exact ⟨sound', home', kept, List.forall_mem_cons.mpr ⟨kept p some, entered⟩⟩
  obtain ⟨sound, home, -, entered⟩ := fold vertices start_sound (fun v seen => absurd rfl seen) fun p member => member
  have done (v : V) (seen : (scan succ vertices).Seen v) : (scan succ vertices).Done v := by
    refine ⟨seen, fun there => ?_⟩
    obtain ⟨x, onWay, -⟩ := sound.back v there
    exact List.not_mem_nil onWay
  refine ⟨fun c member => ⟨sound.components c member, fun v inside => ?_⟩, sound.once, fun v member => ?_⟩
  · exact home v ((sound.covered v).mpr ⟨c, member, inside⟩).1
  · exact (sound.covered v).mp (done v (entered v member))

end Search
end
end Araya

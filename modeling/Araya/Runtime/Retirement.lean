import Araya.Runtime.Accounts

/-!
Retirement. A retired fiber never loads or becomes active again, and whoever
erases fibers waits until they are inactive with their providers released. The
accounts decide when a gate is open; retirement follows the waiters from there.
-/

namespace Araya

/-- The fibers a waiter erases when it is through. -/
def Waiter.retired : Waiter → List FiberId
  | .retire id | .retireChild id => [id]
  | .reconcile job => job.retired

/-- The gates it still waits for after the one it waits on. -/
def Waiter.awaiting : Waiter → List FiberId
  | .retire _ | .retireChild _ => []
  | .reconcile job => job.awaiting

/-- The fibers a call is to erase. -/
def Frame.retired : Frame → List FiberId
  | .awaitDone _ w | .resume w => w.retired
  | .reconcileAwait job => job.retired
  | .reconcileDiff _ _ toAwait => toAwait
  | .retireChildTail id => [id]
  | _ => []

/-- Of these, the fibers it has yet to wait for. -/
def Frame.awaiting : Frame → List FiberId
  | .awaitDone id w => id :: w.awaiting
  | .resume w => w.awaiting
  | .reconcileAwait job => job.awaiting
  | .reconcileDiff _ _ toAwait => toAwait
  | .retireChildTail id => [id]
  | _ => []

/-- The calls that run on an otherwise empty stack. -/
def Frame.Bottom : Frame → Prop
  | .reconcileDiff .. | .retireChildTail _ => True
  | _ => False

def Ledger.Condemned (l : Ledger) (i : FiberId) : Prop :=
  i < l.nextId ∧ ∀ g, l.guards i = some g → g.retired = true

/-- A fiber that may be erased. -/
def Ledger.Settled (l : Ledger) (st : List Frame) (i : FiberId) : Prop :=
  ∀ g, l.guards i = some g → g.phase = .inactive ∧ ∀ es, .releaseProviders i es ∉ st

/-- Every fiber to be erased is retired, and settled unless it is still awaited. -/
def Ledger.Owes (l : Ledger) (st : List Frame) (retired awaiting : List FiberId) : Prop :=
  ∀ i ∈ retired, l.Condemned i ∧ (i ∈ awaiting ∨ l.Settled st i)

/-- No retired fiber is loading or active. -/
def Ledger.Clear (l : Ledger) : Prop :=
  ∀ j g, l.guards j = some g → g.retired = true → g.phase ≠ .active ∧ g.phase ≠ .loading

structure Retirement (l : Ledger) (st : List Frame) : Prop where
  doomed : ∀ j g, l.guards j = some g → g.retired = true → (g.phase = .active ∨ g.phase = .loading) →
    ∃ b rest, st = .beginUnload j b :: rest
  bottom : ∀ f ∈ st.dropLast, ¬ f.Bottom
  calls : ∀ f ∈ st, l.Owes st f.retired f.awaiting
  waiters : ∀ j g w, l.guards j = some g → w ∈ g.done.waiters → l.Owes st w.retired (j :: w.awaiting)

/-! Stability -/

/-- A step that undoes neither a retirement nor a finished unload. -/
def Lasting (l : Ledger) (st : List Frame) (l' : Ledger) (st' : List Frame) : Prop :=
  ∀ i, l.Condemned i → l'.Condemned i ∧ (l.Settled st i → l'.Settled st' i)

section
variable {l l' : Ledger} {st st' : List Frame} {id : FiberId} {g x : Guard}

theorem Ledger.Owes.lasts (ht : Lasting l st l' st') {r a : List FiberId} (h : l.Owes st r a) :
    l'.Owes st' r a :=
  fun i hi => ⟨(ht i (h i hi).1).1, (h i hi).2.imp_right (ht i (h i hi).1).2⟩

theorem Ledger.Owes.nil {a : List FiberId} : l.Owes st [] a := fun _ hi => absurd hi List.not_mem_nil

theorem Frame.Plain.retired {f : Frame} (h : f.Plain) : f.retired = [] := by
  cases f <;> first | rfl | exact False.elim h

theorem Frame.Plain.not_bottom {f : Frame} (h : f.Plain) : ¬ f.Bottom := by
  cases f <;> first | exact False.elim h | exact fun hb => hb

/-- Fibers at most disappear, and no new release is pending. -/
theorem Lasting.shrink (sub : ∀ i y, l'.guards i = some y → l.guards i = some y)
    (hn : l.nextId ≤ l'.nextId) (hst : ∀ i es, .releaseProviders i es ∈ st' →
      ∃ es', .releaseProviders i es' ∈ st) : Lasting l st l' st' := by
  intro i hc
  refine ⟨⟨Nat.lt_of_lt_of_le hc.1 hn, fun g hg => hc.2 g (sub i g hg)⟩, ?_⟩
  intro h g hg
  have hg' := h g (sub i g hg)
  refine ⟨hg'.1, fun es hes => ?_⟩
  obtain ⟨es', hes'⟩ := hst i es hes
  exact hg'.2 es' hes'

/-- One guard changes: retired stays retired, and retired inactive stays inactive. -/
theorem Lasting.set (hl : l'.guards = (l.set id x).guards) (hn : l.nextId ≤ l'.nextId)
    (hg : l.guards id = some g) (hr : g.retired = true → x.retired = true)
    (hp : g.retired = true → g.phase = .inactive → x.phase = .inactive)
    (hst : ∀ i es, .releaseProviders i es ∈ st' → (i ≠ id ∨ g.phase = .inactive) →
      ∃ es', .releaseProviders i es' ∈ st) : Lasting l st l' st' := by
  intro i hc
  refine ⟨⟨Nat.lt_of_lt_of_le hc.1 hn, ?_⟩, ?_⟩
  · intro y hy
    rw [hl, Ledger.set_guards] at hy
    split at hy
    · next he => cases hy; exact hr (hc.2 g (he ▸ hg))
    · exact hc.2 y hy
  · intro h y hy
    rw [hl, Ledger.set_guards] at hy
    split at hy
    · next he =>
        cases hy
        have hi := h g (he ▸ hg)
        refine ⟨hp (hc.2 g (he ▸ hg)) hi.1, fun es hes => ?_⟩
        obtain ⟨es', hes'⟩ := hst i es hes (.inr hi.1)
        exact hi.2 es' hes'
    · next he =>
        have hi := h y hy
        refine ⟨hi.1, fun es hes => ?_⟩
        obtain ⟨es', hes'⟩ := hst i es hes (.inl he)
        exact hi.2 es' hes'

end

namespace Retirement
variable {l l' : Ledger} {f : Frame} {rest fs st : List Frame} {id : FiberId} {g x : Guard}

/-- Below the top call no retired fiber is loading or active, unless that call unloads it. -/
theorem clear (h : Retirement l (f :: rest)) (hf : ∀ b, f ≠ .beginUnload id b)
    (hg : l.guards id = some g) (hr : g.retired = true) : g.phase ≠ .active ∧ g.phase ≠ .loading := by
  constructor <;> intro hp
  · obtain ⟨b, _, he⟩ := h.doomed id g hg hr (.inl hp)
    cases he
    exact hf b rfl
  · obtain ⟨b, _, he⟩ := h.doomed id g hg hr (.inr hp)
    cases he
    exact hf b rfl

theorem clear_of_empty (h : Retirement l []) : l.Clear := by
  intro j g hg hr
  constructor <;> intro hp
  · obtain ⟨b, _, he⟩ := h.doomed j g hg hr (.inl hp)
    cases he
  · obtain ⟨b, _, he⟩ := h.doomed j g hg hr (.inr hp)
    cases he

theorem doomed_of_clear (h : l.Clear) (j : FiberId) (g : Guard) (hg : l.guards j = some g)
    (hr : g.retired = true) (hp : g.phase = .active ∨ g.phase = .loading) :
    ∃ b rest, st = .beginUnload j b :: rest :=
  absurd hp (not_or.mpr (h j g hg hr))

/-- The rest of a handler whose top call is a reconcile pass or a child's retirement is empty. -/
theorem rest_of_bottom (h : Retirement l (f :: rest)) (hf : f.Bottom) : rest = [] := by
  cases rest with
  | nil => rfl
  | cons r rs => exact absurd hf (h.bottom f (by simp [List.dropLast]))

theorem bottom_push (h : Retirement l (f :: rest)) (hfs : ∀ g ∈ fs, ¬ g.Bottom) :
    ∀ g ∈ (fs ++ rest).dropLast, ¬ g.Bottom := by
  intro g hg
  cases rest with
  | nil =>
      rw [List.append_nil] at hg
      exact hfs g ((List.dropLast_sublist fs).subset hg)
  | cons r rs =>
      rw [List.dropLast_append_cons] at hg
      rcases List.mem_append.mp hg with hg | hg
      · exact hfs g hg
      · exact h.bottom g (by simp [List.dropLast, hg])

/-- The new stack's releases were pending before. -/
theorem older (hfs : ∀ i es, .releaseProviders i es ∉ fs) (i : FiberId)
    (es : List (ServiceId × FiberId)) (h : .releaseProviders i es ∈ fs ++ rest) :
    ∃ es', .releaseProviders i es' ∈ f :: rest := by
  rcases List.mem_append.mp h with h | h
  · exact absurd h (hfs i es)
  · exact ⟨es, List.mem_cons_of_mem _ h⟩

theorem older_of_inert (hfs : ∀ k ∈ fs, k.unloads = none) (i : FiberId)
    (es : List (ServiceId × FiberId)) (h : .releaseProviders i es ∈ fs ++ rest) :
    ∃ es', .releaseProviders i es' ∈ f :: rest :=
  older (fun _ _ hin => nomatch hfs _ hin) i es h

/-- The calls of a new stack: those below are kept by a lasting step. -/
theorem calls_push (h : Retirement l (f :: rest)) (ht : Lasting l (f :: rest) l' (fs ++ rest))
    (new : ∀ k ∈ fs, l'.Owes (fs ++ rest) k.retired k.awaiting) :
    ∀ k ∈ fs ++ rest, l'.Owes (fs ++ rest) k.retired k.awaiting := by
  intro k hk
  rcases List.mem_append.mp hk with hk | hk
  · exact new k hk
  · exact (h.calls k (List.mem_cons_of_mem _ hk)).lasts ht

/-- One guard changes, with no waiter joining its gate. -/
theorem waiters_set (h : Retirement l (f :: rest)) (ht : Lasting l (f :: rest) l' (fs ++ rest))
    (hl : l'.guards = (l.set id x).guards) (hg : l.guards id = some g)
    (hw : ∀ w ∈ x.done.waiters, w ∈ g.done.waiters) : ∀ j y w, l'.guards j = some y →
      w ∈ y.done.waiters → l'.Owes (fs ++ rest) w.retired (j :: w.awaiting) := by
  intro j y w hy hin
  rw [hl, Ledger.set_guards] at hy
  split at hy
  · next he =>
      cases hy
      exact he ▸ (h.waiters id g w hg (hw w hin)).lasts ht
  · exact (h.waiters j y w hy hin).lasts ht

theorem waiters_shrink (h : Retirement l (f :: rest)) (ht : Lasting l (f :: rest) l' (fs ++ rest))
    (sub : ∀ i y, l'.guards i = some y → l.guards i = some y) : ∀ j y w, l'.guards j = some y →
      w ∈ y.done.waiters → l'.Owes (fs ++ rest) w.retired (j :: w.awaiting) :=
  fun j y w hy hin => (h.waiters j y w (sub j y hy) hin).lasts ht

/-- A turn that changes one guard and pushes calls without retirements of their own. -/
theorem set_turn (h : Retirement l (f :: rest)) (hl : l'.guards = (l.set id x).guards)
    (hn : l.nextId ≤ l'.nextId) (hg : l.guards id = some g) (hf : ∀ j b, f = .beginUnload j b → j = id)
    (hr : x.retired = g.retired) (hp : g.phase = .inactive → g.retired = true → x.phase = .inactive)
    (hclear : x.retired = true → x.phase ≠ .active ∧ x.phase ≠ .loading)
    (hw : ∀ w ∈ x.done.waiters, w ∈ g.done.waiters)
    (hst : ∀ i es, .releaseProviders i es ∈ fs ++ rest → (i ≠ id ∨ g.phase = .inactive) →
      ∃ es', .releaseProviders i es' ∈ f :: rest)
    (quiet : ∀ k ∈ fs, k.retired = [] ∧ ¬ k.Bottom) : Retirement l' (fs ++ rest) := by
  have ht : Lasting l (f :: rest) l' (fs ++ rest) :=
    .set hl hn hg (fun h => hr ▸ h) (fun hr hi => hp hi hr) hst
  refine ⟨doomed_of_clear ?_, h.bottom_push fun k hk => (quiet k hk).2, h.calls_push ht ?_,
    h.waiters_set ht hl hg hw⟩
  · intro j y hy hr
    rw [hl, Ledger.set_guards] at hy
    split at hy
    · cases hy; exact hclear hr
    · next hne => exact h.clear (fun b hb => hne (hf j b hb)) hy hr
  · intro k hk
    rw [(quiet k hk).1]
    exact .nil

/-- A turn after which fibers are at most gone. -/
theorem shrink_turn (h : Retirement l (f :: rest)) (sub : ∀ i y, l'.guards i = some y → l.guards i = some y)
    (hn : l.nextId ≤ l'.nextId) (hclear : l'.Clear)
    (hst : ∀ i es, .releaseProviders i es ∈ fs ++ rest → ∃ es', .releaseProviders i es' ∈ f :: rest)
    (bottom : ∀ k ∈ (fs ++ rest).dropLast, ¬ k.Bottom)
    (new : Lasting l (f :: rest) l' (fs ++ rest) → ∀ k ∈ fs, l'.Owes (fs ++ rest) k.retired k.awaiting) :
    Retirement l' (fs ++ rest) := by
  have ht : Lasting l (f :: rest) l' (fs ++ rest) := .shrink sub hn hst
  exact ⟨doomed_of_clear hclear, bottom, h.calls_push ht (new ht), h.waiters_shrink ht sub⟩

theorem clear_all (h : Retirement l (f :: rest)) (hf : ∀ j b, f ≠ .beginUnload j b) : l.Clear :=
  fun j _ hg hr => h.clear (hf j) hg hr

theorem head (h : Retirement l (f :: rest)) : l.Owes (f :: rest) f.retired f.awaiting :=
  h.calls f List.mem_cons_self

/-- A turn that leaves the fibers alone and replaces the top call. -/
theorem same_turn (h : Retirement l (f :: rest)) (hs : l.Same l') (hf : ∀ j b, f ≠ .beginUnload j b)
    (hst : ∀ i es, .releaseProviders i es ∈ fs ++ rest → ∃ es', .releaseProviders i es' ∈ f :: rest)
    (bottom : ∀ k ∈ (fs ++ rest).dropLast, ¬ k.Bottom)
    (new : Lasting l (f :: rest) l' (fs ++ rest) → ∀ k ∈ fs, l'.Owes (fs ++ rest) k.retired k.awaiting) :
    Retirement l' (fs ++ rest) :=
  h.shrink_turn (fun _ _ hy => hs.guards ▸ hy) hs.nextId
    (fun j y hy => h.clear_all hf j y (hs.guards ▸ hy)) hst bottom new

theorem turn (h : Retirement l (f :: rest)) (ha : Accounts l (f :: rest)) (t : Turn l f l' fs) :
    Retirement l' (fs ++ rest) := by
  have duty : ∀ {k : Frame}, k.retired = f.retired → k.awaiting = f.awaiting →
      Lasting l (f :: rest) l' (fs ++ rest) → l'.Owes (fs ++ rest) k.retired k.awaiting := by
    intro k hr hw ht
    rw [hr, hw]
    exact h.head.lasts ht
  have erased : ∀ (ids : List FiberId) (i : FiberId) (y : Guard),
      (l.eraseAll ids).guards i = some y → l.guards i = some y := by
    intro ids i y hy
    rw [Ledger.eraseAll_guards] at hy
    split at hy
    · cases hy
    · exact hy
  cases t with
  | quiet hf same plain =>
      exact h.same_turn same (fun j b he => by rw [he] at hf; exact hf)
        (older_of_inert fun k hk => (plain k hk).unloads)
        (h.bottom_push fun k hk => (plain k hk).not_bottom)
        fun _ k hk => by rw [(plain k hk).retired]; exact .nil
  | @load id g names hg hp hr _ =>
      exact h.set_turn (x := { g with phase := .loading, committed := names }) rfl
        (Nat.le_succ _) hg (by simp) rfl (fun _ hr' => absurd hr' (by simp [hr]))
        (fun hr' => absurd hr' (by simp [hr])) (fun _ hw => hw)
        (fun i es hin _ => older_of_inert (by simp) i es hin) (by simp)
  | @lapse id g hg hp =>
      exact h.set_turn (x := g.parked) rfl (Nat.le_succ _) hg (by simp) rfl (fun _ _ => rfl)
        (fun _ => ⟨by simp [Guard.parked], by simp [Guard.parked]⟩) (fun _ hw => hw)
        (fun i es hin _ => older_of_inert (by simp) i es hin) (by simp)
  | @passed id b hp =>
      refine h.shrink_turn (fun _ _ hy => hy) (Nat.le_refl _) ?_ (older_of_inert (by simp))
        (h.bottom_push (by simp)) fun _ k hk => absurd hk List.not_mem_nil
      intro j y hy hr
      by_cases hj : j = id
      · exact (hp y (hj ▸ hy)).symm
      · exact h.clear (fun b' he => hj (by cases he; rfl)) hy hr
  | @divert id b g hg hp =>
      exact h.set_turn (x := { g with phase := .diverted, done := g.done.close }) rfl
        (Nat.le_refl _) hg (fun j b' he => by cases he; rfl) rfl (fun hi => absurd hi (by simp [hp]))
        (fun _ => ⟨by simp, by simp⟩) (fun _ hw => hw)
        (fun i es hin _ => older_of_inert (by simp) i es hin) (by simp)
  | @leave id b g hg hp =>
      have inert : ∀ k ∈ g.consumers.toList.map (Frame.beginUnload · true) ++ [.requestStop id],
          k.retired = [] ∧ ¬ k.Bottom ∧ ∀ i es, k ≠ .releaseProviders i es := by
        intro k hk
        rcases List.mem_append.mp hk with hk | hk
        · obtain ⟨_, _, rfl⟩ := List.mem_map.mp hk
          simp [Frame.retired, Frame.Bottom]
        · rw [List.mem_singleton.mp hk]
          simp [Frame.retired, Frame.Bottom]
      exact h.set_turn rfl (Nat.le_refl _) hg (fun j b' he => by cases he; rfl) rfl
        (fun hi => absurd hi (by simp [hp])) (fun _ => ⟨by simp, by simp⟩) (fun _ hw => hw)
        (fun i es hin _ => older (fun i es hk => (inert _ hk).2.2 i es rfl) i es hin)
        (fun k hk => ⟨(inert k hk).1, (inert k hk).2.1⟩)
  | stop =>
      exact h.same_turn (.refl _) (by simp) (older (by simp)) (h.bottom_push (by simp [Frame.Bottom]))
        fun _ k hk => by rw [List.mem_singleton.mp hk]; exact .nil
  | @finish id g fs hg hp hr plain =>
      refine h.set_turn (x := g.parked) rfl (Nat.le_refl _) hg (by simp) rfl (fun _ _ => rfl)
        (fun _ => ⟨by simp [Guard.parked], by simp [Guard.parked]⟩) (fun _ hw => hw) ?_ ?_
      · intro i es hin hcase
        rcases List.mem_cons.mp hin with he | hin
        · cases he
          rcases hcase with hne | hi
          · exact absurd rfl hne
          · simp [hi] at hp
        · rcases List.mem_cons.mp hin with he | hin
          · cases he
          · exact older_of_inert (fun k hk => (plain k hk).unloads) i es hin
      · intro k hk
        rcases List.mem_cons.mp hk with rfl | hk
        · exact ⟨rfl, fun hb => hb⟩
        · rcases List.mem_cons.mp hk with rfl | hk
          · exact ⟨rfl, fun hb => hb⟩
          · exact ⟨(plain k hk).retired, (plain k hk).not_bottom⟩
  | @release id e es p hp =>
      refine h.set_turn (x := p.released id) rfl (Nat.le_refl _) hp (by simp) rfl
        (fun hi _ => hi) (fun hr => h.clear (g := p) (by simp) hp hr) (fun _ hw => hw) ?_ ?_
      · intro i es' hin _
        rcases List.mem_append.mp hin with hin | hin
        · simp only [List.mem_cons, Frame.releaseProviders.injEq, List.not_mem_nil, or_false,
            reduceCtorEq, false_or] at hin
          exact ⟨e :: es, by rw [hin.1]; exact List.mem_cons_self⟩
        · exact ⟨es', List.mem_cons_of_mem _ hin⟩
      · intro k hk
        rcases List.mem_cons.mp hk with rfl | hk
        · exact ⟨rfl, fun hb => hb⟩
        · rw [List.mem_singleton.mp hk]
          exact ⟨rfl, fun hb => hb⟩
  | @skip id e es hn =>
      refine h.same_turn (.refl _) (by simp) ?_ (h.bottom_push (by simp [Frame.Bottom]))
        fun _ k hk => by rw [List.mem_singleton.mp hk]; exact .nil
      intro i es' hin
      rcases List.mem_append.mp hin with hin | hin
      · cases List.mem_singleton.mp hin
        exact ⟨e :: es, List.mem_cons_self⟩
      · exact ⟨es', List.mem_cons_of_mem _ hin⟩
  | @opened id g hg =>
      have below : ∀ es, .releaseProviders id es ∉ rest := fun es hin =>
        (List.pairwise_cons.mp ha.calls.ordered).1 _ hin id es rfl rfl
      have hst : ∀ i es, .releaseProviders i es ∈ g.done.waiters.map Frame.resume ++ rest →
          .releaseProviders i es ∈ rest := by
        intro i es hin
        rcases List.mem_append.mp hin with hin | hin
        · obtain ⟨_, _, he⟩ := List.mem_map.mp hin
          cases he
        · exact hin
      have ht : Lasting l (.openDone id :: rest) (l.set id { g with done := {} })
          (g.done.waiters.map Frame.resume ++ rest) :=
        .set rfl (Nat.le_refl _) hg (fun hr => hr) (fun _ hi => hi)
          fun i es hin _ => ⟨es, List.mem_cons_of_mem _ (hst i es hin)⟩
      refine ⟨doomed_of_clear ?_, h.bottom_push ?_, h.calls_push ht ?_, h.waiters_set ht rfl hg (by simp)⟩
      · intro j y hy hr
        rw [Ledger.set_guards] at hy
        split at hy
        · cases hy
          exact h.clear (g := g) (by simp) hg hr
        · exact h.clear (by simp) hy hr
      · intro k hk
        obtain ⟨_, _, rfl⟩ := List.mem_map.mp hk
        exact fun hb => hb
      · intro k hk
        obtain ⟨w, hw, rfl⟩ := List.mem_map.mp hk
        intro i hi
        have owed := (h.waiters id g w hg hw).lasts ht i hi
        refine ⟨owed.1, ?_⟩
        rcases owed.2 with hin | hs
        · rcases List.mem_cons.mp hin with rfl | hin
          · refine .inr fun y hy => ?_
            have retired := owed.1.2 y hy
            rw [Ledger.set_guards, if_pos rfl] at hy
            cases hy
            have hd : g.phase = .inactive ∨ g.phase = .loading := ha.calls.head i g rfl hg
            exact ⟨hd.resolve_right (h.clear (by simp) hg retired).2, fun es hin => below es (hst i es hin)⟩
          · exact .inl hin
        · exact .inr hs
  | @waits id w g hg ho =>
      have ht : Lasting l (.awaitDone id w :: rest)
          (l.set id { g with done := { g.done with waiters := g.done.waiters ++ [w] } }) ([] ++ rest) :=
        .set rfl (Nat.le_refl _) hg (fun hr => hr) (fun _ hi => hi)
          fun i es hin _ => older_of_inert (by simp) i es hin
      refine ⟨doomed_of_clear ?_, h.bottom_push (by simp), h.calls_push ht (by simp), ?_⟩
      · intro j y hy hr
        rw [Ledger.set_guards] at hy
        split at hy
        · cases hy
          exact h.clear (g := g) (by simp) hg hr
        · exact h.clear (by simp) hy hr
      · intro j y w' hy hin
        rw [Ledger.set_guards] at hy
        split at hy
        · next he =>
            cases hy
            rw [he]
            rcases List.mem_append.mp hin with hin | hin
            · exact (h.waiters id g w' hg hin).lasts ht
            · rw [List.mem_singleton.mp hin]
              exact h.head.lasts ht
        · exact (h.waiters j y w' hy hin).lasts ht
  | @through id w ho =>
      refine h.same_turn (.refl _) (by simp) (older_of_inert (by simp [Frame.unloads]))
        (h.bottom_push (by simp [Frame.Bottom])) fun ht k hk => ?_
      rw [List.mem_singleton.mp hk]
      intro i hi
      have owed := h.head i hi
      refine ⟨owed.1, ?_⟩
      rcases owed.2 with hin | hs
      · rcases List.mem_cons.mp hin with rfl | hin
        · refine .inr fun g hg => ?_
          have retired := owed.1.2 g hg
          have live := h.clear (by simp) hg retired
          have bal := ha.books.balanced i g hg
          have isOpen := ho g hg
          have inactive : g.phase = .inactive := by
            cases hp : g.phase with
            | inactive => rfl
            | active => exact absurd hp live.1
            | loading => exact absurd hp live.2
            | withdrawing => simp [bal.closed (.inl hp)] at isOpen
            | diverted => simp [bal.closed (.inr hp)] at isOpen
          refine ⟨inactive, fun es hin => ?_⟩
          have pending : .releaseProviders i es ∈ rest := by simpa using hin
          have adm := ha.admits (List.mem_cons_of_mem _ pending) rfl hg
          simp [adm.2] at isOpen
        · exact .inl hin
      · exact .inr ((ht i owed.1).2 hs)
  | @erased w id he =>
      exact h.shrink_turn (erased [id]) (Nat.le_refl _)
        (fun j y hy => h.clear_all (by simp) j y (erased [id] j y hy)) (older_of_inert (by simp))
        (h.bottom_push (by simp)) fun _ k hk => absurd hk List.not_mem_nil
  | resumed =>
      exact h.same_turn (.refl _) (by simp) (older (by simp)) (h.bottom_push (by simp [Frame.Bottom]))
        fun ht k hk => by rw [List.mem_singleton.mp hk]; exact duty rfl rfl ht
  | @childErased id g hg hp =>
      exact h.shrink_turn (erased [id]) (Nat.le_refl _)
        (fun j y hy => h.clear_all (by simp) j y (erased [id] j y hy)) (older_of_inert (by simp))
        (h.bottom_push (by simp)) fun _ k hk => absurd hk List.not_mem_nil
  | childWaits =>
      exact h.same_turn (.refl _) (by simp) (older (by simp)) (h.bottom_push (by simp [Frame.Bottom]))
        fun ht k hk => by rw [List.mem_singleton.mp hk]; exact duty rfl rfl ht
  | @dropEntry l' id g desired es es' path toAwait same hg =>
      have hrest := h.rest_of_bottom (by trivial)
      subst hrest
      have hg' : l'.guards id = some g := same.guards ▸ hg
      have ht : Lasting l [.reconcileDiff desired es toAwait] (l'.set id { g with retired := true })
          [.beginUnload id false, .forgetPath path, .reconcileDiff desired es' (toAwait ++ [id])] := by
        refine .set (x := { g with retired := true }) ?_ same.nextId hg (fun _ => rfl) (fun _ hi => hi)
          (by simp)
        funext j
        simp only [Ledger.set_guards, same.guards]
      refine ⟨?_, by simp [Frame.Bottom], ?_, ?_⟩
      · intro j y hy hr hp
        rw [Ledger.set_guards] at hy
        split at hy
        · next he => exact ⟨false, _, by rw [he]; rfl⟩
        · rw [same.guards] at hy
          exact absurd hp (not_or.mpr (h.clear (by simp) hy hr))
      · intro k hk
        simp only [List.append_nil, List.mem_cons, List.not_mem_nil, or_false] at hk
        rcases hk with rfl | rfl | rfl
        · exact .nil
        · exact .nil
        · intro i hi
          refine ⟨?_, .inl hi⟩
          rcases List.mem_append.mp hi with hi | hi
          · exact (ht i (h.head i hi).1).1
          · rw [List.mem_singleton.mp hi]
            refine ⟨Nat.lt_of_lt_of_le (ha.books.fresh id g hg) same.nextId, fun y hy => ?_⟩
            rw [Ledger.set_guards, if_pos rfl] at hy
            cases hy
            rfl
      · refine @waiters_set _ _ _ [] [_, _, _] _ _ { g with retired := true } h ht ?_ hg
          fun _ hw => hw
        funext j
        simp only [Ledger.set_guards, same.guards]
  | @keepEntry l' desired es es' toAwait fs same plain =>
      have hrest := h.rest_of_bottom (by trivial)
      subst hrest
      refine h.same_turn same (by simp) (older_of_inert ?_) ?_ fun ht k hk => ?_
      · intro k hk
        rcases List.mem_append.mp hk with hk | hk
        · exact (plain k hk).unloads
        · rw [List.mem_singleton.mp hk]; rfl
      · intro k hk
        rw [List.append_nil, List.dropLast_concat] at hk
        exact (plain k hk).not_bottom
      · rcases List.mem_append.mp hk with hk | hk
        · rw [(plain k hk).retired]
          exact .nil
        · rw [List.mem_singleton.mp hk]
          exact duty rfl rfl ht
  | diffDone =>
      exact h.same_turn (.refl _) (by simp) (older (by simp)) (h.bottom_push (by simp [Frame.Bottom]))
        fun ht k hk => by rw [List.mem_singleton.mp hk]; exact duty rfl rfl ht
  | awaitNext =>
      exact h.same_turn (.refl _) (by simp) (older (by simp)) (h.bottom_push (by simp [Frame.Bottom]))
        fun ht k hk => by rw [List.mem_singleton.mp hk]; exact duty rfl rfl ht
  | erasedAll =>
      exact h.shrink_turn (erased _) (by simp)
        (fun j y hy => h.clear_all (by simp) j y (erased _ j y hy)) (older (by simp))
        (h.bottom_push (by simp [Frame.Bottom]))
        fun _ k hk => by rw [List.mem_singleton.mp hk]; exact .nil

theorem unwound (h : Retirement l (f :: rest)) (t : Unwound l f l') : Retirement l' [] := by
  cases t with
  | @load id g names hg hp hr _ =>
      have ht : Lasting l (.evaluate id :: rest)
          { l.set id { g with phase := .loading, committed := names } with nextId := l.nextId + 1 } [] :=
        .set rfl (Nat.le_succ _) hg (fun h => h) (fun hr' => absurd hr' (by simp [hr])) (by simp)
      refine ⟨doomed_of_clear ?_, by simp, by simp, ?_⟩
      · intro j y hy hr'
        have hy' : (l.set id { g with phase := .loading, committed := names }).guards j = some y := hy
        rw [Ledger.set_guards] at hy'
        split at hy'
        · cases hy'
          simp [hr] at hr'
        · exact h.clear (by simp) hy' hr'
      · intro j y w hy hin
        have hy' : (l.set id { g with phase := .loading, committed := names }).guards j = some y := hy
        rw [Ledger.set_guards] at hy'
        split at hy'
        · next he =>
            cases hy'
            exact he ▸ (h.waiters id g w hg hin).lasts ht
        · exact (h.waiters j y w hy' hin).lasts ht

/-- A handler starts: no retired fiber is loading or active, and the new calls owe nothing yet. -/
theorem enter (h : Retirement l []) (ht : Lasting l [] l' fs)
    (doomed : ∀ j g, l'.guards j = some g → g.retired = true → (g.phase = .active ∨ g.phase = .loading) →
      ∃ b rest, fs = .beginUnload j b :: rest)
    (bottom : ∀ k ∈ fs.dropLast, ¬ k.Bottom)
    (calls : ∀ k ∈ fs, ∀ i ∈ k.retired, l'.Condemned i ∧ i ∈ k.awaiting)
    (waiters : ∀ j y w, l'.guards j = some y → w ∈ y.done.waiters →
      ∃ g, l.guards j = some g ∧ w ∈ g.done.waiters) : Retirement l' (fs ++ []) := by
  rw [List.append_nil]
  refine ⟨doomed, bottom, fun k hk i hi => ⟨(calls k hk i hi).1, .inl (calls k hk i hi).2⟩, ?_⟩
  intro j y w hy hin
  obtain ⟨g, hg, hw⟩ := waiters j y w hy hin
  exact (h.waiters j g w hg hw).lasts ht

/-- A fiber is marked as retired and its unload begins. -/
theorem enter_retire (h : Retirement l []) (ha : Accounts l []) (hg : l.guards id = some g) {k : Frame}
    (hk : k.retired = [id]) (hw : id ∈ k.awaiting) (hu : k.unloads = none) :
    Retirement (l.set id { g with retired := true }) ([.beginUnload id false, k] ++ []) := by
  have condemned : (l.set id { g with retired := true }).Condemned id := by
    refine ⟨ha.books.fresh id g hg, fun y hy => ?_⟩
    rw [Ledger.set_guards, if_pos rfl] at hy
    cases hy
    rfl
  refine h.enter (.set rfl (Nat.le_refl _) hg (fun _ => rfl) (fun _ hi => hi) ?_) ?_ (by simp [Frame.Bottom])
    ?_ ?_
  · intro i es hin _
    simp only [List.mem_cons, List.not_mem_nil, or_false, reduceCtorEq, false_or] at hin
    rw [← hin] at hu
    cases hu
  · intro j y hy hr hp
    rw [Ledger.set_guards] at hy
    split at hy
    · next he => exact ⟨false, _, by rw [he]⟩
    · exact absurd hp (not_or.mpr (h.clear_of_empty j y hy hr))
  · intro c hc i hi
    simp only [List.mem_cons, List.not_mem_nil, or_false] at hc
    rcases hc with rfl | rfl
    · cases hi
    · rw [hk] at hi
      rw [List.mem_singleton.mp hi]
      exact ⟨condemned, hw⟩
  · intro j y w hy hin
    rw [Ledger.set_guards] at hy
    split at hy
    · next he =>
        cases hy
        exact ⟨g, he ▸ hg, hin⟩
    · exact ⟨y, hy, hin⟩

theorem entry {pub : FiberId → Option String → Prop} {o : Op} (h : Retirement l st)
    (ha : Accounts l st) (hst : st = [] ∨ o.nested = true) (t : Entry pub l o l' fs) :
    Retirement l' (fs ++ st) := by
  have atop : o.nested = false → st = [] := fun hn => hst.resolve_right (by simp [hn])
  have plain_new : ∀ {fs : List Frame}, (∀ k ∈ fs, k.Plain) →
      ∀ k ∈ fs, ∀ i ∈ k.retired, l'.Condemned i ∧ i ∈ k.awaiting := by
    intro fs plain k hk i hi
    rw [(plain k hk).retired] at hi
    cases hi
  have plain_bottom : ∀ {fs : List Frame}, (∀ k ∈ fs, k.Plain) → ∀ k ∈ fs.dropLast, ¬ k.Bottom :=
    fun plain k hk => (plain k ((List.dropLast_sublist _).subset hk)).not_bottom
  have unreleased : ∀ {fs : List Frame}, (∀ k ∈ fs, k.unloads = none) → ∀ i es,
      .releaseProviders i es ∈ fs → ∃ es', .releaseProviders i es' ∈ ([] : List Frame) :=
    fun inert i es hin => nomatch inert _ hin
  cases t with
  | quiet same plain quiet =>
      have sub : ∀ i y, l'.guards i = some y → l.guards i = some y := fun i y hy => same.guards ▸ hy
      rcases hst with rfl | hn
      · exact h.enter (.shrink sub same.nextId (unreleased fun k hk => (plain k hk).unloads))
          (doomed_of_clear fun j y hy => h.clear_of_empty j y (sub j y hy)) (plain_bottom plain)
          (plain_new plain) fun j y w hy hin => ⟨y, sub j y hy, hin⟩
      · rw [quiet hn]
        have ht : Lasting l st l' st := .shrink sub same.nextId fun i es hin => ⟨es, hin⟩
        exact ⟨fun j y hy => h.doomed j y (sub j y hy), h.bottom, fun k hk => (h.calls k hk).lasts ht,
          fun j y w hy hin => (h.waiters j y w (sub j y hy) hin).lasts ht⟩
  | mounted hn plain =>
      cases atop hn
      have lookup : ∀ {j : FiberId} {y : Guard},
          (l.set l.nextId {}).guards j = some y → y = {} ∨ l.guards j = some y := by
        intro j y hy
        rw [Ledger.set_guards] at hy
        split at hy
        · cases hy; exact .inl rfl
        · exact .inr hy
      refine h.enter ?_ (doomed_of_clear ?_) (plain_bottom plain) (plain_new plain) ?_
      · intro i hc
        have old : ∀ y, (l.set l.nextId {}).guards i = some y → l.guards i = some y := by
          intro y hy
          rwa [Ledger.set_guards, if_neg (Nat.ne_of_lt hc.1)] at hy
        refine ⟨⟨Nat.lt_succ_of_lt hc.1, fun y hy => hc.2 y (old y hy)⟩, fun hs y hy => ?_⟩
        exact ⟨(hs y (old y hy)).1, fun es hin => nomatch (plain _ hin).unloads⟩
      · intro j y hy hr
        rcases lookup hy with rfl | hy
        · cases hr
        · exact h.clear_of_empty j y hy hr
      · intro j y w hy hin
        rcases lookup hy with rfl | hy
        · cases hin
        · exact ⟨y, hy, hin⟩
  | @retireInactive id g hg hp =>
      cases atop rfl
      have sub : ∀ i y, (l.erase id).guards i = some y → l.guards i = some y := by
        intro i y hy
        rw [Ledger.erase_guards] at hy
        split at hy
        · cases hy
        · exact hy
      exact h.enter (.shrink sub (Nat.le_refl _) (by simp))
        (doomed_of_clear fun j y hy => h.clear_of_empty j y (sub j y hy)) (by simp) (by simp)
        fun j y w hy hin => ⟨y, sub j y hy, hin⟩
  | @retire id g hg =>
      cases atop rfl
      exact h.enter_retire ha hg rfl List.mem_cons_self rfl
  | @retireChild n id g hg =>
      cases atop rfl
      exact h.enter_retire ha hg rfl List.mem_cons_self rfl
  | reconcile =>
      cases atop rfl
      exact h.enter (.shrink (fun _ _ hy => hy) (Nat.le_refl _) (by simp))
        (doomed_of_clear h.clear_of_empty) (by simp) (by simp [Frame.retired])
        fun j y w hy hin => ⟨y, hy, hin⟩
  | @ignored id ep hin =>
      cases atop rfl
      exact h.enter (.shrink (fun _ _ hy => hy) (Nat.le_refl _) (by simp))
        (doomed_of_clear h.clear_of_empty) (by simp) (by simp) fun j y w hy hin => ⟨y, hy, hin⟩
  | @dropped id ep g fs hin hg plain =>
      cases atop rfl
      refine h.enter (.set (x := g.parked) rfl (Nat.le_refl _) hg (fun h => h) (fun _ _ => rfl) ?_)
        (doomed_of_clear ?_) ?_ ?_ ?_
      · intro i es hin _
        rcases List.mem_cons.mp hin with he | hin
        · cases he
        · exact nomatch (plain _ hin).unloads
      · intro j y hy hr
        have hy' : (l.set id g.parked).guards j = some y := hy
        rw [Ledger.set_guards] at hy'
        split at hy'
        · cases hy'
          simp [Guard.parked]
        · exact h.clear_of_empty j y hy' hr
      · intro k hk
        rcases List.mem_cons.mp ((List.dropLast_sublist _).subset hk) with rfl | hk
        · exact fun hb => hb
        · exact (plain k hk).not_bottom
      · intro k hk i hi
        rcases List.mem_cons.mp hk with rfl | hk
        · cases hi
        · rw [(plain k hk).retired] at hi
          cases hi
      · intro j y w hy hin
        have hy' : (l.set id g.parked).guards j = some y := hy
        rw [Ledger.set_guards] at hy'
        split at hy'
        · next he =>
            cases hy'
            exact ⟨g, he ▸ hg, hin⟩
        · exact ⟨y, hy', hin⟩
  | @published id ep g fs hin hg hp hpub plain =>
      cases atop rfl
      have live : g.retired = false := Bool.eq_false_iff.mpr fun hr => (h.clear_of_empty id g hg hr).2 hp
      have lookup : ∀ {j : FiberId} {y : Guard},
          ((l.set id { g with phase := .active }).enroll id (g.committed.toList.map Prod.snd)).guards j =
            some y → ∃ d, l.guards j = some d ∧ y.retired = d.retired ∧ y.done = d.done ∧
              (d.retired = true → y.phase = d.phase) := by
        intro j y hy
        obtain ⟨d, hd, rfl⟩ := Option.map_eq_some_iff.mp hy
        rw [Ledger.set_guards] at hd
        split at hd
        · next he =>
            cases hd
            refine ⟨g, he ▸ hg, ?_, ?_, fun hr => absurd hr (by simp [live])⟩ <;> split <;> rfl
        · refine ⟨d, hd, ?_, ?_, fun _ => ?_⟩ <;> split <;> rfl
      refine h.enter ?_ (doomed_of_clear ?_) (plain_bottom plain) (plain_new plain) ?_
      · intro i hc
        constructor
        · refine ⟨hc.1, fun y hy => ?_⟩
          obtain ⟨d, hd, hr, _⟩ := lookup hy
          rw [hr]
          exact hc.2 d hd
        · intro hs y hy
          obtain ⟨d, hd, hr, _, hph⟩ := lookup hy
          exact ⟨(hph (hc.2 d hd)).trans (hs d hd).1, fun es hin => nomatch (plain _ hin).unloads⟩
      · intro j y hy hr
        obtain ⟨d, hd, hr', _, hph⟩ := lookup hy
        rw [hr'] at hr
        rw [hph hr]
        exact h.clear_of_empty j d hd hr
      · intro j y w hy hin
        obtain ⟨d, hd, _, hdone, _⟩ := lookup hy
        exact ⟨d, hd, hdone ▸ hin⟩

end Retirement
end Araya

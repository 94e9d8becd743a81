import Araya.Runtime.Consumers
import Araya.Runtime.Records

/-!
What the runtime waits for. A loading fiber has one outstanding apply; a fiber
that unloads has one as well, or the call that ends its unload is pending, or it
waits for consumers that unload too; and only a fiber that unloads, or is about
to open its gate, keeps it closed. Unlike the accounts this asks of a run only
that no call is lost, that no fiber is loaded over an outstanding apply, and
that only inactive fibers are erased.
-/

namespace Araya

/-- What a frame has achieved once it ran. -/
structure Frame.Achieves (f : Frame) (l : Ledger) (fs : List Frame) : Prop where
  stops : ∀ id g, f = .requestStop id → l.guards id = some g → .maybeFinishUnload id ∈ fs
  settles : ∀ id g, f = .maybeFinishUnload id → l.guards id = some g → g.Unloading → g.remaining ≠ 0
  opens : ∀ id g, f = .openDone id → l.guards id = some g → g.done.isOpen = true

namespace Frame.Achieves
variable {l : Ledger} {fs : List Frame} {id : FiberId}

theorem stop (h : .maybeFinishUnload id ∈ fs ∨ l.guards id = none) : (Frame.requestStop id).Achieves l fs where
  stops j g hf hg := by
    cases hf
    exact h.resolve_right (by simp [hg])
  settles _ _ hf := by cases hf
  opens _ _ hf := by cases hf

theorem finish (h : ∀ g, l.guards id = some g → g.Unloading → g.remaining ≠ 0) :
    (Frame.maybeFinishUnload id).Achieves l fs where
  stops _ _ hf := by cases hf
  settles j g hf hg := by
    cases hf
    exact h g hg
  opens _ _ hf := by cases hf

theorem openDone (h : ∀ g, l.guards id = some g → g.done.isOpen = true) : (Frame.openDone id).Achieves l fs where
  stops _ _ hf := by cases hf
  settles _ _ hf := by cases hf
  opens j g hf hg := by
    cases hf
    exact h g hg

end Frame.Achieves

/-- The applies, the pending calls and the gate that go with a guard. -/
structure Guard.Tidy (g : Guard) (applies : List FiberId) (st : List Frame) (id : FiberId) : Prop where
  applying : g.phase = .loading ∨ g.phase = .diverted → applies.count id = 1
  published : g.Published → applies.count id = 0
  due : g.phase = .withdrawing → g.remaining = 0 → .requestStop id ∈ st ∨ .maybeFinishUnload id ∈ st
  gate : g.done.isOpen = false → g.Unloading ∨ .openDone id ∈ st
  waiters : g.done.isOpen = true → g.done.waiters = []

def Tidy (l : Ledger) (st : List Frame) : Prop := ∀ j g, l.guards j = some g → g.Tidy l.applies st j

namespace Guard.Tidy
variable {g x : Guard} {applies : List FiberId} {st st' rest fs : List Frame} {f : Frame} {id : FiberId}

/-- A fiber without an activation is asked nothing but what its gate needs. -/
theorem of_inactive (hp : g.phase = .inactive) (gate : g.done.isOpen = false → .openDone id ∈ st)
    (waiters : g.done.isOpen = true → g.done.waiters = []) : g.Tidy applies st id where
  applying := by simp [hp]
  published h := by obtain h | h := h <;> simp [hp] at h
  due h := by simp [hp] at h
  gate h := .inr (gate h)
  waiters := waiters

theorem calls (h : g.Tidy applies st id) (sub : ∀ f ∈ st, f.unloads = some id → f ∈ st') : g.Tidy applies st' id where
  applying := h.applying
  published := h.published
  due hp hr := (h.due hp hr).imp (sub _ · rfl) (sub _ · rfl)
  gate hd := (h.gate hd).imp_right (sub _ · rfl)
  waiters := h.waiters

/-- A call that ran leaves what it achieved. -/
theorem advance (h : g.Tidy applies (f :: rest) id) (stops : f = .requestStop id → .maybeFinishUnload id ∈ fs)
    (settles : f = .maybeFinishUnload id → g.Unloading → g.remaining ≠ 0)
    (opens : f = .openDone id → g.done.isOpen = true) : g.Tidy applies (fs ++ rest) id where
  applying := h.applying
  published := h.published
  due hp hr := by
    obtain stop | finish := h.due hp hr
    · obtain here | below := List.mem_cons.mp stop
      · exact .inr (List.mem_append_left _ (stops here.symm))
      · exact .inl (List.mem_append_right _ below)
    · obtain here | below := List.mem_cons.mp finish
      · exact absurd hr (settles here.symm (.inl hp))
      · exact .inr (List.mem_append_right _ below)
  gate hd := by
    obtain unloading | opening := h.gate hd
    · exact .inl unloading
    · obtain here | below := List.mem_cons.mp opening
      · exact absurd (opens here.symm) (by simp [hd])
      · exact .inr (List.mem_append_right _ below)
  waiters := h.waiters

theorem openDone (h : g.Tidy applies st id) (hp : g.phase = .inactive) (hd : g.done.isOpen = false) :
    .openDone id ∈ st := by
  obtain unloading | opening := h.gate hd
  · obtain unloading | unloading := unloading <;> simp [hp] at unloading
  · exact opening

/-- The parts that are read are unchanged. -/
theorem congr (h : g.Tidy applies st id) (hp : x.phase = g.phase) (hr : x.remaining = g.remaining)
    (hd : x.done = g.done) : x.Tidy applies st id := by
  obtain ⟨phase, _, _, _, remaining, done⟩ := x
  cases hp
  cases hr
  cases hd
  exact ⟨h.applying, h.published, h.due, h.gate, h.waiters⟩

end Guard.Tidy

namespace Tidy
variable {l l' : Ledger} {f : Frame} {rest fs st st' : List Frame} {id : FiberId} {g x : Guard}

theorem same (h : Tidy l (f :: rest)) (hs : l.Same l') (achieves : f.Achieves l' fs) : Tidy l' (fs ++ rest) := by
  intro j y hy
  have before := h j y (hs.guards ▸ hy)
  rw [hs.applies]
  exact before.advance (achieves.stops j y · hy) (achieves.settles j y · hy) (achieves.opens j y · hy)

/-- One guard is rewritten, under a call that is not about another fiber's unload. -/
theorem set (h : Tidy l (f :: rest)) (hg : ∀ j, l'.guards j = if j = id then some x else l.guards j)
    (ha : ∀ j, j ≠ id → l'.applies.count j = l.applies.count j) (hf : ∀ j, f.unloads = some j → j = id)
    (own : x.Tidy l'.applies (fs ++ rest) id) : Tidy l' (fs ++ rest) := by
  intro j y hy
  rw [hg] at hy
  split at hy
  · next hj =>
      cases hy
      exact hj ▸ own
  · next hj =>
      have other := h j y hy
      have count := ha j hj
      refine Guard.Tidy.calls ⟨count ▸ other.applying, count ▸ other.published, other.due, other.gate,
        other.waiters⟩ fun k hk hu => ?_
      obtain rfl | hk := List.mem_cons.mp hk
      · exact absurd (hf j hu) hj
      · exact List.mem_append_right _ hk

theorem shrink (h : Tidy l (f :: rest)) (sub : ∀ j y, l'.guards j = some y → l.guards j = some y)
    (ha : l'.applies = l.applies) (hf : f.unloads = none) : Tidy l' (fs ++ rest) := by
  intro j y hy
  rw [ha]
  refine (h j y (sub j y hy)).calls fun k hk hu => ?_
  obtain rfl | hk := List.mem_cons.mp hk
  · exact absurd (hf.symm.trans hu) (by simp)
  · exact List.mem_append_right _ hk

/-- A turn keeps the guards tidy, where a load finds no apply outstanding. -/
theorem turn (h : Tidy l (f :: rest)) (t : Turn l f l' fs) (achieves : f.Achieves l' fs)
    (fresh : ∀ id, f = .evaluate id → l'.applies = id :: l.applies → l.applies.count id = 0) :
    Tidy l' (fs ++ rest) := by
  cases t with
  | quiet _ hs _ => exact h.same hs achieves
  | @load id g names hg hp hr _ =>
      have none := fresh id rfl rfl
      have own := h id g hg
      refine h.set (l.set_guards id · _) (fun j hj => List.count_cons_of_ne (Ne.symm hj)) (by simp [Frame.unloads]) ?_
      refine ⟨fun _ => ?_, ?_, by simp, fun hd => ?_, own.waiters⟩
      · exact (List.count_cons_self ..).trans (by rw [none])
      · rintro (published | published) <;> cases published
      · obtain unloading | opening := own.gate hd
        · obtain unloading | unloading := unloading <;> simp [hp] at unloading
        · obtain other | opening := List.mem_cons.mp opening
          · cases other
          · exact .inr (List.mem_append_right _ opening)
  | @lapse id g hg hp =>
      have own := h id g hg
      refine h.set (l.set_guards id · _) (fun _ _ => rfl) (by simp [Frame.unloads]) (.of_inactive rfl (fun hd => ?_) own.waiters)
      obtain other | opening := List.mem_cons.mp (own.openDone hp hd)
      · cases other
      · exact List.mem_append_right _ opening
  | passed _ | through _ | resumed | childWaits | diffDone | awaitNext | skip _ | stop =>
      exact h.same ⟨rfl, rfl, Nat.le_refl _⟩ achieves
  | @divert id b g hg hp =>
      have own := h id g hg
      refine h.set (l.set_guards id · _) (fun _ _ => rfl) (by simp [Frame.unloads]) ?_
      refine ⟨fun _ => own.applying (.inl hp), ?_, by simp, fun _ => .inl (.inr rfl), by simp [Gate.close]⟩
      rintro (published | published) <;> cases published
  | @leave id b g hg hp =>
      have own := h id g hg
      refine h.set (l.set_guards id · _) (fun _ _ => rfl) (by simp [Frame.unloads]) ?_
      refine ⟨by simp, fun _ => own.published (.inl hp), fun _ _ => .inl ?_, fun _ => .inl (.inl rfl),
        by simp [Gate.close]⟩
      exact List.mem_append_left _ (List.mem_append_right _ (List.mem_singleton.mpr rfl))
  | @finish id g fs hg hp hr _ =>
      have own := h id g hg
      refine h.set (l.set_guards id · _) (fun _ _ => rfl) (fun j hj => (Option.some.inj hj).symm) (.of_inactive rfl (fun _ => ?_) own.waiters)
      exact List.mem_append_left _ (List.mem_cons_of_mem _ List.mem_cons_self)
  | @release id e es p hp =>
      have own := h e.2 p hp
      intro j y hy
      rw [Ledger.set_guards] at hy
      split at hy
      · next hj =>
          cases hy
          subst hj
          refine ⟨own.applying, own.published, fun _ _ => .inr (List.mem_append_left _ List.mem_cons_self),
            fun hd => (own.gate hd).imp_right fun opening => ?_, own.waiters⟩
          obtain other | opening := List.mem_cons.mp opening
          · cases other
          · exact List.mem_append_right _ opening
      · exact (h j y hy).advance (by simp) (by simp) (by simp)
  | @opened id g hg =>
      have own := h id g hg
      refine h.set (l.set_guards id · _) (fun _ _ => rfl) (fun j hj => (Option.some.inj hj).symm) ?_
      refine ⟨own.applying, own.published, fun hp hr => ?_, by simp, fun _ => rfl⟩
      refine (own.due hp hr).imp (fun call => ?_) fun call => ?_
      all_goals
        obtain other | call := List.mem_cons.mp call
        · cases other
        · exact List.mem_append_right _ call
  | @waits id w g hg hd =>
      have own : g.Tidy l.applies ([] ++ rest) id := (h id g hg).advance (by simp) (by simp) (by simp)
      refine h.set (l.set_guards id · _) (fun _ _ => rfl) (by simp [Frame.unloads]) ?_
      exact ⟨own.applying, own.published, own.due, fun _ => own.gate hd, by simp [hd]⟩
  | erased _ | childErased _ _ =>
      refine h.shrink (fun j y hy => ?_) rfl rfl
      rw [Ledger.erase_guards] at hy
      split at hy
      · cases hy
      · exact hy
  | erasedAll =>
      refine h.shrink (fun j y hy => ?_) ?_ rfl
      · rw [Ledger.eraseAll_guards] at hy
        split at hy
        · cases hy
        · exact hy
      · exact Ledger.eraseAll_applies _ _
  | @dropEntry l' id g desired es es' path toAwait hs hg =>
      have guards (j : FiberId) : (l'.set id { g with retired := true }).guards j =
          if j = id then some { g with retired := true } else l.guards j := by
        rw [Ledger.set_guards, hs.guards]
      refine h.set guards (fun j _ => ?_) (by simp [Frame.unloads]) ?_
      · rw [Ledger.set_applies, hs.applies]
      · rw [Ledger.set_applies, hs.applies]
        have own := h id g hg
        have kept : ({ g with retired := true } : Guard).Tidy l.applies (_ :: rest) id := own.congr rfl rfl rfl
        exact kept.advance (by simp) (by simp) (by simp)
  | keepEntry hs _ => exact h.same hs achieves

/-- Fibers at most disappear, and calls are added. -/
theorem enter (h : Tidy l st) (sub : ∀ j y, l'.guards j = some y → l.guards j = some y)
    (ha : l'.applies = l.applies) : Tidy l' (fs ++ st) := by
  intro j y hy
  rw [ha]
  exact (h j y (sub j y hy)).calls fun _ hk _ => List.mem_append_right _ hk

theorem enter_set (h : Tidy l st) (hg : ∀ j, l'.guards j = if j = id then some x else l.guards j)
    (ha : ∀ j, j ≠ id → l'.applies.count j = l.applies.count j) (own : x.Tidy l'.applies (fs ++ st) id) :
    Tidy l' (fs ++ st) := by
  intro j y hy
  rw [hg] at hy
  split at hy
  · next hj =>
      cases hy
      exact hj ▸ own
  · next hj =>
      have other := h j y hy
      have count := ha j hj
      exact Guard.Tidy.calls ⟨count ▸ other.applying, count ▸ other.published, other.due, other.gate,
        other.waiters⟩ fun _ hk _ => List.mem_append_right _ hk

/-- An operation keeps the guards tidy; a completion leaves its fiber inactive or active. -/
theorem entry {pub : FiberId → Option String → Prop} {o : Op} (h : Tidy l st) (t : Entry pub l o l' fs)
    (completed : ∀ id ep, o = .complete id ep → ∀ g, l'.guards id = some g → g.phase = .inactive ∨ g.phase = .active) :
    Tidy l' (fs ++ st) := by
  cases t with
  | quiet hs _ _ => exact h.enter (fun _ _ hy => hs.guards ▸ hy) hs.applies
  | mounted _ _ => exact h.enter_set (l.set_guards _ · _) (fun _ _ => rfl) (.of_inactive rfl (by simp) fun _ => rfl)
  | retireInactive _ _ =>
      refine h.enter (fun j y hy => ?_) rfl
      rw [Ledger.erase_guards] at hy
      split at hy
      · cases hy
      · exact hy
  | @retire id g hg | @retireChild _ id g hg =>
      refine h.enter_set (l.set_guards _ · _) (fun _ _ => rfl) ?_
      have own := h id g hg
      have kept : ({ g with retired := true } : Guard).Tidy l.applies st id := own.congr rfl rfl rfl
      exact kept.calls fun _ hk _ => List.mem_append_right _ hk
  | reconcile => exact h.enter (fun _ _ hy => hy) rfl
  | @ignored id ep hin =>
      intro j y hy
      have own := h j y hy
      by_cases hj : j = id
      · subst hj
        obtain inactive | active := completed j ep rfl y hy
        · exact .of_inactive inactive (own.openDone inactive) own.waiters
        · exact absurd (own.published (.inl active)) (List.count_pos_iff.mpr hin).ne'
      · have count : (l.applies.erase id).count j = l.applies.count j := List.count_erase_of_ne hj
        exact ⟨count ▸ own.applying, count ▸ own.published, own.due, own.gate, own.waiters⟩
  | @dropped id ep g fs hin hg _ =>
      refine h.enter_set (l.set_guards _ · _) (fun j hj => List.count_erase_of_ne hj) ?_
      exact .of_inactive rfl (fun _ => List.mem_append_left _ List.mem_cons_self) (h id g hg).waiters
  | @published id ep g fs hin hg hp _ _ =>
      have own := h id g hg
      have set : Tidy { l.set id { g with phase := .active } with applies := l.applies.erase id } (fs ++ st) := by
        refine h.enter_set (l.set_guards _ · _) (fun j hj => List.count_erase_of_ne hj) ?_
        refine ⟨by simp, fun _ => ?_, by simp, fun hd => ?_, own.waiters⟩
        · exact (List.count_erase_self ..).trans (by rw [own.applying (.inl hp)])
        · obtain unloading | opening := own.gate hd
          · obtain unloading | unloading := unloading <;> simp [hp] at unloading
          · exact .inr (List.mem_append_right _ opening)
      intro j y hy
      obtain ⟨z, hz, rfl⟩ := Option.map_eq_some_iff.mp hy
      have kept := set j z hz
      split
      · exact kept.congr rfl rfl rfl
      · exact kept

end Tidy
/-! Consumers that leave -/

/-- The consumer unloads, or its unload or its release of the provider is pending. -/
def Leaving (l : Ledger) (st : List Frame) (c p : FiberId) : Prop :=
  (∃ g, l.guards c = some g ∧ (g.phase = .withdrawing ∨ g.phase = .active ∧ ∃ b, .beginUnload c b ∈ st)) ∨
    Releasing st c p

/-- The counter is no larger than the number of consumers that leave. -/
def Guard.Waits (g : Guard) (l : Ledger) (st : List Frame) (p : FiberId) : Prop :=
  ∃ cs : List FiberId, cs.Nodup ∧ g.remaining ≤ cs.length ∧ ∀ c ∈ cs, c ∈ g.consumers ∧ Leaving l st c p

/-- A registered consumer that is mounted names the provider, or its release is
pending; and a fiber that withdraws waits for no more fibers than leave. -/
structure Enlisted (l : Ledger) (st : List Frame) : Prop where
  drawn : ∀ p d c, l.guards p = some d → c ∈ d.consumers → c < l.nextId
  named : ∀ p d c g, l.guards p = some d → c ∈ d.consumers → l.guards c = some g →
    (g.Published ∧ g.Names p) ∨ Releasing st c p
  waits : ∀ p d, l.guards p = some d → d.phase = .withdrawing → d.Waits l st p

namespace Enlisted
variable {l l' : Ledger} {f : Frame} {rest fs st st' : List Frame} {id : FiberId} {g x : Guard}

/-- The consumer sets are kept, and so is what is known of each consumer. -/
theorem step (h : Enlisted l st) (hn : l.nextId ≤ l'.nextId)
    (kept : ∀ p y, l'.guards p = some y → y.consumers = ∅ ∧ y.phase = .inactive ∨
      ∃ d, l.guards p = some d ∧ y.consumers = d.consumers ∧
        (y.phase = .withdrawing → d.phase = .withdrawing ∧ y.remaining = d.remaining ∨ y.Waits l' st' p))
    (named : ∀ c p y d, c < l.nextId → l'.guards c = some y → l'.guards p = some d →
      ∃ g, l.guards c = some g ∧ (g.Published ∧ g.Names p → (y.Published ∧ y.Names p) ∨ Releasing st' c p))
    (released : ∀ c p d, l'.guards p = some d → Releasing st c p → Releasing st' c p)
    (leaving : ∀ c p d, l.guards p = some d → l'.guards p ≠ none → c ∈ d.consumers → Leaving l st c p →
      Leaving l' st' c p) : Enlisted l' st' where
  drawn := by
    intro p y c hy hc
    obtain ⟨none, _⟩ | ⟨d, hd, same, _⟩ := kept p y hy
    · exact absurd (none ▸ hc) (SortedSet.not_mem_empty c)
    · exact Nat.lt_of_lt_of_le (h.drawn p d c hd (same ▸ hc)) hn
  named := by
    intro p y c z hy hc hz
    obtain ⟨none, _⟩ | ⟨d, hd, same, _⟩ := kept p y hy
    · exact absurd (none ▸ hc) (SortedSet.not_mem_empty c)
    · have hcd := same ▸ hc
      obtain ⟨g, hg, hnamed⟩ := named c p z y (h.drawn p d c hd hcd) hz hy
      exact (h.named p d c g hd hcd hg).elim hnamed fun r => .inr (released c p y hy r)
  waits := by
    intro p y hy hw
    obtain ⟨_, none⟩ | ⟨d, hd, same, counted⟩ := kept p y hy
    · exact absurd (none.symm.trans hw) (by simp)
    · obtain ⟨withdrawing, remaining⟩ | waits := counted hw
      · obtain ⟨cs, nodup, enough, all⟩ := h.waits p d hd withdrawing
        refine ⟨cs, nodup, remaining ▸ enough, fun c hc => ?_⟩
        obtain ⟨member, leaves⟩ := all c hc
        exact ⟨same ▸ member, leaving c p d hd (by simp [hy]) member leaves⟩
      · exact waits

/-- A call that neither releases nor unloads: what the consumers are about is
kept, and fibers that disappear were inactive. -/
theorem calm (h : Enlisted l st) (hn : l.nextId ≤ l'.nextId)
    (released : ∀ c p d, l'.guards p = some d → Releasing st c p → Releasing st' c p)
    (calls : ∀ c b g, l.guards c = some g → g.phase = .active → .beginUnload c b ∈ st → .beginUnload c b ∈ st')
    (kept : ∀ j y, l'.guards j = some y → ∃ g, l.guards j = some g ∧ y.phase = g.phase ∧
      y.committed = g.committed ∧ y.consumers = g.consumers ∧ y.remaining = g.remaining)
    (gone : ∀ j g, l.guards j = some g → l'.guards j = none → g.phase = .inactive) : Enlisted l' st' := by
  refine h.step hn (fun p y hy => ?_) (fun c p y d _ hy _ => ?_) released fun c p d hd there hc leaves => ?_
  · obtain ⟨g, hg, phase, _, consumers, remaining⟩ := kept p y hy
    exact .inr ⟨g, hg, consumers, fun hw => .inl ⟨phase ▸ hw, remaining⟩⟩
  · obtain ⟨g, hg, phase, committed, _⟩ := kept c y hy
    refine ⟨g, hg, fun both => .inl ⟨?_, ?_⟩⟩
    · unfold Guard.Published
      rw [phase]
      exact both.1
    · obtain ⟨k, hk⟩ := both.2
      exact ⟨k, committed.symm ▸ hk⟩
  · obtain ⟨g, hg, running⟩ | r := leaves
    · cases hy : l'.guards c with
      | none =>
          have inactive := gone c g hg hy
          obtain withdrawing | ⟨active, _⟩ := running
          · exact absurd (inactive.symm.trans withdrawing) (by simp)
          · exact absurd (inactive.symm.trans active) (by simp)
      | some y =>
          obtain ⟨z, hz, phase, _⟩ := kept c y hy
          cases hg.symm.trans hz
          refine .inl ⟨y, hy, ?_⟩
          obtain withdrawing | ⟨active, b, call⟩ := running
          · exact .inl (phase.trans withdrawing)
          · exact .inr ⟨phase.trans active, b, calls c b g hg active call⟩
    · obtain ⟨y, hy⟩ := Option.ne_none_iff_exists'.mp there
      exact .inr (released c p y hy r)

/-- One guard is rewritten, its consumers staying as they are. -/
theorem set (h : Enlisted l st) (hn : l.nextId ≤ l'.nextId) (hg : l.guards id = some g)
    (hl : ∀ j, l'.guards j = if j = id then some x else l.guards j) (consumers : x.consumers = g.consumers)
    (counted : x.phase = .withdrawing → g.phase = .withdrawing ∧ x.remaining = g.remaining ∨ x.Waits l' st' id)
    (named : ∀ p, g.Published ∧ g.Names p → (x.Published ∧ x.Names p) ∨ Releasing st' id p)
    (released : ∀ c p d, l'.guards p = some d → Releasing st c p → Releasing st' c p)
    (calls : ∀ c b, c ≠ id → .beginUnload c b ∈ st → .beginUnload c b ∈ st')
    (own : ∀ p d, l.guards p = some d → id ∈ d.consumers → g.phase = .withdrawing ∨ g.phase = .active →
      Leaving l' st' id p) : Enlisted l' st' := by
  refine h.step hn (fun p y hy => ?_) (fun c p y d _ hy _ => ?_) released fun c p d hd there hc leaves => ?_
  · rw [hl] at hy
    split at hy
    · next hp =>
        cases hy
        exact .inr ⟨g, hp ▸ hg, consumers, fun hw => hp ▸ counted hw⟩
    · exact .inr ⟨y, hy, rfl, fun hw => .inl ⟨hw, rfl⟩⟩
  · rw [hl] at hy
    split at hy
    · next hc =>
        cases hy
        exact ⟨g, hc ▸ hg, hc ▸ named p⟩
    · exact ⟨y, hy, .inl⟩
  · obtain ⟨y, hy, running⟩ | r := leaves
    · by_cases hid : c = id
      · subst hid
        cases hg.symm.trans hy
        exact own p d hd hc (running.imp_right (·.1))
      · refine .inl ⟨y, by rw [hl, if_neg hid, hy], running.imp_right fun active => ⟨active.1, ?_⟩⟩
        obtain ⟨b, call⟩ := active.2
        exact ⟨b, calls c b hid call⟩
    · obtain ⟨y, hy⟩ := Option.ne_none_iff_exists'.mp there
      exact .inr (released c p y hy r)

/-- No guard differs, and no call that matters is lost. -/
theorem still (h : Enlisted l st) (hg : l'.guards = l.guards) (hn : l.nextId ≤ l'.nextId)
    (released : ∀ c p d, l'.guards p = some d → Releasing st c p → Releasing st' c p)
    (calls : ∀ c b g, l.guards c = some g → g.phase = .active → .beginUnload c b ∈ st → .beginUnload c b ∈ st') :
    Enlisted l' st' := by
  refine h.calm hn released calls (fun j y hy => ⟨y, hg ▸ hy, rfl, rfl, rfl, rfl⟩) fun j g hj none => ?_
  rw [hg, hj] at none
  cases none

theorem calls_push (hf : ∀ c b, f ≠ .beginUnload c b) {c : FiberId} {b : Bool}
    (h : .beginUnload c b ∈ f :: rest) : .beginUnload c b ∈ fs ++ rest := by
  obtain here | below := List.mem_cons.mp h
  · exact absurd here.symm (hf c b)
  · exact List.mem_append_right _ below

theorem erase (h : Enlisted l st) (inactive : ∀ g, l.guards id = some g → g.phase = .inactive)
    (released : ∀ c p d, (l.erase id).guards p = some d → Releasing st c p → Releasing st' c p)
    (calls : ∀ c b g, l.guards c = some g → g.phase = .active → .beginUnload c b ∈ st → .beginUnload c b ∈ st') :
    Enlisted (l.erase id) st' := by
  refine h.calm (Nat.le_refl _) released calls (fun j y hy => ?_) fun j g hg none => ?_
  · rw [Ledger.erase_guards] at hy
    split at hy
    · cases hy
    · exact ⟨y, hy, rfl, rfl, rfl, rfl⟩
  · rw [Ledger.erase_guards] at none
    split at none
    · next hj => exact inactive g (hj ▸ hg)
    · rw [hg] at none
      cases none

/-- A guard is rewritten in what the registrations do not read. -/
theorem set_alike (h : Enlisted l st) (hn : l.nextId ≤ l'.nextId) (hg : l.guards id = some g)
    (hl : ∀ j, l'.guards j = if j = id then some x else l.guards j) (phase : x.phase = g.phase)
    (committed : x.committed = g.committed) (consumers : x.consumers = g.consumers)
    (remaining : x.remaining = g.remaining)
    (released : ∀ c p d, l'.guards p = some d → Releasing st c p → Releasing st' c p)
    (calls : ∀ c b g, l.guards c = some g → g.phase = .active → .beginUnload c b ∈ st → .beginUnload c b ∈ st') :
    Enlisted l' st' := by
  refine h.calm hn released calls (fun j y hy => ?_) fun j y hy none => ?_
  · rw [hl] at hy
    split at hy
    · next hj =>
        cases hy
        exact ⟨g, hj ▸ hg, phase, committed, consumers, remaining⟩
    · exact ⟨y, hy, rfl, rfl, rfl, rfl⟩
  · rw [hl] at none
    split at none
    · cases none
    · rw [hy] at none
      cases none

/-- A release takes the consumer off the set and one off the counter. -/
theorem release {e : ServiceId × FiberId} {es : List (ServiceId × FiberId)}
    (h : Enlisted l (.releaseProviders id (e :: es) :: rest)) (hp : l.guards e.2 = some g) :
    Enlisted (l.set e.2 (g.released id)) ([.maybeFinishUnload e.2, .releaseProviders id es] ++ rest) := by
  have released : ∀ c p, Releasing (.releaseProviders id (e :: es) :: rest) c p → (c = id ∧ p = e.2) ∨
      Releasing ([.maybeFinishUnload e.2, .releaseProviders id es] ++ rest) c p := by
    rintro c p ⟨ds, hin, d, hd, rfl⟩
    obtain here | below := List.mem_cons.mp hin
    · cases here
      obtain rfl | later := List.mem_cons.mp hd
      · exact .inl ⟨rfl, rfl⟩
      · exact .inr ⟨es, by simp, d, later, rfl⟩
    · exact .inr ⟨ds, List.mem_append_right _ below, d, hd, rfl⟩
  have found : ∀ c z, l.guards c = some z → ∃ y, (l.set e.2 (g.released id)).guards c = some y ∧
      y.phase = z.phase ∧ y.committed = z.committed := by
    intro c z hz
    rw [Ledger.set_guards]
    split
    · next hc =>
        subst hc
        cases hp.symm.trans hz
        exact ⟨_, rfl, rfl, rfl⟩
    · exact ⟨z, hz, rfl, rfl⟩
  have before : ∀ p y, (l.set e.2 (g.released id)).guards p = some y → ∃ d, l.guards p = some d ∧
      y.phase = d.phase ∧ y.committed = d.committed ∧ ∀ c ∈ y.consumers, c ∈ d.consumers ∧ (p = e.2 → c ≠ id) := by
    intro p y hy
    rw [Ledger.set_guards] at hy
    split at hy
    · next hpe =>
        cases hy
        refine ⟨g, hpe ▸ hp, rfl, rfl, fun c hc => ?_⟩
        have member := SortedSet.mem_erase.mp hc
        exact ⟨member.2, fun _ => member.1⟩
    · next hpe => exact ⟨y, hy, rfl, rfl, fun c hc => ⟨hc, fun same => absurd same hpe⟩⟩
  have leaving : ∀ c p, (p = e.2 → c ≠ id) → Leaving l (.releaseProviders id (e :: es) :: rest) c p →
      Leaving (l.set e.2 (g.released id)) ([.maybeFinishUnload e.2, .releaseProviders id es] ++ rest) c p := by
    intro c p other leaves
    obtain ⟨z, hz, running⟩ | r := leaves
    · obtain ⟨y, hy, phase, _⟩ := found c z hz
      refine .inl ⟨y, hy, running.imp phase.trans fun active => ⟨phase.trans active.1, ?_⟩⟩
      obtain ⟨b, call⟩ := active.2
      exact ⟨b, calls_push (by simp) call⟩
    · obtain ⟨rfl, rfl⟩ | r := released c p r
      · exact absurd rfl (other rfl)
      · exact .inr r
  constructor
  · intro p y c hy hc
    obtain ⟨d, hd, _, _, sub⟩ := before p y hy
    exact h.drawn p d c hd (sub c hc).1
  · intro p y c z hy hc hz
    obtain ⟨d, hd, _, _, sub⟩ := before p y hy
    obtain ⟨w, hw, phase, committed, _⟩ := before c z hz
    obtain ⟨published, k, hk⟩ | r := h.named p d c w hd (sub c hc).1 hw
    · refine .inl ⟨?_, k, committed.symm ▸ hk⟩
      unfold Guard.Published
      rw [phase]
      exact published
    · obtain ⟨rfl, rfl⟩ | r := released c p r
      · exact absurd rfl ((sub c hc).2 rfl)
      · exact .inr r
  · intro p y hy hw
    rw [Ledger.set_guards] at hy
    split at hy
    · next hpe =>
        cases hy
        obtain ⟨cs, nodup, enough, all⟩ := h.waits e.2 g hp hw
        refine ⟨cs.erase id, nodup.erase id, ?_, fun c hc => ?_⟩
        · have counted : g.remaining - 1 ≤ cs.length - 1 := Nat.sub_le_sub_right enough 1
          rw [List.length_erase]
          split
          · exact counted
          · exact Nat.le_trans counted (Nat.sub_le _ _)
        · obtain ⟨ne, member⟩ := (nodup.mem_erase_iff).mp hc
          obtain ⟨registered, leaves⟩ := all c member
          exact ⟨SortedSet.mem_erase.mpr ⟨ne, registered⟩, leaving c p (fun _ => ne) (hpe ▸ leaves)⟩
    · next hpe =>
        obtain ⟨cs, nodup, enough, all⟩ := h.waits p y hy hw
        refine ⟨cs, nodup, enough, fun c hc => ?_⟩
        obtain ⟨registered, leaves⟩ := all c hc
        exact ⟨registered, leaving c p (fun same => absurd same hpe) leaves⟩

/-- A turn keeps the registrations, where only inactive fibers are erased. -/
theorem turn (h : Enlisted l (f :: rest)) (t : Turn l f l' fs)
    (erases : ∀ j g, j ∈ f.erases → l.guards j = some g → g.phase = .inactive) : Enlisted l' (fs ++ rest) := by
  have pushed (hf : ∀ c e es, f ≠ .releaseProviders c (e :: es)) : ∀ c p d, l'.guards p = some d →
      Releasing (f :: rest) c p → Releasing (fs ++ rest) c p := fun _ _ _ _ r => Consumers.releasing_push hf r
  have called (hf : ∀ c b, f ≠ .beginUnload c b) : ∀ c b g, l.guards c = some g → g.phase = .active →
      .beginUnload c b ∈ f :: rest → .beginUnload c b ∈ fs ++ rest := fun c b _ _ _ call => calls_push hf call
  cases t with
  | quiet light hs _ =>
      refine h.still hs.guards hs.nextId (pushed fun c e es hf => ?_) (called fun c b hf => ?_) <;>
        exact absurd light (by simp [hf, Frame.Light])
  | load hg hp _ _ | lapse hg hp =>
      refine h.set (Nat.le_succ _) hg (l.set_guards _ · _) rfl (by simp [Guard.parked]) (fun p both => ?_)
        (pushed (by simp)) (fun c b _ call => calls_push (by simp) call) fun p d _ _ running => ?_
      · obtain ⟨active | withdrawing, _⟩ := both
        · simp [hp] at active
        · simp [hp] at withdrawing
      · simp [hp] at running
  | passed idle =>
      refine h.still rfl (Nat.le_refl _) (pushed (by simp)) fun c b g hg active call => ?_
      obtain here | below := List.mem_cons.mp call
      · cases here
        exact absurd active (idle g hg).2
      · exact below
  | @divert id b g hg hp =>
      refine h.set (Nat.le_refl _) hg (l.set_guards _ · _) rfl (by simp) (fun p both => ?_) (pushed (by simp))
        (fun c b ne call => ?_) fun p d _ _ running => ?_
      · obtain ⟨active | withdrawing, _⟩ := both
        · simp [hp] at active
        · simp [hp] at withdrawing
      · obtain here | below := List.mem_cons.mp call
        · cases here
          exact absurd rfl ne
        · exact below
      · simp [hp] at running
  | @leave id b g hg hp =>
      refine h.set (Nat.le_refl _) hg (l.set_guards _ · _) rfl (fun _ => .inr ?_) (fun p both => .inl ⟨.inr rfl, both.2⟩)
        (pushed (by simp)) (fun c b ne call => ?_) fun p d _ _ _ => ?_
      · refine ⟨g.consumers.toList.filter _, g.consumers.nodup.filter _, Nat.le_refl _, fun c hc => ?_⟩
        obtain ⟨member, installed⟩ := List.mem_filter.mp hc
        refine ⟨member, ?_⟩
        obtain ⟨phase, hphase, ne⟩ := (Option.any_eq_true _ _).mp installed
        obtain ⟨z, hz, rfl⟩ := Option.map_eq_some_iff.mp hphase
        obtain ⟨published, _⟩ | r := h.named id g c z hg member hz
        · by_cases hc' : c = id
          · exact .inl ⟨_, by rw [Ledger.set_guards, if_pos hc'], .inl rfl⟩
          · refine .inl ⟨z, by rw [Ledger.set_guards, if_neg hc', hz], ?_⟩
            obtain active | withdrawing := published
            · refine .inr ⟨active, true, List.mem_append_left _ (List.mem_append_left _ ?_)⟩
              exact List.mem_map.mpr ⟨c, member, rfl⟩
            · exact .inl withdrawing
        · exact .inr (Consumers.releasing_push (by simp) r)
      · obtain here | below := List.mem_cons.mp call
        · cases here
          exact absurd rfl ne
        · exact List.mem_append_right _ below
      · exact .inl ⟨_, by rw [Ledger.set_guards, if_pos rfl], .inl rfl⟩
  | stop => exact h.still rfl (Nat.le_refl _) (pushed (by simp)) (called (by simp))
  | @finish id g fs hg hp hr _ =>
      have releasing : ∀ p, g.Names p → Releasing ((.releaseProviders id g.committed.toList :: .openDone id :: fs) ++ rest) id p := by
        intro p names
        obtain ⟨e, he, rfl⟩ := Guard.names_iff.mp names
        exact ⟨_, List.mem_cons_self, e, he, rfl⟩
      refine h.set (Nat.le_refl _) hg (l.set_guards _ · _) rfl (by simp [Guard.parked]) (fun p both => ?_)
        (pushed (by simp)) (fun c b _ call => calls_push (by simp) call) fun p d hd hc _ => ?_
      · exact .inr (releasing p both.2)
      · obtain both | r := h.named p d id g hd hc hg
        · exact .inr (releasing p both.2)
        · exact .inr (Consumers.releasing_push (by simp) r)
  | release hp => exact h.release hp
  | @skip id e es none =>
      refine h.still rfl (Nat.le_refl _) (fun c p d hd r => ?_) (called (by simp))
      obtain ⟨ds, hin, e', he', rfl⟩ := r
      obtain here | below := List.mem_cons.mp hin
      · cases here
        obtain rfl | later := List.mem_cons.mp he'
        · exact absurd (none.symm.trans hd) (by simp)
        · exact ⟨es, List.mem_cons_self, e', later, rfl⟩
      · exact ⟨ds, List.mem_append_right _ below, e', he', rfl⟩
  | opened hg | waits hg _ =>
      exact h.set_alike (Nat.le_refl _) hg (l.set_guards _ · _) rfl rfl rfl rfl (pushed (by simp)) (called (by simp))
  | through _ | resumed | childWaits | diffDone | awaitNext =>
      exact h.still rfl (Nat.le_refl _) (pushed (by simp)) (called (by simp))
  | erased hw =>
      refine h.erase (fun g hg => erases _ g ?_ hg) (pushed (by simp)) (called (by simp))
      simp [Frame.erases, hw]
  | childErased hg hp =>
      refine h.erase (fun y hy => ?_) (pushed (by simp)) (called (by simp))
      cases hg.symm.trans hy
      exact hp
  | @erasedAll desired retired =>
      refine h.calm (Nat.le_of_eq (Ledger.eraseAll_nextId _ _).symm) (pushed (by simp)) (called (by simp))
        (fun j y hy => ?_) fun j g hg none => ?_
      · rw [Ledger.eraseAll_guards] at hy
        split at hy
        · cases hy
        · exact ⟨y, hy, rfl, rfl, rfl, rfl⟩
      · rw [Ledger.eraseAll_guards] at none
        split at none
        · next member => exact erases j g member hg
        · rw [hg] at none
          cases none
  | @dropEntry l' id g desired es es' path toAwait hs hg =>
      have guards (j : FiberId) : (l'.set id { g with retired := true }).guards j =
          if j = id then some { g with retired := true } else l.guards j := by
        rw [Ledger.set_guards, hs.guards]
      exact h.set_alike hs.nextId hg guards rfl rfl rfl rfl (pushed (by simp)) (called (by simp))
  | keepEntry hs _ => exact h.still hs.guards hs.nextId (pushed (by simp)) (called (by simp))

/-- A published fiber joins the consumers of the fibers it names. -/
theorem enroll (h : Enlisted l st) (hg : l.guards id = some g) (drawn : id < l.nextId) (published : g.Published)
    {ps : List FiberId} (names : ∀ p ∈ ps, g.Names p) : Enlisted (l.enroll id ps) st := by
  have before : ∀ j y, (l.enroll id ps).guards j = some y → ∃ z, l.guards j = some z ∧ y.phase = z.phase ∧
      y.committed = z.committed ∧ y.remaining = z.remaining ∧
      ∀ c ∈ y.consumers, c ∈ z.consumers ∨ c = id ∧ j ∈ ps := by
    intro j y hy
    obtain ⟨z, hz, rfl⟩ := Option.map_eq_some_iff.mp hy
    refine ⟨z, hz, ?_⟩
    split
    · next member =>
        refine ⟨rfl, rfl, rfl, fun c hc => ?_⟩
        obtain new | old := SortedSet.mem_insert.mp hc
        · exact .inr ⟨new, member⟩
        · exact .inl old
    · exact ⟨rfl, rfl, rfl, fun c hc => .inl hc⟩
  have found : ∀ c z, l.guards c = some z → ∃ y, (l.enroll id ps).guards c = some y ∧ y.phase = z.phase ∧
      ∀ i ∈ z.consumers, i ∈ y.consumers := by
    intro c z hz
    simp only [Ledger.enroll, hz, Option.map_some]
    refine ⟨_, rfl, ?_⟩
    split
    · exact ⟨rfl, fun i hi => SortedSet.mem_insert.mpr (.inr hi)⟩
    · exact ⟨rfl, fun i hi => hi⟩
  constructor
  · intro p y c hy hc
    obtain ⟨d, hd, _, _, _, sub⟩ := before p y hy
    obtain old | ⟨rfl, _⟩ := sub c hc
    · exact h.drawn p d c hd old
    · exact drawn
  · intro p y c z hy hc hz
    obtain ⟨d, hd, _, _, _, sub⟩ := before p y hy
    obtain ⟨w, hw, phase, committed, _⟩ := before c z hz
    have kept : w.Published ∧ w.Names p → z.Published ∧ z.Names p := by
      rintro ⟨published, k, hk⟩
      refine ⟨?_, k, committed.symm ▸ hk⟩
      unfold Guard.Published
      rw [phase]
      exact published
    obtain old | ⟨rfl, member⟩ := sub c hc
    · exact (h.named p d c w hd old hw).imp_left kept
    · cases hg.symm.trans hw
      exact .inl (kept ⟨published, names p member⟩)
  · intro p y hy hw
    obtain ⟨d, hd, phase, _, remaining, _⟩ := before p y hy
    obtain ⟨cs, nodup, enough, all⟩ := h.waits p d hd (phase ▸ hw)
    refine ⟨cs, nodup, remaining ▸ enough, fun c hc => ?_⟩
    obtain ⟨registered, leaves⟩ := all c hc
    obtain ⟨y', hy', _, sub⟩ := found p d hd
    cases hy.symm.trans hy'
    refine ⟨sub c registered, leaves.imp_left ?_⟩
    rintro ⟨z, hz, running⟩
    obtain ⟨y'', hy'', phase', _⟩ := found c z hz
    exact ⟨y'', hy'', running.imp phase'.trans fun active => ⟨phase'.trans active.1, active.2⟩⟩

theorem mounted (h : Enlisted l st) : Enlisted { l.set l.nextId {} with nextId := l.nextId + 1 } (fs ++ st) := by
  have older : ∀ c, c < l.nextId → (l.set l.nextId {}).guards c = l.guards c := by
    intro c hc
    rw [Ledger.set_guards, if_neg (Nat.ne_of_lt hc)]
  refine h.step (Nat.le_succ _) (fun p y hy => ?_) (fun c p y d hc hy _ => ⟨y, older c hc ▸ hy, .inl⟩)
    (fun c p d _ r => ?_) fun c p d hd _ hc leaves => ?_
  · have set : (l.set l.nextId {}).guards p = some y := hy
    rw [Ledger.set_guards] at set
    split at set
    · cases set
      exact .inl ⟨rfl, rfl⟩
    · exact .inr ⟨y, set, rfl, fun hw => .inl ⟨hw, rfl⟩⟩
  · obtain ⟨es, hin, e, he, rfl⟩ := r
    exact ⟨es, List.mem_append_right _ hin, e, he, rfl⟩
  · refine leaves.imp ?_ ?_
    · rintro ⟨g, hg, running⟩
      refine ⟨g, (older c (h.drawn p d c hd hc)).trans hg, running.imp_right fun active => ⟨active.1, ?_⟩⟩
      obtain ⟨b, call⟩ := active.2
      exact ⟨b, List.mem_append_right _ call⟩
    · rintro ⟨es, hin, e, he, rfl⟩
      exact ⟨es, List.mem_append_right _ hin, e, he, rfl⟩

/-- An operation keeps the registrations. -/
theorem entry {pub : FiberId → Option String → Prop} {o : Op} (h : Enlisted l st) (tidy : Tidy l st)
    (mounted : ∀ j g, l.guards j = some g → j < l.nextId) (t : Entry pub l o l' fs) : Enlisted l' (fs ++ st) := by
  have pushed (m : Ledger) : ∀ c p d, m.guards p = some d → Releasing st c p → Releasing (fs ++ st) c p := by
    rintro c p _ _ ⟨es, hin, e, he, rfl⟩
    exact ⟨es, List.mem_append_right _ hin, e, he, rfl⟩
  have called : ∀ c b g, l.guards c = some g → g.phase = .active → .beginUnload c b ∈ st →
      .beginUnload c b ∈ fs ++ st := fun _ _ _ _ _ call => List.mem_append_right _ call
  cases t with
  | quiet hs _ _ => exact h.still hs.guards hs.nextId (pushed _) called
  | mounted _ _ => exact h.mounted
  | retireInactive hg hp =>
      refine h.erase (fun y hy => ?_) (pushed _) called
      cases hg.symm.trans hy
      exact hp
  | retire hg | retireChild hg =>
      exact h.set_alike (Nat.le_refl _) hg (l.set_guards _ · _) rfl rfl rfl rfl (pushed _) called
  | reconcile | ignored _ => exact h.still rfl (Nat.le_refl _) (pushed _) called
  | @dropped id ep g fs hin hg _ =>
      have unpublished : ¬ g.Published := fun published =>
        absurd ((tidy id g hg).published published) (List.count_pos_iff.mpr hin).ne'
      refine h.set (Nat.le_refl _) hg (l.set_guards _ · _) rfl (by simp [Guard.parked])
        (fun p both => absurd both.1 unpublished) (pushed _) (fun c b _ call => List.mem_append_right _ call)
        fun p d _ _ running => absurd ?_ unpublished
      exact running.symm
  | @published id ep g fs hin hg hp _ _ =>
      have active : Enlisted (l.set id { g with phase := .active }) (fs ++ st) := by
        refine h.set (Nat.le_refl _) hg (l.set_guards _ · _) rfl (by simp) (fun p both => ?_) (pushed _)
          (fun c b _ call => List.mem_append_right _ call) fun p d _ _ running => ?_
        · obtain ⟨active | withdrawing, _⟩ := both
          · simp [hp] at active
          · simp [hp] at withdrawing
        · simp [hp] at running
      have named : ∀ p ∈ g.committed.toList.map Prod.snd, g.Names p := by
        intro p member
        obtain ⟨e, he, rfl⟩ := List.mem_map.mp member
        exact Guard.names_iff.mpr ⟨e, he, rfl⟩
      have found : (l.set id { g with phase := .active }).guards id = some { g with phase := .active } := by
        rw [Ledger.set_guards, if_pos rfl]
      have enrolled := active.enroll found (mounted id g hg) (.inl rfl) named
      exact enrolled.still rfl (Nat.le_refl _) (fun _ _ _ _ r => r) fun _ _ _ _ _ call => call

end Enlisted
end Araya

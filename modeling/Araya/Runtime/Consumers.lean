import Araya.Runtime.Retirement

/-!
Who is registered with whom. A provider's consumer set is the set of published
fibers whose committed map names it, up to the releases that are still pending,
and no cancelled load names a fiber that withdraws.
-/

namespace Araya

/-- A pending release of `p` by `c`. -/
def Releasing (st : List Frame) (c p : FiberId) : Prop :=
  ∃ es, .releaseProviders c es ∈ st ∧ ∃ e ∈ es, e.2 = p

structure Consumers (l : Ledger) (st : List Frame) : Prop where
  named : ∀ j g p, l.guards j = some g → g.Names p → p < l.nextId
  registered : ∀ p d c, l.guards p = some d → c ∈ d.consumers →
    ∃ g, l.guards c = some g ∧ ((g.Published ∧ g.Names p) ∨ Releasing st c p)
  registers : ∀ c g p d, l.guards c = some g → g.Published → g.Names p → l.guards p = some d →
    c ∈ d.consumers
  diverted : ∀ p d j g, l.guards p = some d → d.phase = .withdrawing → l.guards j = some g →
    g.phase = .diverted → ¬ g.Names p

namespace Consumers
variable {l l' : Ledger} {f : Frame} {rest fs st st' : List Frame} {id : FiberId} {g x : Guard}
  {e : ServiceId × FiberId} {es : List (ServiceId × FiberId)}

/-- Releases survive a turn of another frame. -/
theorem releasing_push (hf : ∀ c e es, f ≠ .releaseProviders c (e :: es)) {c p : FiberId}
    (h : Releasing (f :: rest) c p) : Releasing (fs ++ rest) c p := by
  obtain ⟨es, hin, e, he, hp⟩ := h
  rcases List.mem_cons.mp hin with heq | hin
  · cases es with
    | nil => cases he
    | cons e' es' => exact absurd heq.symm (hf c e' es')
  · exact ⟨es, List.mem_append_right _ hin, e, he, hp⟩

/-- Fibers at most disappear, none of them a registered consumer. -/
theorem shrink (h : Consumers l st) (hn : l.nextId ≤ l'.nextId)
    (sub : ∀ i y, l'.guards i = some y → l.guards i = some y)
    (kept : ∀ p d c g, l'.guards p = some d → c ∈ d.consumers → l.guards c = some g →
      ((g.Published ∧ g.Names p) ∨ Releasing st c p) → l'.guards c = some g)
    (rel : ∀ c p d, l'.guards p = some d → Releasing st c p → Releasing st' c p) :
    Consumers l' st' where
  named j y p hy hp := Nat.lt_of_lt_of_le (h.named j y p (sub j y hy) hp) hn
  registered := by
    intro p d c hd hc
    obtain ⟨y, hy, hcase⟩ := h.registered p d c (sub p d hd) hc
    exact ⟨y, kept p d c y hd hc hy hcase, hcase.imp_right (rel c p d hd)⟩
  registers c y p d hy hpub hp hd := h.registers c y p d (sub c y hy) hpub hp (sub p d hd)
  diverted p d j y hd hw hy := h.diverted p d j y (sub p d hd) hw (sub j y hy)

theorem same (h : Consumers l st) (hs : l.Same l')
    (rel : ∀ c p d, l.guards p = some d → Releasing st c p → Releasing st' c p) : Consumers l' st' :=
  h.shrink hs.nextId (fun _ _ hy => hs.guards ▸ hy) (fun _ _ _ _ _ _ hy _ => hs.guards.symm ▸ hy)
    fun c p d hd => rel c p d (hs.guards ▸ hd)

/-- One fiber's guard changes, its consumers staying as they are. -/
theorem set (h : Consumers l st) (hl : l'.guards = (l.set id x).guards) (hn : l.nextId ≤ l'.nextId)
    (hg : l.guards id = some g) (named : ∀ p, x.Names p → p < l'.nextId)
    (cons : x.consumers = g.consumers)
    (leaves : ∀ p, g.Published → g.Names p → (x.Published ∧ x.Names p) ∨ Releasing st' id p)
    (enters : ∀ p, x.Published → x.Names p → g.Published ∧ g.Names p)
    (rel : ∀ c p, Releasing st c p → Releasing st' c p)
    (div : ∀ p d, x.phase = .diverted → x.Names p → l.guards p = some d → d.phase ≠ .withdrawing)
    (withdraws : x.phase = .withdrawing → ∀ j y, l.guards j = some y → y.phase = .diverted → ¬ y.Names id) :
    Consumers l' st' := by
  have lookup : ∀ {j : FiberId} {y : Guard}, l'.guards j = some y →
      (j = id ∧ y = x) ∨ (j ≠ id ∧ l.guards j = some y) := by
    intro j y hy
    rw [hl, Ledger.set_guards] at hy
    split at hy
    · next he => cases hy; exact .inl ⟨he, rfl⟩
    · next he => exact .inr ⟨he, hy⟩
  have members : ∀ {p : FiberId} {d : Guard}, l'.guards p = some d →
      ∃ d', l.guards p = some d' ∧ d.consumers = d'.consumers := by
    intro p d hd
    rcases lookup hd with ⟨rfl, rfl⟩ | ⟨_, hd⟩
    · exact ⟨g, hg, cons⟩
    · exact ⟨d, hd, rfl⟩
  constructor
  · intro j y p hy hp
    rcases lookup hy with ⟨rfl, rfl⟩ | ⟨_, hy⟩
    · exact named p hp
    · exact Nat.lt_of_lt_of_le (h.named j y p hy hp) hn
  · intro p d c hd hc
    obtain ⟨d', hd', he⟩ := members hd
    obtain ⟨y, hy, hcase⟩ := h.registered p d' c hd' (he ▸ hc)
    by_cases hcid : c = id
    · subst hcid
      rw [hg] at hy
      cases hy
      refine ⟨x, by rw [hl, Ledger.set_guards, if_pos rfl], ?_⟩
      rcases hcase with ⟨hpub, hnam⟩ | hr
      · exact leaves p hpub hnam
      · exact .inr (rel c p hr)
    · exact ⟨y, by rw [hl, Ledger.set_guards, if_neg hcid]; exact hy, hcase.imp_right (rel c p)⟩
  · intro c y p d hy hpub hp hd
    obtain ⟨d', hd', he⟩ := members hd
    rw [he]
    rcases lookup hy with ⟨rfl, rfl⟩ | ⟨_, hy⟩
    · exact h.registers c g p d' hg (enters p hpub hp).1 (enters p hpub hp).2 hd'
    · exact h.registers c y p d' hy hpub hp hd'
  · intro p d j y hd hw hy hdiv
    rcases lookup hy with ⟨rfl, rfl⟩ | ⟨_, hy⟩
    · rcases lookup hd with ⟨rfl, rfl⟩ | ⟨_, hd⟩
      · rw [hw] at hdiv
        cases hdiv
      · exact fun hp => div p d hdiv hp hd hw
    · rcases lookup hd with ⟨rfl, rfl⟩ | ⟨_, hd⟩
      · exact withdraws hw j y hy hdiv
      · exact h.diverted p d j y hd hw hy hdiv

/-- A change of a guard that no other fiber's registration depends on. -/
theorem set_alike (h : Consumers l st) (hl : l'.guards = (l.set id x).guards) (hn : l.nextId ≤ l'.nextId)
    (hg : l.guards id = some g) (hp : x.phase = g.phase) (hm : x.committed = g.committed)
    (cons : x.consumers = g.consumers) (rel : ∀ c p, Releasing st c p → Releasing st' c p) :
    Consumers l' st' := by
  have names : ∀ p, x.Names p ↔ g.Names p := fun p => by unfold Guard.Names; rw [hm]
  have pub : x.Published ↔ g.Published := by unfold Guard.Published; rw [hp]
  refine h.set hl hn hg (fun p hp => Nat.lt_of_lt_of_le (h.named id g p hg ((names p).mp hp)) hn) cons
    (fun p h₁ h₂ => .inl ⟨pub.mpr h₁, (names p).mpr h₂⟩) (fun p h₁ h₂ => ⟨pub.mp h₁, (names p).mp h₂⟩) rel ?_ ?_
  · intro p d hdiv hnam hd hw
    exact h.diverted p d id g hd hw hg (hp ▸ hdiv) ((names p).mp hnam)
  · intro hw j y hy hdiv
    exact h.diverted id g j y hg (hp ▸ hw) hy hdiv

/-- Settled fibers are erased: nobody has them registered. -/
theorem erase_settled (h : Consumers l st) {e : List FiberId} (settled : ∀ i ∈ e, l.Settled st i)
    (rel : ∀ c p, Releasing st c p → Releasing st' c p) : Consumers (l.eraseAll e) st' := by
  have kept : ∀ {i : FiberId} {y : Guard}, (l.eraseAll e).guards i = some y → l.guards i = some y := by
    intro i y hy
    rw [Ledger.eraseAll_guards] at hy
    split at hy
    · cases hy
    · exact hy
  refine h.shrink (Nat.le_of_eq (Ledger.eraseAll_nextId l e).symm) (fun _ _ hy => kept hy) ?_
    fun c p _ _ => rel c p
  intro p d c y hd hc hy hcase
  rw [Ledger.eraseAll_guards]
  split
  · next hin =>
      have hs := settled c hin y hy
      rcases hcase with ⟨hpub, _⟩ | ⟨es, hes, _⟩
      · simp [Guard.Published, hs.1] at hpub
      · exact absurd hes (hs.2 es)
  · exact hy

/-- A provider is released by a fiber that is not published. -/
theorem release (h : Consumers l (.releaseProviders id (e :: es) :: rest)) (hp : l.guards e.2 = some g)
    (dormant : ∀ y, l.guards id = some y → ¬ y.Published) :
    Consumers (l.set e.2 (g.released id)) ([.maybeFinishUnload e.2, .releaseProviders id es] ++ rest) := by
  have lookup : ∀ {j : FiberId} {y : Guard}, (l.set e.2 (g.released id)).guards j = some y →
      ∃ d, l.guards j = some d ∧ y.phase = d.phase ∧ y.committed = d.committed ∧
        ∀ c, c ∈ y.consumers ↔ c ∈ d.consumers ∧ (j = e.2 → c ≠ id) := by
    intro j y hy
    rw [Ledger.set_guards] at hy
    split at hy
    · next he =>
        cases hy
        exact ⟨g, he ▸ hp, rfl, rfl, fun c => by simp [Guard.released, he, and_comm]⟩
    · next he => exact ⟨y, hy, rfl, rfl, fun c => by simp [he]⟩
  have back : ∀ {j : FiberId} {d : Guard}, l.guards j = some d →
      ∃ y, (l.set e.2 (g.released id)).guards j = some y ∧ y.phase = d.phase ∧ y.committed = d.committed := by
    intro j d hd
    rw [Ledger.set_guards]
    split
    · next he =>
        rw [he, hp] at hd
        cases hd
        exact ⟨_, rfl, rfl, rfl⟩
    · exact ⟨d, hd, rfl, rfl⟩
  constructor
  · rintro j y p hy ⟨k, hk⟩
    obtain ⟨d, hd, _, hm, _⟩ := lookup hy
    exact h.named j d p hd ⟨k, hm ▸ hk⟩
  · intro p y c hy hc
    obtain ⟨d, hd, _, _, hmem⟩ := lookup hy
    obtain ⟨z, hz, hcase⟩ := h.registered p d c hd ((hmem c).mp hc).1
    obtain ⟨z', hz', hph, hm⟩ := back hz
    refine ⟨z', hz', ?_⟩
    rcases hcase with ⟨hpub, k, hk⟩ | ⟨es', hin, e', he', hp'⟩
    · exact .inl ⟨by unfold Guard.Published at hpub ⊢; rwa [hph], k, hm ▸ hk⟩
    · rcases List.mem_cons.mp hin with heq | hin
      · cases heq
        rcases List.mem_cons.mp he' with rfl | he'
        · exact absurd rfl (((hmem id).mp hc).2 hp'.symm)
        · exact .inr ⟨es, by simp, e', he', hp'⟩
      · exact .inr ⟨es', List.mem_append_right _ hin, e', he', hp'⟩
  · rintro c y p w hy hpub ⟨k, hk⟩ hw
    obtain ⟨d, hd, hph, hm, _⟩ := lookup hy
    obtain ⟨d', hd', _, _, hmem⟩ := lookup hw
    have hpub' : d.Published := by unfold Guard.Published at hpub ⊢; rwa [← hph]
    refine (hmem c).mpr ⟨h.registers c d p d' hd hpub' ⟨k, hm ▸ hk⟩ hd', fun _ hc => ?_⟩
    exact dormant d (hc ▸ hd) hpub'
  · rintro p w j y hw hwd hy hdiv ⟨k, hk⟩
    obtain ⟨d, hd, hph, hm, _⟩ := lookup hy
    obtain ⟨d', hd', hph', _, _⟩ := lookup hw
    exact h.diverted p d' j d hd' (hph' ▸ hwd) hd (hph ▸ hdiv) ⟨k, hm ▸ hk⟩

theorem turn (h : Consumers l (f :: rest)) (ha : Accounts l (f :: rest))
    (hr : Retirement l (f :: rest)) (ok : f.Orderly l rest) (t : Turn l f l' fs) :
    Consumers l' (fs ++ rest) := by
  have push : (∀ c e es, f ≠ .releaseProviders c (e :: es)) →
      ∀ c p, Releasing (f :: rest) c p → Releasing (fs ++ rest) c p :=
    fun hf c p => releasing_push hf
  cases t with
  | quiet hf same plain =>
      exact h.same same fun c p _ _ => push (fun c e es he => by rw [he] at hf; exact hf) c p
  | @load id g names hg hp hr' names_lt =>
      refine h.set (x := { g with phase := .loading, committed := names }) rfl (Nat.le_succ _) hg ?_ rfl ?_
        ?_ (push (by simp)) ?_ ?_
      · rintro p ⟨k, hk⟩
        exact Nat.lt_succ_of_lt (names_lt k p hk)
      · intro p hpub
        simp [Guard.Published, hp] at hpub
      · intro p hpub
        simp [Guard.Published] at hpub
      · intro p d hd
        cases hd
      · intro hw
        cases hw
  | @lapse id g hg hp =>
      have hpark : ∀ p, ¬ g.parked.Names p := fun _ => g.parked_names
      refine h.set (x := g.parked) rfl (Nat.le_succ _) hg (fun p hp => absurd hp (hpark p)) rfl ?_
        (fun p _ hp => absurd hp (hpark p)) (push (by simp)) (fun p d _ hp => absurd hp (hpark p)) ?_
      · intro p hpub
        simp [Guard.Published, hp] at hpub
      · intro hw
        cases hw
  | passed _ => exact h.same (.refl _) fun c p _ _ => push (by simp) c p
  | @divert id b g hg hp =>
      refine h.set (x := { g with phase := .diverted, done := g.done.close }) rfl (Nat.le_refl _) hg
        (fun p hp => h.named id g p hg hp) rfl ?_ ?_ (push (by simp)) ?_ ?_
      · intro p hpub
        simp [Guard.Published, hp] at hpub
      · intro p hpub
        simp [Guard.Published] at hpub
      · exact fun p d _ hnam hd => ((ok g hg).2 hp).2 p d hnam hd
      · intro hw
        cases hw
  | @leave id b g hg hp =>
      refine h.set (x := { g with phase := .withdrawing, done := g.done.close, remaining := _ }) rfl
        (Nat.le_refl _) hg (fun p hp => h.named id g p hg hp) rfl (fun p _ hn => .inl ⟨.inr rfl, hn⟩)
        (fun p _ hn => ⟨.inl hp, hn⟩) (push (by simp)) ?_ ?_
      · intro p d hd
        cases hd
      · exact fun _ j y hy hdiv => ((ok g hg).1 hp).2 j y hy hdiv
  | stop => exact h.same (.refl _) fun c p _ _ => push (by simp) c p
  | @finish id g fs hg hp hr' plain =>
      have hpark : ∀ p, ¬ g.parked.Names p := fun _ => g.parked_names
      refine h.set (x := g.parked) rfl (Nat.le_refl _) hg (fun p hp => absurd hp (hpark p)) rfl ?_
        (fun p _ hp => absurd hp (hpark p)) (push (by simp)) (fun p d _ hp => absurd hp (hpark p)) ?_
      · intro p _ hnam
        obtain ⟨e, he, hpe⟩ := Guard.names_iff.mp hnam
        exact .inr ⟨g.committed.toList, List.mem_append_left _ List.mem_cons_self, e, he, hpe⟩
      · intro hw
        cases hw
  | @release id e es p hp =>
      refine h.release hp fun y hy hpub => ?_
      rcases (ha.calls.head id y rfl hy).1 with hi | hl <;> simp [Guard.Published, *] at hpub
  | @skip id e es hn =>
      refine h.same (.refl _) fun c p d hd hrel => ?_
      obtain ⟨es', hin, e', he', hp⟩ := hrel
      rcases List.mem_cons.mp hin with heq | hin
      · cases heq
        rcases List.mem_cons.mp he' with rfl | he'
        · rw [hp, hd] at hn
          cases hn
        · exact ⟨es, List.mem_append_left _ List.mem_cons_self, e', he', hp⟩
      · exact ⟨es', List.mem_append_right _ hin, e', he', hp⟩
  | @opened id g hg => exact h.set_alike rfl (Nat.le_refl _) hg rfl rfl rfl (push (by simp))
  | @waits id w g hg ho => exact h.set_alike rfl (Nat.le_refl _) hg rfl rfl rfl (push (by simp))
  | through _ => exact h.same (.refl _) fun c p _ _ => push (by simp) c p
  | @erased w id he =>
      refine h.erase_settled (e := [id]) ?_ (push (by simp))
      intro i hi
      have owed := hr.head id (by cases w <;> simp_all [Waiter.erases, Frame.retired, Waiter.retired])
      rw [List.mem_singleton.mp hi]
      refine owed.2.resolve_left ?_
      cases w <;> simp_all [Waiter.erases, Frame.awaiting, Waiter.awaiting]
  | resumed => exact h.same (.refl _) fun c p _ _ => push (by simp) c p
  | @childErased id g hg hp =>
      have hrest := hr.rest_of_bottom (by trivial)
      subst hrest
      refine h.erase_settled (e := [id]) ?_ (push (by simp))
      intro i hi y hy
      rw [List.mem_singleton.mp hi, hg] at hy
      cases hy
      exact ⟨hp, by simp⟩
  | childWaits => exact h.same (.refl _) fun c p _ _ => push (by simp) c p
  | @dropEntry l' id g desired es es' path toAwait same hg =>
      refine h.set_alike (x := { g with retired := true }) ?_ same.nextId hg rfl rfl rfl (push (by simp))
      funext j
      simp only [Ledger.set_guards, same.guards]
  | keepEntry same plain => exact h.same same fun c p _ _ => push (by simp) c p
  | diffDone => exact h.same (.refl _) fun c p _ _ => push (by simp) c p
  | awaitNext => exact h.same (.refl _) fun c p _ _ => push (by simp) c p
  | @erasedAll desired retired =>
      exact h.erase_settled (fun i hi => (hr.head i hi).2.resolve_left (by simp [Frame.awaiting]))
        (push (by simp))

/-- A fiber starts to load while the calls below are lost, none of them a release. -/
theorem unwound (h : Consumers l (f :: rest)) (clear : ∀ c es, .releaseProviders c es ∉ rest)
    (t : Unwound l f l') : Consumers l' [] := by
  cases t with
  | @load id g names hg hp hr names_lt =>
      have none : ∀ c p, ¬ Releasing (.evaluate id :: rest) c p := by
        rintro c p ⟨es, hin, _⟩
        rcases List.mem_cons.mp hin with heq | hin
        · cases heq
        · exact clear c es hin
      refine h.set (x := { g with phase := .loading, committed := names }) rfl (Nat.le_succ _) hg ?_ rfl ?_
        ?_ (fun c p hrel => absurd hrel (none c p)) ?_ ?_
      · rintro p ⟨k, hk⟩
        exact Nat.lt_succ_of_lt (names_lt k p hk)
      · intro p hpub
        simp [Guard.Published, hp] at hpub
      · intro p hpub
        simp [Guard.Published] at hpub
      · intro p d hd
        cases hd
      · intro hw
        cases hw

theorem not_releasing_nil {c p : FiberId} : ¬ Releasing [] c p := fun ⟨_, hin, _⟩ => nomatch hin

theorem mounted (h : Consumers l []) (hn : ∀ j g, l.guards j = some g → j < l.nextId) :
    Consumers { l.set l.nextId {} with nextId := l.nextId + 1 } fs := by
  have lookup : ∀ {j : FiberId} {y : Guard}, (l.set l.nextId {}).guards j = some y →
      (j = l.nextId ∧ y = {}) ∨ l.guards j = some y := by
    intro j y hy
    rw [Ledger.set_guards] at hy
    split at hy
    · next he => cases hy; exact .inl ⟨he, rfl⟩
    · exact .inr hy
  have nobody : ∀ p, ¬ ({} : Guard).Names p := fun p ⟨k, hk⟩ => by simp at hk
  constructor
  · intro j y p hy hp
    rcases lookup hy with ⟨_, rfl⟩ | hy
    · exact absurd hp (nobody p)
    · exact Nat.lt_succ_of_lt (h.named j y p hy hp)
  · intro p d c hd hc
    rcases lookup hd with ⟨_, rfl⟩ | hd
    · exact absurd hc (SortedSet.not_mem_empty c)
    · obtain ⟨g, hg, hcase⟩ := h.registered p d c hd hc
      have hne : c ≠ l.nextId := fun he => absurd (hn c g hg) (he ▸ Nat.lt_irrefl _)
      exact ⟨g, (Ledger.set_guards ..).trans ((if_neg hne).trans hg),
        .inl (hcase.resolve_right not_releasing_nil)⟩
  · intro c y p d hy hpub hp hd
    rcases lookup hy with ⟨_, rfl⟩ | hy
    · exact absurd hp (nobody p)
    · rcases lookup hd with ⟨he, rfl⟩ | hd
      · exact absurd (h.named c y p hy hp) (he ▸ Nat.lt_irrefl _)
      · exact h.registers c y p d hy hpub hp hd
  · intro p d j y hd hw hy hdiv
    rcases lookup hd with ⟨_, rfl⟩ | hd
    · cases hw
    · rcases lookup hy with ⟨_, rfl⟩ | hy
      · cases hdiv
      · exact h.diverted p d j y hd hw hy hdiv

/-- A published fiber joins the consumers of the fibers it names. -/
theorem published (h : Consumers l []) (hg : l.guards id = some g) :
    Consumers { (l.set id { g with phase := .active }).enroll id (g.committed.toList.map Prod.snd) with
      applies := l.applies.erase id } fs := by
  have lookup : ∀ {j : FiberId} {y : Guard},
      ((l.set id { g with phase := .active }).enroll id (g.committed.toList.map Prod.snd)).guards j =
        some y → ∃ d, l.guards j = some d ∧ y.committed = d.committed ∧
          (j = id ∨ y.phase = d.phase) ∧ (j = id → y.phase = .active) ∧
          ∀ c, c ∈ y.consumers ↔ c ∈ d.consumers ∨ (c = id ∧ g.Names j) := by
    intro j y hy
    obtain ⟨d, hd, rfl⟩ := Option.map_eq_some_iff.mp hy
    have names : j ∈ g.committed.toList.map Prod.snd ↔ g.Names j := by
      rw [Guard.names_iff, List.mem_map]
    rw [Ledger.set_guards] at hd
    split at hd
    · next he =>
        cases hd
        refine ⟨g, he ▸ hg, ?_, .inl he, ?_, ?_⟩
        · split <;> rfl
        · intro _
          split <;> rfl
        · intro c
          split
          · next hin => simp [names.mp hin, or_comm]
          · next hin => simp [mt names.mpr hin]
    · next he =>
        refine ⟨d, hd, ?_, .inr ?_, fun h => absurd h he, ?_⟩
        · split <;> rfl
        · split <;> rfl
        · intro c
          split
          · next hin => simp [names.mp hin, or_comm]
          · next hin => simp [mt names.mpr hin]
  have back : ∀ {j : FiberId} {d : Guard}, l.guards j = some d → ∃ y,
      ((l.set id { g with phase := .active }).enroll id (g.committed.toList.map Prod.snd)).guards j =
        some y := by
    intro j d hd
    simp only [Ledger.enroll, Ledger.set_guards]
    by_cases he : j = id
    · exact ⟨_, by rw [if_pos he]; rfl⟩
    · exact ⟨_, by rw [if_neg he, hd]; rfl⟩
  have names_iff : ∀ {y d : Guard} {p : FiberId}, y.committed = d.committed → (y.Names p ↔ d.Names p) := by
    intro y d p hm
    unfold Guard.Names
    rw [hm]
  constructor
  · intro j y p hy hnam
    obtain ⟨d, hd, hm, _⟩ := lookup hy
    exact h.named j d p hd ((names_iff hm).mp hnam)
  · intro p y c hy hc
    obtain ⟨d, hd, _, _, _, hmem⟩ := lookup hy
    rcases (hmem c).mp hc with hc | ⟨rfl, hnam⟩
    · obtain ⟨z, hz, hcase⟩ := h.registered p d c hd hc
      obtain ⟨hpub, hnam⟩ := hcase.resolve_right not_releasing_nil
      obtain ⟨z', hz'⟩ := back hz
      obtain ⟨w, hw, hm, hph, hact, _⟩ := lookup hz'
      rw [hz] at hw
      cases hw
      refine ⟨z', hz', .inl ⟨?_, (names_iff hm).mpr hnam⟩⟩
      rcases hph with he | hph
      · exact .inl (hact he)
      · unfold Guard.Published at hpub ⊢
        rwa [hph]
    · obtain ⟨z', hz'⟩ := back hg
      obtain ⟨w, hw, hm, _, hact, _⟩ := lookup hz'
      rw [hg] at hw
      cases hw
      exact ⟨z', hz', .inl ⟨.inl (hact rfl), (names_iff hm).mpr hnam⟩⟩
  · intro c y p w hy hpub hnam hw
    obtain ⟨d, hd, hm, hph, _, _⟩ := lookup hy
    obtain ⟨d', hd', _, _, _, hmem⟩ := lookup hw
    refine (hmem c).mpr ?_
    by_cases hc : c = id
    · subst hc
      rw [hg] at hd
      cases hd
      exact .inr ⟨rfl, (names_iff hm).mp hnam⟩
    · refine .inl (h.registers c d p d' hd ?_ ((names_iff hm).mp hnam) hd')
      unfold Guard.Published at hpub ⊢
      rwa [← hph.resolve_left hc]
  · intro p w j y hw hwd hy hdiv
    obtain ⟨d, hd, hm, hph, hact, _⟩ := lookup hy
    obtain ⟨d', hd', _, hph', hact', _⟩ := lookup hw
    have hj : y.phase = d.phase := hph.resolve_left fun he => by rw [hact he] at hdiv; cases hdiv
    have hp' : w.phase = d'.phase := hph'.resolve_left fun he => by rw [hact' he] at hwd; cases hwd
    exact fun hnam => h.diverted p d' j d hd' (hp' ▸ hwd) hd (hj ▸ hdiv) ((names_iff hm).mp hnam)

theorem entry {pub : FiberId → Option String → Prop} {o : Op} (h : Consumers l st) (ha : Accounts l st)
    (hst : st = [] ∨ o.nested = true) (t : Entry pub l o l' fs) : Consumers l' (fs ++ st) := by
  have atop : o.nested = false → st = [] := fun hn => hst.resolve_right (by simp [hn])
  have nothing : ∀ {fs : List Frame} c p, Releasing [] c p → Releasing fs c p :=
    fun c p hr => absurd hr not_releasing_nil
  cases t with
  | quiet same plain quiet =>
      refine h.same same fun c p _ _ ⟨es, hin, he⟩ => ⟨es, List.mem_append_right _ hin, he⟩
  | mounted hn plain =>
      cases atop hn
      exact h.mounted ha.books.fresh
  | @retireInactive id g hg hp =>
      cases atop rfl
      refine h.erase_settled (e := [id]) ?_ nothing
      intro i hi y hy
      rw [List.mem_singleton.mp hi, hg] at hy
      cases hy
      exact ⟨hp, by simp⟩
  | @retire id g hg =>
      cases atop rfl
      exact h.set_alike (x := { g with retired := true }) rfl (Nat.le_refl _) hg rfl rfl rfl nothing
  | @retireChild n id g hg =>
      cases atop rfl
      exact h.set_alike (x := { g with retired := true }) rfl (Nat.le_refl _) hg rfl rfl rfl nothing
  | reconcile => exact h.same (.refl _) fun c p _ _ ⟨es, hin, he⟩ => ⟨es, List.mem_append_right _ hin, he⟩
  | @ignored id ep hin =>
      cases atop rfl
      exact h.shrink (Nat.le_refl _) (fun _ _ hy => hy) (fun _ _ _ _ _ _ hy _ => hy)
        fun c p _ _ => nothing c p
  | @dropped id ep g fs hin hg plain =>
      cases atop rfl
      have hpark : ∀ p, ¬ g.parked.Names p := fun _ => g.parked_names
      have hunpub : ¬ g.Published := by
        rcases ha.books.applying id g hin hg with hp | hp <;> simp [Guard.Published, hp]
      exact h.set (x := g.parked) rfl (Nat.le_refl _) hg (fun p hp => absurd hp (hpark p)) rfl
        (fun p hpub => absurd hpub hunpub) (fun p _ hp => absurd hp (hpark p)) nothing
        (fun p d _ hp => absurd hp (hpark p)) (fun hw => by cases hw)
  | @published id ep g fs hin hg hp hpub plain =>
      cases atop rfl
      exact h.published hg

end Consumers
end Araya

import Araya.Runtime.Consumers

/-!
Ordered withdrawal. In every run whose steps are orderly, a provider's
activation is torn down after every other fiber that named it left the active
and the unloading state, and the counter of an unloading fiber is the number of
its consumers that are not inactive. The orderly steps leave out what breaks
it: a fiber that commits several keys to one provider releases it once for each
key, and the counter goes down each time.
-/

namespace Araya

/-- A call that throws loses no pending release. -/
def Frame.LosesNothing (rt : Runtime) (rest : List Frame) (f : Frame) : Prop :=
  ∀ rt', rt.exec f = .throw rt' → ∀ i es, .releaseProviders i es ∉ rest

def OrderlyStep (c : EngineConfig) : Label Op → Prop
  | .run => ∀ f rest, c.stack = f :: rest →
      f.Orderly c.state.ledger rest ∧ f.LosesNothing c.state rest
  | .op o => o.Orderly c.state.ledger c.state.Publishes

/-- What the guard of an unload is to ensure. -/
structure OrderedWithdrawal (c : EngineConfig) : Prop where
  /-- Where `finish_unload` is about to run, no other fiber that names the
  provider is active or unloading. -/
  teardown : ∀ p rest f, c.stack = .maybeFinishUnload p :: rest → c.state.find p = some f →
    f.state = .unloading → f.remaining = 0 → ∀ j g, j ≠ p → c.state.find j = some g → g.Names p →
    g.state ≠ .active ∧ g.state ≠ .unloading
  /-- Between two steps of the strand the counter of an unloading fiber is the
  number of its consumers that are not inactive. -/
  counter : ∀ p f, c.stack = [] → c.state.find p = some f → f.state = .unloading →
    f.remaining = c.state.countInstalled f.consumers
  /-- Inside a step it is the number of consumers, where one that is inactive
  already has its release pending. -/
  counting : ∀ p f, c.state.find p = some f → f.state = .unloading →
    f.remaining = f.consumers.card ∧ ∀ i ∈ f.consumers, ∃ g, c.state.find i = some g ∧
      (g.state ≠ .inactive ∨ Releasing c.stack i p)

/-- A counter that goes down in a step goes down by one, for one registered
consumer that left the active and the unloading state and leaves the set. -/
def CountsDown (c c' : EngineConfig) : Prop :=
  ∀ p f f', c.state.find p = some f → c'.state.find p = some f' → f'.remaining < f.remaining →
    f.remaining = f'.remaining + 1 ∧ ∃ i ∈ f.consumers, f'.consumers = f.consumers.erase i ∧
      ∀ g, c.state.find i = some g → g.state ≠ .active ∧ g.state ≠ .unloading

/-! Orderly steps, executably -/

/-- Some key of the committed map has the provider. -/
def FiberRecord.names? (f : FiberRecord) (p : FiberId) : Bool := f.committed.toList.any (·.2 == p)

def Frame.orderly? (rt : Runtime) (rest : List Frame) : Frame → Bool
  | .releaseProviders id (e :: _) =>
    (rt.find e.2).all fun p => p.state != .unloading || decide (id ∈ p.consumers)
  | .beginUnload id _ => (rt.find id).all fun f =>
    (f.state != .active || (rt.countInstalled f.consumers == f.consumers.card &&
      rt.fibers.toList.all fun e => e.2.phase != .diverted || !e.2.names? id)) &&
    (f.state != .loading || (rest.all (·.unloads != some id) &&
      f.committed.toList.all fun e => (rt.find e.2).all (·.phase != .withdrawing)))
  | _ => true

def Frame.losesNothing? (rt : Runtime) (rest : List Frame) (f : Frame) : Bool :=
  match rt.exec f with
  | .call .. => true
  | .throw _ => rest.all fun k => match k with
    | .releaseProviders .. => false
    | _ => true

def Op.orderly? (rt : Runtime) : Op → Bool
  | .complete id ep => (rt.find id).all fun f => !rt.publishes f ep ||
    f.committed.toList.all fun e => (rt.find e.2).all (·.state == .active)
  | _ => true

def orderlyStep? (c : EngineConfig) : Label Op → Bool
  | .run => match c.stack with
    | [] => true
    | f :: rest => f.orderly? c.state rest && f.losesNothing? c.state rest
  | .op o => o.orderly? c.state

theorem FiberRecord.guard_unloading {f : FiberRecord} :
    f.guard.Unloading ↔ f.state = .unloading :=
  f.phase_unloading

theorem FiberRecord.names?_iff {f : FiberRecord} {p : FiberId} : f.names? p = true ↔ f.Names p := by
  have h := Guard.names_iff (g := f.guard) (p := p)
  simp only [FiberRecord.names?, List.any_eq_true, beq_iff_eq]
  exact h.symm

theorem find_of_guards {rt : Runtime} {id : FiberId} {g : Guard} (h : rt.ledger.guards id = some g) :
    ∃ f, rt.find id = some f ∧ f.guard = g :=
  Option.map_eq_some_iff.mp h

theorem Frame.orderly_of_check {rt : Runtime} {rest : List Frame} {f : Frame}
    (h : f.orderly? rt rest = true) : f.Orderly rt.ledger rest := by
  cases f with
  | releaseProviders id es =>
      cases es with
      | nil => trivial
      | cons e es =>
          intro p hp hu
          obtain ⟨r, hr, rfl⟩ := find_of_guards hp
          have hs := FiberRecord.guard_unloading.mp hu
          have hin : id ∈ r.consumers := by simpa [Frame.orderly?, hr, hs] using h
          exact hin
  | beginUnload id b =>
      intro g hg
      obtain ⟨r, hr, rfl⟩ := find_of_guards hg
      simp only [Frame.orderly?, hr, Option.all_some, Bool.and_eq_true, Bool.or_eq_true, bne_iff_ne,
        beq_iff_eq, List.all_eq_true] at h
      refine ⟨fun ha => ?_, fun hl => ?_⟩
      · have hact := h.1.resolve_left (not_not.mpr (FiberRecord.phase_active.mp ha))
        refine ⟨by rw [← Runtime.ledger_countInstalled]; exact hact.1, fun j d hd hdiv hnam => ?_⟩
        obtain ⟨q, hq, rfl⟩ := find_of_guards hd
        rcases hact.2 (j, q) (SortedMap.mem_toList.mpr hq) with hne | hn
        · exact hne hdiv
        · simp [FiberRecord.names?_iff.mpr hnam] at hn
      · have hload := h.2.resolve_left (not_not.mpr (FiberRecord.phase_loading.mp hl))
        refine ⟨hload.1, fun p d hnam hd hw => ?_⟩
        obtain ⟨q, hq, rfl⟩ := find_of_guards hd
        obtain ⟨e, he, rfl⟩ := Guard.names_iff.mp hnam
        have hall := hload.2 e he
        simp only [hq, Option.all_some, bne_iff_ne] at hall
        exact hall hw
  | _ => trivial

theorem Frame.losesNothing_of_check {rt : Runtime} {rest : List Frame} {f : Frame}
    (h : f.losesNothing? rt rest = true) : f.LosesNothing rt rest := by
  intro rt' hx i es hin
  unfold Frame.losesNothing? at h
  rw [hx] at h
  have hk := List.all_eq_true.mp h _ hin
  cases hk

theorem Op.orderly_of_check {rt : Runtime} {o : Op} (h : o.orderly? rt = true) :
    o.Orderly rt.ledger rt.Publishes := by
  cases o with
  | complete id ep =>
      rintro ⟨f, hf, hpub⟩ g hg p d hnam hd
      obtain ⟨f', hf', rfl⟩ := find_of_guards hg
      rw [hf] at hf'
      cases hf'
      obtain ⟨q, hq, rfl⟩ := find_of_guards hd
      obtain ⟨e, he, rfl⟩ := Guard.names_iff.mp hnam
      simp only [Op.orderly?, hf, Option.all_some, hpub, Bool.not_true, Bool.false_or,
        List.all_eq_true] at h
      have hall := h e he
      simp only [hq, Option.all_some, beq_iff_eq] at hall
      exact FiberRecord.phase_active.mpr hall
  | _ => trivial

theorem orderlyStep_of_check (c : EngineConfig) (a : Label Op) (h : orderlyStep? c a = true) :
    OrderlyStep c a := by
  cases a with
  | run =>
      intro f rest hst
      simp only [orderlyStep?, hst, Bool.and_eq_true] at h
      exact ⟨Frame.orderly_of_check h.1, Frame.losesNothing_of_check h.2⟩
  | op o => exact Op.orderly_of_check h

/-! The invariant of a run -/

structure Withdrawal (c : EngineConfig) : Prop where
  wellFormed : c.state.WellFormed
  accounts : Accounts c.state.ledger c.stack
  retirement : Retirement c.state.ledger c.stack
  consumers : Consumers c.state.ledger c.stack

theorem Ledger.mounted {rt : Runtime} (h : Books rt.ledger) (j : FiberId) (f : FiberRecord)
    (hf : rt.find j = some f) : j < rt.nextId :=
  h.fresh j f.guard (Runtime.guards_of_find hf)

theorem withdrawal_start {rt : Runtime} (h : rt.Fresh) : Withdrawal ⟨rt, []⟩ := by
  have empty : ∀ j, rt.find j = none := by
    intro j
    unfold Runtime.find
    rw [h.fibers]
    rfl
  have none : ∀ {j : FiberId} {g : Guard}, rt.ledger.guards j ≠ some g := by
    intro j g hg
    rw [Runtime.guards_none_of_find (empty j)] at hg
    cases hg
  have applies : rt.ledger.applies = [] := h.applies
  constructor
  · constructor
    · intro j f hf
      rw [empty j] at hf
      cases hf
    · intro s b hb
      rw [h.bindings] at hb
      cases hb
  · refine ⟨⟨fun _ _ hg => absurd hg none, fun _ _ hg => absurd hg none,
      fun _ _ _ hg => absurd hg none, ?_, ?_⟩, by simp, .nil⟩
    · rw [applies]; exact .nil
    · rw [applies]; simp
  · exact ⟨fun _ _ hg => absurd hg none, by simp, by simp, fun _ _ _ hg => absurd hg none⟩
  · exact ⟨fun _ _ _ hg => absurd hg none, fun _ _ _ hg => absurd hg none,
      fun _ _ _ _ hg => absurd hg none, fun _ _ _ _ hg => absurd hg none⟩

/-- One orderly step keeps the invariant. -/
theorem withdrawal_step {c c' : EngineConfig} {a : Label Op} (h : Withdrawal c)
    (hn : engine.next c a = some c') (ok : OrderlyStep c a) : Withdrawal c' := by
  obtain ⟨moved, wf⟩ := engine_moved h.wellFormed (Ledger.mounted h.accounts.books) hn
  have ha := h.accounts
  have hr := h.retirement
  have hc := h.consumers
  cases moved with
  | turn hst t hst' =>
      rw [hst] at ha hr hc
      have ord := (ok _ _ hst).1
      refine ⟨wf, ?_, ?_, ?_⟩ <;> rw [hst']
      · exact ha.turn ord t
      · exact hr.turn ha t
      · exact hc.turn ha hr ord t
  | unwound hst hx t hst' =>
      rw [hst] at ha hr hc
      have kept := (ok _ _ hst).2 _ hx
      refine ⟨wf, ?_, ?_, ?_⟩ <;> rw [hst']
      · exact ha.unwound t
      · exact hr.unwound t
      · exact hc.unwound kept t
  | entry hst t hst' =>
      refine ⟨wf, ?_, ?_, ?_⟩ <;> rw [hst']
      · exact ha.entry hst ok t
      · exact hr.entry ha hst t
      · exact hc.entry ha hst t

theorem withdrawal_reached {c : EngineConfig} (h : engine.system.Reached OrderlyStep c) :
    Withdrawal c := by
  refine h.invariant ?_ fun _ _ _ _ hi hn ok => withdrawal_step hi hn ok
  rintro ⟨rt, st⟩ ⟨hs, rfl⟩
  exact withdrawal_start hs

/-! Ordered withdrawal -/

section
variable {c : EngineConfig} (h : Withdrawal c)
include h

theorem withdrawal_teardown (p : FiberId) (rest : List Frame) (f : FiberRecord)
    (hst : c.stack = .maybeFinishUnload p :: rest) (hf : c.state.find p = some f)
    (hu : f.state = .unloading) (hr : f.remaining = 0) (j : FiberId) (g : FiberRecord)
    (hg : c.state.find j = some g) (hnam : g.Names p) : g.state ≠ .active ∧ g.state ≠ .unloading := by
  have hfg := Runtime.guards_of_find hf
  have hgg := Runtime.guards_of_find hg
  have admits := h.accounts.admits (f := .maybeFinishUnload p) (by rw [hst]; simp) rfl hfg
  have withdrawing : f.guard.phase = .withdrawing :=
    (FiberRecord.guard_unloading.mpr hu).resolve_right admits
  have alone := Accounts.no_consumers_of_remaining (h.accounts.books.balanced p _ hfg) withdrawing hr
  have unpublished : ¬ g.guard.Published := by
    intro hpub
    have hin := h.consumers.registers j _ p _ hgg hpub hnam hfg
    rw [alone] at hin
    exact SortedSet.not_mem_empty j hin
  constructor
  · intro ha
    exact unpublished (.inl (FiberRecord.phase_active.mpr ha))
  · intro hu'
    rcases FiberRecord.guard_unloading.mpr hu' with hw | hd
    · exact unpublished (.inr hw)
    · exact h.consumers.diverted p _ j _ hfg withdrawing hgg hd hnam

theorem withdrawal_counting (p : FiberId) (f : FiberRecord) (hf : c.state.find p = some f)
    (hu : f.state = .unloading) : f.remaining = f.consumers.card ∧
      ∀ i ∈ f.consumers, ∃ g, c.state.find i = some g ∧
        (g.state ≠ .inactive ∨ Releasing c.stack i p) := by
  have hfg := Runtime.guards_of_find hf
  have bal := h.accounts.books.balanced p _ hfg
  constructor
  · rcases FiberRecord.guard_unloading.mpr hu with hw | hd
    · exact ((Guard.balanced_withdrawing hw).mp bal).1
    · have hz := (Guard.balanced_diverted hd).mp bal
      have hcons : f.consumers = ∅ := hz.2.1
      rw [hcons]
      exact hz.1
  · intro i hi
    obtain ⟨y, hy, hcase⟩ := h.consumers.registered p _ i hfg hi
    obtain ⟨g, hg, rfl⟩ := Option.map_eq_some_iff.mp hy
    refine ⟨g, hg, hcase.imp_left fun hpub hin => ?_⟩
    have inactive : g.guard.phase = .inactive := FiberRecord.phase_inactive.mpr hin
    have published := hpub.1
    simp [Guard.Published, inactive] at published

end

/-- Only a release lowers a counter. -/
theorem turn_remaining {l l' : Ledger} {f : Frame} {fs : List Frame} {p : FiberId} {g g' : Guard}
    (t : Turn l f l' fs) (steady : ∀ j y, l.guards j = some y → y.phase = .active → y.remaining = 0)
    (hg : l.guards p = some g) (hg' : l'.guards p = some g') (hlt : g'.remaining < g.remaining) :
    ∃ i e es, f = .releaseProviders i (e :: es) ∧ e.2 = p ∧ g' = g.released i := by
  have contra : ∀ {id : FiberId} {x y : Guard}, l'.guards = (l.set id x).guards →
      l.guards id = some y → y.remaining ≤ x.remaining → False := by
    intro id x y hl hy hle
    rw [hl, Ledger.set_guards] at hg'
    split at hg'
    · next he =>
        cases hg'
        rw [he, hy] at hg
        cases hg
        omega
    · rw [hg] at hg'
      cases hg'
      omega
  have gone : ∀ {e : List FiberId}, l'.guards = (l.eraseAll e).guards → False := by
    intro e hl
    rw [hl, Ledger.eraseAll_guards] at hg'
    split at hg'
    · cases hg'
    · rw [hg] at hg'
      cases hg'
      omega
  have unchanged : l'.guards = l.guards → False := by
    intro hl
    rw [hl, hg] at hg'
    cases hg'
    omega
  cases t with
  | quiet _ same _ | keepEntry same _ => exact (unchanged same.guards).elim
  | load hy | lapse hy | divert hy | finish hy | opened hy | waits hy _ =>
      exact (contra rfl hy (Nat.le_refl _)).elim
  | @leave id b y hy hp => exact (contra rfl hy (by rw [steady id y hy hp]; exact Nat.zero_le _)).elim
  | @release id e es y hy =>
      rw [Ledger.set_guards] at hg'
      split at hg'
      · next he =>
          cases hg'
          rw [he, hy] at hg
          cases hg
          exact ⟨id, e, es, rfl, he.symm, rfl⟩
      · rw [hg] at hg'
        cases hg'
        omega
  | @erased w id _ => exact (gone (e := [id]) rfl).elim
  | @childErased id y _ _ => exact (gone (e := [id]) rfl).elim
  | erasedAll => exact (gone rfl).elim
  | @dropEntry l' id y desired es es' path toAwait same hy =>
      refine (contra (x := { y with retired := true }) ?_ hy (Nat.le_refl _)).elim
      funext j
      simp only [Ledger.set_guards, same.guards]
  | _ => exact (unchanged rfl).elim

theorem entry_remaining {pub : FiberId → Option String → Prop} {l l' : Ledger} {o : Op}
    {fs : List Frame} {p : FiberId} {g g' : Guard} (t : Entry pub l o l' fs) (hn : p < l.nextId)
    (hg : l.guards p = some g) (hg' : l'.guards p = some g') : g.remaining ≤ g'.remaining := by
  have kept : ∀ {id : FiberId} {x y : Guard}, l.guards id = some y → x.remaining = y.remaining →
      (l.set id x).guards p = some g' → g'.remaining = g.remaining := by
    intro id x y hy hle hx
    rw [Ledger.set_guards] at hx
    split at hx
    · next he =>
        cases hx
        rw [he, hy] at hg
        cases hg
        exact hle
    · rw [hg] at hx
      cases hx
      rfl
  cases t with
  | quiet same _ _ =>
      rw [same.guards, hg] at hg'
      cases hg'
      exact Nat.le_refl _
  | mounted _ _ =>
      have hx : (l.set l.nextId {}).guards p = some g' := hg'
      rw [Ledger.set_guards, if_neg (Nat.ne_of_lt hn), hg] at hx
      cases hx
      exact Nat.le_refl _
  | @retireInactive id y hy hp =>
      rw [Ledger.erase_guards] at hg'
      split at hg'
      · cases hg'
      · rw [hg] at hg'
        cases hg'
        exact Nat.le_refl _
  | @retire id y hy => exact Nat.le_of_eq (kept (x := { y with retired := true }) hy rfl hg').symm
  | @retireChild n id y hy => exact Nat.le_of_eq (kept (x := { y with retired := true }) hy rfl hg').symm
  | reconcile | ignored _ =>
      have hx : l.guards p = some g' := hg'
      rw [hg] at hx
      cases hx
      exact Nat.le_refl _
  | @dropped id ep y fs _ hy _ => exact Nat.le_of_eq (kept (x := y.parked) hy rfl hg').symm
  | @published id ep y fs _ hy _ _ _ =>
      obtain ⟨d, hd, rfl⟩ := Option.map_eq_some_iff.mp hg'
      have hk : d.remaining = g.remaining := by
        rw [Ledger.set_guards] at hd
        split at hd
        · next he =>
            cases hd
            rw [he, hy] at hg
            cases hg
            rfl
        · rw [hg] at hd
          cases hd
          rfl
      rw [← hk]
      split <;> exact Nat.le_refl _

theorem withdrawal_countsDown {c c' : EngineConfig} {a : Label Op} (h : Withdrawal c)
    (hn : engine.next c a = some c') (ok : OrderlyStep c a) : CountsDown c c' := by
  intro p f f' hf hf' hlt
  obtain ⟨moved, -⟩ := engine_moved h.wellFormed (Ledger.mounted h.accounts.books) hn
  have hfg := Runtime.guards_of_find hf
  have hfg' := Runtime.guards_of_find hf'
  have bal := h.accounts.books.balanced
  have steady : ∀ j y, c.state.ledger.guards j = some y → y.phase = .active → y.remaining = 0 :=
    fun j y hy hp => (Guard.balanced_active hp).mp (bal j y hy)
  cases moved with
  | turn hst t hst' =>
      obtain ⟨i, e, es, rfl, rfl, he⟩ := turn_remaining t steady hfg hfg' hlt
      have withdrawing : f.guard.Unloading := by
        have hb := bal e.2 _ hfg
        have hpos : 0 < f.guard.remaining := Nat.lt_of_le_of_lt (Nat.zero_le _) hlt
        cases hp : f.guard.phase with
        | inactive | loading => exact absurd ((Guard.balanced_dormant (by simp [hp])).mp hb).1 (by omega)
        | active => exact absurd ((Guard.balanced_active hp).mp hb) (by omega)
        | withdrawing => exact .inl hp
        | diverted => exact .inr hp
      have hrem : f'.remaining = f.remaining - 1 := congrArg Guard.remaining he
      refine ⟨by omega, i, (ok _ _ hst).1 _ hfg withdrawing, congrArg Guard.consumers he, ?_⟩
      intro g hg
      have admits := h.accounts.admits (f := .releaseProviders i (e :: es)) (by rw [hst]; simp) rfl
        (Runtime.guards_of_find hg)
      rcases admits.1 with hi | hl
      · simp [FiberRecord.phase_inactive.mp hi]
      · simp [FiberRecord.phase_loading.mp hl]
  | unwound hst hx t hst' =>
      generalize c.state.ledger = l at t hfg
      generalize c'.state.ledger = l' at t hfg'
      cases t with
      | @load id y names hy _ _ _ =>
          have hx' : (l.set id { y with phase := .loading, committed := names }).guards p = some f'.guard := hfg'
          rw [Ledger.set_guards] at hx'
          have hlt' : f'.guard.remaining < f.guard.remaining := hlt
          split at hx'
          · next he =>
              rw [he, hy] at hfg
              rw [← Option.some.inj hx', ← Option.some.inj hfg] at hlt'
              exact absurd hlt' (Nat.lt_irrefl _)
          · rw [hfg] at hx'
            rw [Option.some.inj hx'] at hlt'
            exact absurd hlt' (Nat.lt_irrefl _)
  | entry hst t hst' =>
      have hle := entry_remaining t (h.accounts.books.fresh p _ hfg) hfg hfg'
      exact absurd hlt (Nat.not_lt.mpr hle)

theorem withdrawal_ordered {c : EngineConfig} (h : engine.system.Reached OrderlyStep c) :
    OrderedWithdrawal c ∧
      ∀ a c', engine.next c a = some c' → OrderlyStep c a → CountsDown c c' := by
  have inv := withdrawal_reached h
  refine ⟨⟨fun p rest f hst hf hu hr j g _ => withdrawal_teardown inv p rest f hst hf hu hr j g, ?_,
    fun p f => withdrawal_counting inv p f⟩, fun a c' => withdrawal_countsDown inv⟩
  intro p f hst hf hu
  obtain ⟨hcard, hin⟩ := withdrawal_counting inv p f hf hu
  rw [hcard]
  refine (SortedSet.count_eq_card fun i hi => ?_).symm
  obtain ⟨g, hg, hcase⟩ := hin i hi
  rw [hst] at hcase
  simp [hg, hcase.resolve_right Consumers.not_releasing_nil]

/-! Two schedules -/

/-- The schedule of a provider of two keys and two consumers of it, up to the
provider's retirement and a number of calls of the cascade. -/
def retireProvider (first second : List Dependency) (calls : Nat) : List (Label Op) :=
  [.op (.mount { descriptor := { name := "p", provide := [⟨"a", 1⟩, ⟨"b", 1⟩] } }), .run,
    .op (.provide 1 ⟨"a", 1⟩ 10 true), .op (.provide 1 ⟨"b", 1⟩ 11 true),
    .op (.complete 1 none), .run, .run, .run, .run, .run, .run] ++
  [.op (.mount { descriptor := { name := "first", inject := first } }), .run,
    .op (.complete 3 none), .run, .run] ++
  [.op (.mount { descriptor := { name := "second", inject := second } }), .run,
    .op (.complete 5 none), .run, .run] ++
  .op (.retire 1) :: List.replicate calls .run

/-- The provider of the schedule is about to be torn down. -/
def tearsDown (c : EngineConfig) : Bool :=
  match c.stack with
  | .maybeFinishUnload 1 :: _ => (c.state.find 1).any fun f => f.state == .unloading && f.remaining == 0
  | _ => false

theorem tearsDown_iff {c : EngineConfig} (h : tearsDown c = true) :
    ∃ rest f, c.stack = .maybeFinishUnload 1 :: rest ∧ c.state.find 1 = some f ∧
      f.state = .unloading ∧ f.remaining = 0 := by
  unfold tearsDown at h
  split at h
  · next rest hst =>
      obtain ⟨f, hf, hb⟩ := (Option.any_eq_true _ _).mp h
      simp only [Bool.and_eq_true, beq_iff_eq] at hb
      exact ⟨rest, f, hst, hf, hb.1, hb.2⟩
  · cases h

theorem engine_start : engine.system.start ⟨{}, []⟩ :=
  ⟨⟨rfl, rfl, rfl, rfl, rfl, rfl, rfl, rfl⟩, rfl⟩

/-- With one key each, both consumers are gone before the provider's teardown. -/
theorem withdrawal_ordered_retire : ∃ c, tearsDown c = true ∧ OrderedWithdrawal c ∧
    ∀ a c', engine.next c a = some c' → OrderlyStep c a → CountsDown c c' := by
  have played : (System.follow engine.next orderlyStep? ⟨{}, []⟩ (retireProvider [{ key := ⟨"a", 1⟩ }]
      [{ key := ⟨"b", 1⟩ }] 16)).any tearsDown = true := by decide +kernel
  obtain ⟨c, hw, hc⟩ := (Option.any_eq_true _ _).mp played
  have reached := System.follow_reached (fun _ _ _ h => h) orderlyStep_of_check hw (.start engine_start)
  exact ⟨c, hc, withdrawal_ordered reached⟩

/-- A consumer of both keys releases the provider twice, and the provider is
torn down while the second consumer is active. -/
theorem withdrawal_disordered : ¬ ∀ c, engine.system.Reached (fun _ _ => True) c →
    OrderedWithdrawal c := by
  intro ordered
  have played : (System.follow engine.next (fun _ _ => true) ⟨{}, []⟩ (retireProvider
      [{ key := ⟨"a", 1⟩ }, { key := ⟨"b", 1⟩ }] [{ key := ⟨"a", 1⟩ }] 7)).any (fun c => tearsDown c &&
        (c.state.find 5).any fun g => g.state == .active && g.names? 1) = true := by decide +kernel
  obtain ⟨c, hw, hc⟩ := (Option.any_eq_true _ _).mp played
  have reached := System.follow_reached (P := fun _ _ => True) (fun _ _ _ h => h) (fun _ _ _ => trivial) hw
    (.start engine_start)
  rw [Bool.and_eq_true] at hc
  obtain ⟨rest, f, hst, hf, hu, hr⟩ := tearsDown_iff hc.1
  obtain ⟨g, hg, hact⟩ := (Option.any_eq_true _ _).mp hc.2
  rw [Bool.and_eq_true, beq_iff_eq] at hact
  exact ((ordered c reached).teardown 1 rest f hst hf hu hr 5 g (by decide) hg
    (FiberRecord.names?_iff.mp hact.2)).1 hact.1

end Araya

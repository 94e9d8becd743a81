import Araya.Runtime.Records

/-!
Retirement is sticky. The machine of a runtime's whole life adds its destruction
to the operations of the engine. In every run of it the retirement flag of a
fiber stays down, and the fiber does not enter the loading or the active state
again, and none of its bindings becomes active, unless its apply is published
after the destructor stamped the flag and before the unloads it posted run.
-/

namespace Araya

/-! Destruction -/

inductive LifeOp where
  | call (o : Op)
  /-- `runtime::~runtime`, on the control strand or off it. -/
  | destroy (onStrand : Bool)

namespace Runtime

/-- The destructor stamps every fiber before the first unload. -/
def stampAll (rt : Runtime) : Runtime :=
  { rt with fibers := rt.fibers.filterMap fun f => some { f with reactivate := -1 } }

def destroy (rt : Runtime) (onStrand : Bool) : Runtime × List Frame :=
  if rt.fibers.size = 0 then (rt, [])
  else if onStrand then (rt.stampAll, rt.stampAll.unloadAll)
  else ({ rt.stampAll with posted := rt.posted ++ [.unloadAll] }, [])

theorem stampAll_find (rt : Runtime) (j : FiberId) :
    rt.stampAll.find j = (rt.find j).map fun f => { f with reactivate := -1 } := by
  simp only [stampAll, find, SortedMap.find?_filterMap]
  cases rt.fibers.find? j <;> rfl

/-- A destruction that finds a fiber stamps it. -/
theorem destroy_find {rt : Runtime} {onStrand : Bool} {j : FiberId} {f' : FiberRecord}
    (h : (rt.destroy onStrand).1.find j = some f') :
    ∃ f, rt.find j = some f ∧ (f' = f ∨ f' = { f with reactivate := -1 }) := by
  have stamped : rt.stampAll.find j = some f' →
      ∃ f, rt.find j = some f ∧ (f' = f ∨ f' = { f with reactivate := -1 }) := by
    intro h
    rw [stampAll_find] at h
    obtain ⟨f, hf, rfl⟩ := Option.map_eq_some_iff.mp h
    exact ⟨f, hf, .inr rfl⟩
  unfold destroy at h
  split at h
  · exact ⟨f', h, .inl rfl⟩
  · split at h
    · exact stamped h
    · exact stamped h

theorem destroy_contexts (rt : Runtime) (onStrand : Bool) :
    (rt.destroy onStrand).1.contexts = rt.contexts := by
  unfold destroy
  split
  · rfl
  · split <;> rfl

theorem destroy_nextId (rt : Runtime) (onStrand : Bool) : (rt.destroy onStrand).1.nextId = rt.nextId := by
  unfold destroy
  split
  · rfl
  · split <;> rfl

end Runtime

def lifetime : StackMachine Runtime Frame LifeOp where
  start := Runtime.Fresh
  exec fr rt := rt.exec fr
  op
    | .call o, rt => rt.op o
    | .destroy onStrand, rt => some (rt.destroy onStrand)
  nested
    | .call o => o.nested
    | .destroy _ => false

def Label.life : Label Op → Label LifeOp
  | .run => .run
  | .op o => .op (.call o)

theorem lifetime_life (c : EngineConfig) (a : Label Op) : lifetime.next c a.life = engine.next c a := by
  cases a <;> rfl

/-- A step of a runtime's life is a step of the engine, or its destruction. -/
theorem lifetime_cases {c c' : EngineConfig} {a : Label LifeOp} (h : lifetime.next c a = some c') :
    (∃ b, a = Label.life b ∧ engine.next c b = some c') ∨
      ∃ onStrand, a = .op (.destroy onStrand) ∧ c'.state = (c.state.destroy onStrand).1 := by
  cases a with
  | run => exact .inl ⟨.run, rfl, h⟩
  | op o =>
      cases o with
      | call o => exact .inl ⟨.op o, rfl, h⟩
      | destroy onStrand =>
          simp only [StackMachine.next] at h
          split at h
          · cases h
            exact .inr ⟨onStrand, rfl, rfl⟩
          · cases h

/-! What is kept of a retired fiber -/

/-- The fiber has an active binding of a key, with a value. -/
def ActiveBinding (rt : Runtime) (id : FiberId) (k : ServiceId) (value : Option Value) : Prop :=
  ∃ s r b, rt.contexts.bindings.find? (slot s k r) = some b ∧ b.provider = id ∧ b.state = .active ∧
    b.value = value

/-- A step that neither raises the flag of a retired fiber, nor loads or
activates the fiber, nor makes one of its bindings active. What a fiber that is
still active provides is not withdrawn yet. -/
structure KeepsRetired (c : EngineConfig) (a : Label LifeOp) (c' : EngineConfig) : Prop where
  flag : ∀ id f f', c.state.find id = some f → f.reactivate < 0 → c'.state.find id = some f' →
    f'.reactivate < 0
  loading : ∀ id f f', c.state.find id = some f → f.reactivate < 0 → c'.state.find id = some f' →
    f'.state = .loading → f.state = .loading
  active : ∀ id f f', c.state.find id = some f → f.reactivate < 0 → c'.state.find id = some f' →
    f'.state = .active → f.state = .active
  bindings : ∀ id f k value, c.state.find id = some f → f.reactivate < 0 →
    ActiveBinding c'.state id k value → ActiveBinding c.state id k value ∨
      f.state = .active ∧ ∃ v available, a = .op (.call (.provide id k v available))

/-- The step publishes no apply of a retired fiber. -/
def Heeds (c : EngineConfig) : Label LifeOp → Prop
  | .op (.call (.complete id ep)) => ∀ f, c.state.find id = some f → f.state = .loading →
      f.reactivate < 0 → c.state.publishes f ep = false
  | _ => True

/-- Only an active fiber has an active activation. -/
def FiberRecord.Apt (f : FiberRecord) : Prop :=
  ∀ act, f.activation = some act → act.state = .active → f.state = .active

theorem Rewrite.apt {pub ret : Prop} {post : Posted → Prop} {f g : FiberRecord} (h : Rewrite pub ret post f g) (apt : f.Apt) : g.Apt := by
  have raised := Runtime.raiseReactivate_activation f
  intro act ha hs
  cases h with
  | same | stopped | released | gated | revived | retired | enrolled => exact apt act ha hs
  | alike alike => exact alike.state.trans (apt act (alike.activation ▸ ha) hs)
  | started =>
      cases ha
      cases hs
  | lapsed inactive hg =>
      obtain rfl | ⟨r, rfl⟩ := hg
      · cases ha
      · exact absurd (inactive.symm.trans (apt act ha hs)) (by simp)
  | raised b _ => exact (Runtime.raiseReactivate_state f b).trans (apt act (raised b ▸ ha) hs)
  | diverted b loading => exact absurd (loading.symm.trans (apt act (raised b ▸ ha) hs)) (by simp)
  | withdrew | parked =>
      obtain ⟨act', _, rfl⟩ := Option.map_eq_some_iff.mp ha
      cases hs
  | activated => rfl
  | tracked e ha' =>
      cases ha
      exact apt _ ha' hs

/-- The flag goes up in no rewrite, and only a publication activates a retired fiber. -/
theorem Rewrite.keeps {pub ret : Prop} {post : Posted → Prop} {f g : FiberRecord} (h : Rewrite pub ret post f g) (down : f.reactivate < 0) :
    g.reactivate < 0 ∧ (g.state = .loading → f.state = .loading) ∧
      (g.state = .active → f.state = .active ∨ pub ∧ f.state = .loading) := by
  have raised (b : Bool) : Runtime.raiseReactivate f b = f := if_neg (Int.not_le.mpr down)
  cases h with
  | same | stopped | released | gated | enrolled | tracked => exact ⟨down, id, .inl⟩
  | alike alike =>
      rw [alike.reactivate, alike.state]
      exact ⟨down, id, .inl⟩
  | started _ _ _ _ kept => exact absurd down (Int.not_lt.mpr kept)
  | lapsed _ hg => obtain rfl | ⟨r, rfl⟩ := hg <;> exact ⟨down, by simp [Runtime.factoryFailed, Runtime.unresolved],
      by simp [Runtime.factoryFailed, Runtime.unresolved]⟩
  | raised b _ =>
      rw [raised b]
      exact ⟨down, id, .inl⟩
  | diverted b _ =>
      rw [raised b]
      exact ⟨down, by simp [Runtime.diverted], by simp [Runtime.diverted]⟩
  | withdrew b n _ =>
      rw [raised b]
      exact ⟨down, by simp [Runtime.withdrawing], by simp [Runtime.withdrawing]⟩
  | @parked g _ hg _ =>
      have kept : g.reactivate = f.reactivate := by
        obtain rfl | ⟨ep, rfl⟩ := hg
        · rfl
        · unfold Runtime.applyOutcome
          repeat' split
          all_goals rfl
      exact ⟨kept ▸ down, by simp [Runtime.parked], by simp [Runtime.parked]⟩
  | revived up => exact absurd down (by omega)
  | retired _ => exact ⟨Int.negSucc_lt_zero 0, id, .inl⟩
  | activated _ published loading => exact ⟨down, fun _ => loading, fun _ => .inr ⟨published, loading⟩⟩

/-! Runs -/

section
variable {c c' : EngineConfig} {a : Label LifeOp}

theorem lifetime_rewrites (h : lifetime.next c a = some c') {j : FiberId} {f' : FiberRecord}
    (hf : c'.state.find j = some f') : c.state.Mounts c'.state j f' ∨
      ∃ f, c.state.find j = some f ∧
        Rewrite (∃ ep, a = .op (.call (.complete j ep)) ∧ c.state.Publishes j ep) True (fun _ => True) f f' := by
  obtain ⟨b, rfl, hb⟩ | ⟨onStrand, rfl, hs⟩ := lifetime_cases h
  · obtain new | ⟨f, hf, rewritten⟩ := engine_rewrites hb hf
    · exact .inl new
    · refine .inr ⟨f, hf, rewritten.mono ?_ (fun _ => trivial) fun _ _ => trivial⟩
      rintro ⟨ep, rfl, published⟩
      exact ⟨ep, rfl, published⟩
  · rw [hs] at hf
    obtain ⟨f, found, rfl | rfl⟩ := Runtime.destroy_find hf
    · exact .inr ⟨f', found, .same⟩
    · exact .inr ⟨f, found, .retired trivial⟩

theorem lifetime_nextId (h : lifetime.next c a = some c') : c.state.nextId ≤ c'.state.nextId := by
  obtain ⟨b, rfl, hb⟩ | ⟨onStrand, rfl, hs⟩ := lifetime_cases h
  · exact engine_nextId hb
  · rw [hs, Runtime.destroy_nextId]

/-- What holds of every record in every run. -/
structure Lives (c : EngineConfig) : Prop where
  known : c.state.Known
  apt : ∀ j f, c.state.find j = some f → f.Apt

theorem lives_start (h : c.state.Fresh) : Lives c := by
  have none : ∀ j f, c.state.find j ≠ some f := by
    intro j f hf
    rw [Runtime.find, h.fibers] at hf
    cases hf
  exact ⟨fun j f hf => absurd hf (none j f), fun j f hf => absurd hf (none j f)⟩

theorem lives_step (inv : Lives c) (h : lifetime.next c a = some c') : Lives c' := by
  constructor
  · intro j f' hf
    obtain ⟨rfl, grown, _⟩ | ⟨f, hf, _⟩ := lifetime_rewrites h hf
    · exact grown
    · exact Nat.lt_of_lt_of_le (inv.known j f hf) (lifetime_nextId h)
  · intro j f' hf
    obtain ⟨_, _, spec, parent, rfl⟩ | ⟨f, hf, rewritten⟩ := lifetime_rewrites h hf
    · intro act ha
      cases ha
    · exact rewritten.apt (inv.apt j f hf)

theorem lives_reached {ok : EngineConfig → Label LifeOp → Prop} (h : lifetime.system.Reached ok c) : Lives c := by
  refine h.invariant ?_ fun s a s' _ inv (hn : lifetime.next s a = some s') _ => lives_step inv hn
  rintro c ⟨fresh, _⟩
  exact lives_start fresh

/-- A binding of the fiber that is active was active before, or the fiber just provided it. -/
theorem lifetime_bindings (inv : Lives c) (h : lifetime.next c a = some c') (heeds : Heeds c a)
    {id : FiberId} {f : FiberRecord} (hf : c.state.find id = some f) (down : f.reactivate < 0) :
    c'.state.contexts.Holds fun k b => b.provider = id → b.state = .active →
      ActiveBinding c.state id k b.value ∨
        f.state = .active ∧ ∃ v available, a = .op (.call (.provide id k v available)) := by
  have before : c.state.contexts.Holds fun k b => b.provider = id → b.state = .active →
      ActiveBinding c.state id k b.value ∨
        f.state = .active ∧ ∃ v available, a = .op (.call (.provide id k v available)) :=
    fun s k r b hb own active => .inl ⟨s, r, b, hb, own, active, rfl⟩
  obtain ⟨b, rfl, hb⟩ | ⟨onStrand, rfl, hs⟩ := lifetime_cases h
  · cases engine_acts hb with
    | deed _ d _ => exact d.holds before fun k b _ _ active => by cases active
    | threw _ _ t _ =>
        rw [t.contexts]
        exact before
    | feat _ t _ =>
        refine t.holds before ?_ ?_ fun k b hb => hb
        · intro j ep g ho hg loading published k b _ own mine
          cases ho
          cases own.symm.trans mine
          cases hf.symm.trans hg
          exact absurd (heeds f hf loading down) (by simp [published])
        · intro j key value available g act ho hg ha own active
          cases ho
          cases own
          cases hf.symm.trans hg
          refine .inr ⟨inv.apt _ f hf act ha ?_, value, available, rfl⟩
          by_contra inactive
          simp [inactive] at active
  · rw [hs, Runtime.destroy_contexts]
    exact before

/-- A step that publishes no retired fiber keeps what is retired, and no other step does. -/
theorem keeps_iff (inv : Lives c) (h : lifetime.next c a = some c') : KeepsRetired c a c' ↔ Heeds c a := by
  constructor
  · intro keeps
    obtain ⟨b, rfl, hb⟩ | ⟨onStrand, rfl, _⟩ := lifetime_cases h
    · cases engine_acts hb with
      | deed | threw => trivial
      | @feat o _ _ t _ =>
          cases o with
          | complete id ep =>
              intro f hf loading down
              by_contra published
              obtain ⟨consumers, active⟩ := t.activates hf loading (Bool.eq_true_of_not_eq_false published)
              exact absurd (loading.symm.trans (keeps.active id f _ hf down active rfl)) (by simp)
          | _ => trivial
    · trivial
  · intro heeds
    have before : ∀ id f f', c.state.find id = some f → c'.state.find id = some f' →
        Rewrite (∃ ep, a = .op (.call (.complete id ep)) ∧ c.state.Publishes id ep) True (fun _ => True) f f' := by
      intro id f f' hf hf'
      obtain ⟨rfl, _⟩ | ⟨g, hg, rewritten⟩ := lifetime_rewrites h hf'
      · exact absurd (inv.known _ f hf) (Nat.lt_irrefl _)
      · cases hf.symm.trans hg
        exact rewritten
    constructor
    · intro id f f' hf down hf'
      exact ((before id f f' hf hf').keeps down).1
    · intro id f f' hf down hf'
      exact ((before id f f' hf hf').keeps down).2.1
    · intro id f f' hf down hf' active
      obtain kept | ⟨⟨ep, rfl, g, hg, published⟩, loading⟩ := ((before id f f' hf hf').keeps down).2.2 active
      · exact kept
      · cases hf.symm.trans hg
        exact absurd (heeds f hf loading down) (by simp [published])
    · rintro id f k value hf down ⟨s, r, b, hb, own, active, rfl⟩
      exact lifetime_bindings inv h heeds hf down s k r b hb own active

/-- A fiber that is erased or retired is that after each step that heeds the flag. -/
theorem retired_step (inv : Lives c) (h : lifetime.next c a = some c') (heeds : Heeds c a) {id : FiberId}
    (drawn : id < c.state.nextId) (gone : ∀ f, c.state.find id = some f → f.reactivate < 0) :
    id < c'.state.nextId ∧ ∀ f', c'.state.find id = some f' → f'.reactivate < 0 := by
  refine ⟨Nat.lt_of_lt_of_le drawn (lifetime_nextId h), fun f' hf' => ?_⟩
  obtain ⟨rfl, _⟩ | ⟨f, hf, _⟩ := lifetime_rewrites h hf'
  · exact absurd drawn (Nat.lt_irrefl _)
  · exact ((keeps_iff inv h).mpr heeds).flag id f f' hf (gone f hf) hf'

end

/-- Once the flag of a fiber is down it stays down until the fiber is erased,
and each later step keeps the fiber retired exactly if it heeds the flag. -/
theorem retirement_sticky {c d : EngineConfig} (reached : lifetime.system.Reached Heeds c)
    (later : lifetime.system.Later Heeds c d) :
    (∀ id f, c.state.find id = some f → f.reactivate < 0 →
      ∀ g, d.state.find id = some g → g.reactivate < 0) ∧
    ∀ a d', lifetime.next d a = some d' → (KeepsRetired d a d' ↔ Heeds d a) := by
  refine ⟨fun id f hf down => ?_, fun a d' h => keeps_iff (lives_reached (reached.later later)) h⟩
  have drawn : id < c.state.nextId := (lives_reached reached).known id f hf
  have gone : ∀ g, c.state.find id = some g → g.reactivate < 0 := by
    intro g hg
    cases hf.symm.trans hg
    exact down
  suffices stays : id < d.state.nextId ∧ ∀ g, d.state.find id = some g → g.reactivate < 0 from stays.2
  induction later with
  | refl => exact ⟨drawn, gone⟩
  | step l h heeds ih => exact retired_step (lives_reached (reached.later l)) h heeds ih.1 ih.2

/-! Without destruction -/

/-- A retired fiber is withdrawn, or its unload is the next call. -/
def Condemned (c : EngineConfig) : Prop :=
  ∀ id f, c.state.find id = some f → f.reactivate < 0 →
    (f.state = .inactive ∨ f.state = .unloading) ∨ ∃ rest, c.stack = .beginUnload id false :: rest

theorem Rewrite.retires {pub ret : Prop} {post : Posted → Prop} {f g : FiberRecord} (h : Rewrite pub ret post f g) (down : g.reactivate < 0) :
    ret ∨ f.reactivate < 0 := by
  cases h with
  | same | stopped | released | gated | enrolled | tracked | activated => exact .inr down
  | alike alike => exact .inr (alike.reactivate ▸ down)
  | started => exact .inr down
  | lapsed _ hg => obtain rfl | ⟨r, rfl⟩ := hg <;> exact .inr down
  | raised b _ | diverted b _ | withdrew b n _ =>
      by_contra neither
      have up : 0 ≤ f.reactivate := Int.not_lt.mp fun h => neither (.inr h)
      have raised : (Runtime.raiseReactivate f b).reactivate < 0 := down
      rw [Runtime.raiseReactivate, if_pos up] at raised
      exact absurd raised (Int.not_lt.mpr (le_trans up (le_max_left _ _)))
  | @parked g _ hg _ =>
      refine .inr ?_
      have kept : g.reactivate < 0 := down
      obtain rfl | ⟨ep, rfl⟩ := hg
      · exact kept
      · unfold Runtime.applyOutcome at kept
        split at kept
        · split at kept
          · exact kept
          · split at kept <;> exact kept
        · exact kept
  | revived => exact absurd down (Int.lt_irrefl 0)
  | retired hr => exact .inl hr

theorem condemned_step {c c' : EngineConfig} {a : Label Op} (inv : Condemned c) (h : engine.next c a = some c') :
    Condemned c' := by
  intro id f' hf' down
  obtain ⟨_, _, spec, parent, rfl⟩ | ⟨f, hf, rewritten⟩ := engine_rewrites h hf'
  · exact absurd down (Int.lt_irrefl 0)
  · obtain next | was := rewritten.retires down
    · exact .inr next
    · obtain closed | ⟨rest, stack⟩ := inv id f hf was
      · refine .inl ?_
        have kept := rewritten.keeps was
        cases hs : f'.state with
        | inactive => exact .inl rfl
        | unloading => exact .inr rfl
        | loading => simp [kept.2.1 hs] at closed
        | active =>
            obtain active | ⟨_, loading⟩ := kept.2.2 hs
            · simp [active] at closed
            · simp [loading] at closed
      · cases engine_acts h with
        | deed hst d _ =>
            cases stack.symm.trans hst
            exact .inl (d.closes hf')
        | threw hst _ t _ =>
            cases stack.symm.trans hst
            cases t
        | feat hst t hst' =>
            obtain none | nested := hst
            · cases stack.symm.trans none
            · rw [t.calls nested, List.nil_append, stack] at hst'
              exact .inr ⟨rest, hst'⟩

/-- In a run without destruction every step keeps what is retired. -/
theorem engine_keepsRetired {ok : EngineConfig → Label Op → Prop} {c c' : EngineConfig} {a : Label Op}
    (reached : engine.system.Reached ok c) (h : engine.next c a = some c') : KeepsRetired c a.life c' := by
  have inv : Lives c ∧ Condemned c := by
    clear h
    induction reached with
    | start hs =>
        refine ⟨lives_start hs.1, fun id f hf _ => ?_⟩
        rw [Runtime.find, hs.1.fibers] at hf
        cases hf
    | @step s s' b _ hn _ ih =>
        exact ⟨lives_step ih.1 ((lifetime_life s b).trans hn), condemned_step ih.2 hn⟩
  refine (keeps_iff inv.1 ((lifetime_life c a).trans h)).mpr ?_
  cases a with
  | run => trivial
  | op o =>
      cases o with
      | complete id ep =>
          intro f hf loading down
          obtain closed | ⟨rest, stack⟩ := inv.2 id f hf down
          · simp [loading] at closed
          · simp [StackMachine.next, engine, Op.nested, stack] at h
      | _ => trivial

/-! Two ends -/

def heeds? (c : EngineConfig) : Label LifeOp → Bool
  | .op (.call (.complete id ep)) => (c.state.find id).all fun f =>
    f.state != .loading || !decide (f.reactivate < 0) || !c.state.publishes f ep
  | _ => true

theorem heeds_of_check (c : EngineConfig) (a : Label LifeOp) (h : heeds? c a = true) : Heeds c a := by
  cases a with
  | run => trivial
  | op o =>
      cases o with
      | destroy _ => trivial
      | call o =>
          cases o with
          | complete id ep =>
              intro f hf loading down
              simpa [heeds?, hf, loading, down] using h
          | _ => trivial

/-- A component that is mounted and, where asked for, active when the runtime is destroyed. -/
def upToDestruction (completed : List (Label LifeOp)) : List (Label LifeOp) :=
  [.op (.call (.mount { descriptor := { name := "p", provide := [⟨"a", 1⟩] } })), .run,
    .op (.call (.provide 1 ⟨"a", 1⟩ 10 true))] ++ completed ++ [.op (.destroy false)]

def oneFiber (c : EngineConfig) (state : FiberState) : Bool :=
  (c.state.find 1).any fun f => f.state == state && decide (f.reactivate < 0)

/-- The fiber is active when it is stamped, and inactive when the posted unloads ran. -/
theorem retirement_sticky_unloaded : ∃ c d, oneFiber c .active = true ∧ oneFiber d .inactive = true ∧
    (∀ id f, c.state.find id = some f → f.reactivate < 0 →
      ∀ g, d.state.find id = some g → g.reactivate < 0) ∧
    ∀ a d', lifetime.next d a = some d' → (KeepsRetired d a d' ↔ Heeds d a) := by
  have played : (System.follow lifetime.next heeds? ⟨{}, []⟩
      (upToDestruction [.op (.call (.complete 1 none)), .run, .run, .run, .run])).any (fun c =>
        oneFiber c .active && (System.follow lifetime.next heeds? c
          (.op (.call (.deliver 0)) :: List.replicate 5 .run)).any (oneFiber · .inactive)) = true := by
    decide +kernel
  obtain ⟨c, hc, both⟩ := (Option.any_eq_true _ _).mp played
  obtain ⟨active, unloaded⟩ := Bool.and_eq_true_iff.mp both
  obtain ⟨d, hd, inactive⟩ := (Option.any_eq_true _ _).mp unloaded
  have fresh : lifetime.system.start ⟨{}, []⟩ := ⟨⟨rfl, rfl, rfl, rfl, rfl, rfl, rfl, rfl⟩, rfl⟩
  have reached := System.follow_reached (fun _ _ _ h => h) heeds_of_check hc (.start fresh)
  have later := System.follow_later (S := lifetime.system) (fun _ _ _ h => h) heeds_of_check hd
  exact ⟨c, d, active, inactive, retirement_sticky reached later⟩

/-- An apply that completes between the stamp and the posted unloads is
published, and the retired fiber is active. -/
theorem retirement_undone : ¬ ∀ c, lifetime.system.Reached (fun _ _ => True) c →
    ∀ a c', lifetime.next c a = some c' → KeepsRetired c a c' := by
  intro sticky
  have played : (System.follow lifetime.next (fun _ _ => true) ⟨{}, []⟩ (upToDestruction [])).any (fun c =>
      oneFiber c .loading && (lifetime.next c (.op (.call (.complete 1 none)))).any (oneFiber · .active)) =
        true := by decide +kernel
  obtain ⟨c, hc, both⟩ := (Option.any_eq_true _ _).mp played
  obtain ⟨loading, published⟩ := Bool.and_eq_true_iff.mp both
  obtain ⟨c', hc', active⟩ := (Option.any_eq_true _ _).mp published
  obtain ⟨f, hf, loading⟩ := (Option.any_eq_true _ _).mp loading
  obtain ⟨f', hf', active⟩ := (Option.any_eq_true _ _).mp active
  simp only [Bool.and_eq_true, beq_iff_eq, decide_eq_true_eq] at loading active
  have fresh : lifetime.system.start ⟨{}, []⟩ := ⟨⟨rfl, rfl, rfl, rfl, rfl, rfl, rfl, rfl⟩, rfl⟩
  have reached := System.follow_reached (P := fun _ _ => True) (fun _ _ _ h => h) (fun _ _ _ => trivial) hc
    (.start fresh)
  have kept := (sticky c reached _ c' hc').active 1 f f' hf loading.2 hf' active.1
  exact absurd (loading.1.symm.trans kept) (by simp)

end Araya

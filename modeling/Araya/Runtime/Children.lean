import Araya.Runtime.Sticky

/-!
Children. A fiber that is mounted through an activation of its parent is retired
when that activation is torn down, provided the mount resumed while it was live.
The machine of households adds to the engine a record of which fiber was mounted
through which activation.
-/

namespace Araya

/-! Households -/

/-- A fiber and the activation it was mounted through. -/
structure Kin where
  child : FiberId
  parent : FiberId
  serial : Nat

structure Household where
  config : EngineConfig
  kin : List Kin := []

/-- The children that a step mounts. -/
def births (rt : Runtime) : Label Op → List Kin
  | .op (.deliver n) =>
    match rt.posted[n]? with
    | some (.mountChild parent serial _) => [⟨rt.nextId, parent, serial⟩]
    | _ => []
  | _ => []

def Household.next (h : Household) (a : Label Op) : Option Household :=
  (engine.next h.config a).map fun c => ⟨c, h.kin ++ births h.config.state a⟩

def household : System Household (Label Op) where
  start h := engine.system.start h.config ∧ h.kin = []
  step h a h' := h.next a = some h'

/-- No call, handler or transition is in flight. -/
def AtRest (c : EngineConfig) : Prop := c.stack = [] ∧ c.state.posted = [] ∧ c.state.inFlight = 0

namespace Runtime

/-- The activation of the fiber is this one, and it is not torn down. -/
def Live (rt : Runtime) (id : FiberId) (serial : Nat) : Prop :=
  ∃ f act, rt.find id = some f ∧ f.activation = some act ∧ act.serial = serial ∧ act.state ≠ .inactive

/-- The fiber is erased, or it is retired and does not run. -/
def Retired (rt : Runtime) (id : FiberId) : Prop :=
  ∀ f, rt.find id = some f → f.reactivate < 0 ∧ (f.state = .inactive ∨ f.state = .unloading)

end Runtime

/-- Every child is retired, or the activation it was mounted through is live. -/
def NoOrphans (h : Household) : Prop :=
  AtRest h.config → ∀ k ∈ h.kin, h.config.state.Retired k.child ∨ h.config.state.Live k.parent k.serial

/-- A mount resumes while its activation is live, or the child is retired by
then; a throw abandons no mount; and no fiber is erased whose activation still
has a child to retire. -/
def Tended (c : EngineConfig) : Label Op → Prop
  | .run => ∀ fr rest, c.stack = fr :: rest →
      (∀ j f act child, j ∈ fr.erases → c.state.find j = some f → f.activation = some act →
        act.state ≠ .inactive → .retireChild child ∉ act.effects) ∧
      ∀ rt', c.state.exec fr = .throw rt' → ∀ parent serial child, .childMounted parent serial child ∉ rest
  | .op (.deliver n) => ∀ parent serial child,
      c.state.posted[n]? = some (.addChildEffect parent serial child) →
      c.state.Live parent serial ∨ ∀ f, c.state.find child = some f → f.reactivate < 0
  | .op _ => True

/-! Activations at rest -/

/-- An inactive fiber has no activation that is not torn down. -/
def FiberRecord.Rested (f : FiberRecord) : Prop :=
  f.state = .inactive → ∀ act, f.activation = some act → act.state = .inactive

section
variable {pub ret : Prop} {post : Posted → Prop} {f g : FiberRecord}

theorem Rewrite.rested (h : Rewrite pub ret post f g) (rested : f.Rested) : g.Rested := by
  have raised := Runtime.raiseReactivate_activation f
  intro hs act ha
  cases h with
  | same | stopped | released | gated | revived | retired | enrolled => exact rested hs act ha
  | alike alike => exact rested (alike.state.symm.trans hs) act (alike.activation ▸ ha)
  | started | diverted | withdrew | activated => cases hs
  | lapsed inactive hg =>
      obtain rfl | ⟨r, rfl⟩ := hg
      · cases ha
      · exact rested inactive act ha
  | raised b _ => exact rested ((Runtime.raiseReactivate_state f b).symm.trans hs) act (raised b ▸ ha)
  | parked =>
      obtain ⟨act', _, rfl⟩ := Option.map_eq_some_iff.mp ha
      rfl
  | tracked e ha' =>
      cases ha
      have kept := rested hs _ ha'
      exact kept

/-- A live activation keeps its effects until its teardown posts them. -/
theorem Rewrite.owes {act : Activation} {child : FiberId} (h : Rewrite pub ret post f g) (rested : f.Rested)
    (ha : f.activation = some act) (live : act.state ≠ .inactive) (hc : .retireChild child ∈ act.effects) :
    post (.retireChild child) ∨ ∃ act', g.activation = some act' ∧ act'.serial = act.serial ∧
      act'.state ≠ .inactive ∧ .retireChild child ∈ act'.effects := by
  have running : f.state ≠ .inactive := fun hs => live (rested hs act ha)
  have raised := Runtime.raiseReactivate_activation f
  cases h with
  | same | stopped | released | gated | revived | retired | enrolled => exact .inr ⟨act, ha, rfl, live, hc⟩
  | alike alike => exact .inr ⟨act, alike.activation.trans ha, rfl, live, hc⟩
  | started _ _ _ inactive | lapsed inactive => exact absurd inactive running
  | raised b _ | diverted b _ => exact .inr ⟨act, (raised b).trans ha, rfl, live, hc⟩
  | withdrew b n _ =>
      refine .inr ⟨act.withState .unloading, ?_, rfl, by simp [Activation.withState], hc⟩
      exact congrArg (Option.map (·.withState .unloading)) ((raised b).trans ha)
  | parked _ _ posts => exact .inl (posts act child ha hc)
  | activated consumers _ _ =>
      refine .inr ⟨act.withState .active, ?_, rfl, by simp [Activation.withState], hc⟩
      exact congrArg (Option.map (·.withState .active)) ha
  | tracked e ha' =>
      cases ha'.symm.trans ha
      exact .inr ⟨_, rfl, rfl, live, List.mem_append_left _ hc⟩

end

/-- A mount that returns posts the retirement of its child as an effect. -/
theorem Runtime.Deed.resumes {rt rt' : Runtime} {fs : List Frame} {parent child : FiberId} {serial : Nat}
    (d : rt.Deed (.childMounted parent serial child) rt' fs) :
    rt'.posted = rt.posted ++ [.addChildEffect parent serial child] := by
  cases d with
  | errand _ _ other _ _ => exact absurd rfl (other _ _ _)
  | absent _ frame => obtain ⟨_, other⟩ | other | other | other := frame <;> cases other
  | childMounted => rfl

theorem Runtime.Delivery.retires {rt rt' : Runtime} {fs : List Frame} {id : FiberId}
    (d : rt.Delivery (.retireChild id) rt' fs) : ∀ f, rt'.find id = some f → f.reactivate < 0 := by
  intro f hf
  cases d with
  | gone none => exact absurd (none.symm.trans hf) (by simp)
  | @retired _ g hg =>
      cases (find_set_self ..).symm.trans hf
      exact Int.negSucc_lt_zero 0

theorem Runtime.Delivery.tracks {rt rt' : Runtime} {fs : List Frame} {parent child : FiberId} {serial : Nat}
    (d : rt.Delivery (.addChildEffect parent serial child) rt' fs) (live : rt.Live parent serial) :
    ∃ f act, rt'.find parent = some f ∧ f.activation = some act ∧ act.serial = serial ∧
      act.state ≠ .inactive ∧ .retireChild child ∈ act.effects := by
  obtain ⟨f, act, hf, ha, hs, running⟩ := live
  cases d with
  | untracked other => exact absurd hs (other f act hf ha)
  | @tracked _ _ g act' hg ha' =>
      cases hf.symm.trans hg
      cases ha.symm.trans ha'
      exact ⟨_, _, find_set_self .., rfl, rfl, running, List.mem_append_right _ (List.mem_singleton.mpr rfl)⟩

/-! What is owed to a child -/

/-- Why a child is retired, or will be when its activation is torn down. -/
inductive Owed (c : EngineConfig) (k : Kin) : Prop
  | retired : (∀ f, c.state.find k.child = some f → f.reactivate < 0) → Owed c k
  | retiring : .retireChild k.child ∈ c.state.posted → Owed c k
  | resuming : .addChildEffect k.parent k.serial k.child ∈ c.state.posted → Owed c k
  | mounting : .childMounted k.parent k.serial k.child ∈ c.stack → Owed c k
  | tracked {f : FiberRecord} {act : Activation} : c.state.find k.parent = some f → f.activation = some act →
      act.serial = k.serial → act.state ≠ .inactive → .retireChild k.child ∈ act.effects → Owed c k

/-- The invariant of the runs of households. -/
structure Kindred (h : Household) : Prop where
  known : h.config.state.Known
  rested : ∀ j f, h.config.state.find j = some f → f.Rested
  condemned : Condemned h.config
  drawn : ∀ k ∈ h.kin, k.child < h.config.state.nextId
  owed : ∀ k ∈ h.kin, Owed h.config k

section
variable {c c' : EngineConfig} {a : Label Op}

/-- A child that is erased or retired stays so. -/
theorem flag_step (h : engine.next c a = some c') {id : FiberId} (drawn : id < c.state.nextId)
    (down : ∀ f, c.state.find id = some f → f.reactivate < 0) :
    ∀ f, c'.state.find id = some f → f.reactivate < 0 := by
  intro f' hf'
  obtain ⟨rfl, _⟩ | ⟨f, hf, rewritten⟩ := engine_rewrites h hf'
  · exact absurd drawn (Nat.lt_irrefl _)
  · exact (rewritten.keeps (down f hf)).1

theorem rested_step (rested : ∀ j f, c.state.find j = some f → f.Rested) (h : engine.next c a = some c') :
    ∀ j f, c'.state.find j = some f → f.Rested := by
  intro j f' hf'
  obtain ⟨_, _, spec, parent, rfl⟩ | ⟨f, hf, rewritten⟩ := engine_rewrites h hf'
  · intro _ act ha
    cases ha
  · exact rewritten.rested (rested j f hf)

/-- A handler that a step delivers ran. -/
theorem engine_delivery {n : Nat} {p : Posted} (h : engine.next c (.op (.deliver n)) = some c')
    (hp : c.state.posted[n]? = some p) :
    ∃ fs, Runtime.Delivery { c.state with posted := c.state.posted.eraseIdx n } p c'.state fs ∧
      c'.stack = fs ++ c.stack := by
  cases engine_acts h with
  | feat _ t hst' =>
      cases t with
      | delivered hq d =>
          cases hp.symm.trans hq
          exact ⟨_, d, hst'⟩

theorem owed_step {k : Kin} (known : c.state.Known) (rested : ∀ j f, c.state.find j = some f → f.Rested)
    (drawn : k.child < c.state.nextId) (owed : Owed c k) (h : engine.next c a = some c') (ok : Tended c a) :
    Owed c' k := by
  cases owed with
  | retired down => exact .retired (flag_step h drawn down)
  | retiring posted =>
      obtain kept | ⟨n, rfl, hp⟩ := engine_posted h posted
      · exact .retiring kept
      · obtain ⟨fs, d, _⟩ := engine_delivery h hp
        exact .retired d.retires
  | resuming posted =>
      obtain kept | ⟨n, rfl, hp⟩ := engine_posted h posted
      · exact .resuming kept
      · obtain live | down := ok k.parent k.serial k.child hp
        · obtain ⟨fs, d, _⟩ := engine_delivery h hp
          obtain ⟨f, act, hf, ha, hs, running, hc⟩ := d.tracks live
          exact .tracked hf ha hs running hc
        · exact .retired (flag_step h drawn down)
  | mounting called =>
      cases engine_acts h with
      | deed hst d hst' =>
          rw [hst] at called
          obtain rfl | below := List.mem_cons.mp called
          · exact .resuming (d.resumes ▸ List.mem_append_right _ (List.mem_singleton.mpr rfl))
          · exact .mounting (hst' ▸ List.mem_append_right _ below)
      | threw hst hx t _ =>
          rw [hst] at called
          obtain rfl | below := List.mem_cons.mp called
          · cases t
          · exact absurd below ((ok _ _ hst).2 _ hx _ _ _)
      | feat _ _ hst' => exact .mounting (hst' ▸ List.mem_append_right _ called)
  | @tracked f act hf ha hs running hc =>
      cases hf' : c'.state.find k.parent with
      | none =>
          obtain inactive | ⟨rfl, fr, rest, hst, erases⟩ := engine_erases h hf hf'
          · exact absurd (rested _ f hf inactive act ha) running
          · exact absurd hc ((ok fr rest hst).1 _ f act _ erases hf ha running)
      | some f' =>
          obtain ⟨fresh, _⟩ | ⟨g, hg, rewritten⟩ := engine_rewrites h hf'
          · exact absurd (known _ f hf) (by rw [fresh]; exact Nat.lt_irrefl _)
          · cases hf.symm.trans hg
            obtain posted | ⟨act', ha', serial, running', hc'⟩ := rewritten.owes (rested _ f hf) ha running hc
            · exact .retiring posted
            · exact .tracked hf' ha' (serial.trans hs) running' hc'

/-- A child is born with its mount still to resume. -/
theorem owed_birth {k : Kin} (h : engine.next c a = some c') (born : k ∈ births c.state a) :
    k.child < c'.state.nextId ∧ Owed c' k := by
  unfold births at born
  split at born
  · next n =>
      split at born
      · next parent serial spec hp =>
          cases List.mem_singleton.mp born
          obtain ⟨fs, d, hst'⟩ := engine_delivery h hp
          generalize c'.state = rt' at d ⊢
          cases d with
          | child =>
              refine ⟨Nat.lt_succ_self _, .mounting ?_⟩
              rw [hst']
              exact List.mem_append_left _ (List.mem_cons_of_mem _ (List.mem_singleton.mpr rfl))
      · cases born
  · cases born

end

theorem kindred_start {h : Household} (start : household.start h) : Kindred h := by
  obtain ⟨⟨fresh, _⟩, kin⟩ := start
  have none : ∀ j f, h.config.state.find j ≠ some f := by
    intro j f hf
    rw [Runtime.find, fresh.fibers] at hf
    cases hf
  refine ⟨fun j f hf => absurd hf (none j f), fun j f hf => absurd hf (none j f),
    fun j f hf => absurd hf (none j f), ?_, ?_⟩ <;> simp [kin]

theorem kindred_step {h h' : Household} {a : Label Op} (inv : Kindred h) (step : h.next a = some h')
    (ok : Tended h.config a) : Kindred h' := by
  obtain ⟨c', hn, rfl⟩ := Option.map_eq_some_iff.mp step
  refine ⟨engine_known hn inv.known, rested_step inv.rested hn, condemned_step inv.condemned hn, ?_, ?_⟩
  · intro k hk
    obtain old | born := List.mem_append.mp hk
    · exact Nat.lt_of_lt_of_le (inv.drawn k old) (engine_nextId hn)
    · exact (owed_birth hn born).1
  · intro k hk
    obtain old | born := List.mem_append.mp hk
    · exact owed_step inv.known inv.rested (inv.drawn k old) (inv.owed k old) hn ok
    · exact (owed_birth hn born).2

/-- In a run whose steps all tend to the children there is no orphan. -/
theorem no_orphans {h : Household} (reached : household.Reached (fun h a => Tended h.config a) h) : NoOrphans h := by
  have inv : Kindred h := reached.invariant (fun _ start => kindred_start start)
    fun _ _ _ _ inv step ok => kindred_step inv step ok
  rintro ⟨stack, posted, _⟩ k hk
  cases inv.owed k hk with
  | retired down =>
      refine .inl fun f hf => ⟨down f hf, ?_⟩
      obtain withdrawn | ⟨rest, next⟩ := inv.condemned k.child f hf (down f hf)
      · exact withdrawn
      · exact absurd (stack.symm.trans next) (by simp)
  | retiring handler | resuming handler => exact absurd (posted ▸ handler) List.not_mem_nil
  | mounting call => exact absurd (stack ▸ call) List.not_mem_nil
  | tracked hf ha hs running _ => exact .inr ⟨_, _, hf, ha, hs, running⟩

/-! Two families -/

def Runtime.live? (rt : Runtime) (id : FiberId) (serial : Nat) : Bool :=
  (rt.find id).any fun f => f.activation.any fun act => act.serial == serial && act.state != .inactive

def Effect.isChild : Effect → Bool
  | .retireChild _ => true
  | .unbind _ => false

def Frame.isMount : Frame → Bool
  | .childMounted .. => true
  | _ => false

def tended? (c : EngineConfig) : Label Op → Bool
  | .run =>
    match c.stack with
    | [] => true
    | fr :: rest =>
      (fr.erases.all fun j => (c.state.find j).all fun f => f.activation.all fun act =>
        act.state == .inactive || !act.effects.any Effect.isChild) &&
      match c.state.exec fr with
      | .throw _ => !rest.any Frame.isMount
      | .call .. => true
  | .op (.deliver n) =>
    match c.state.posted[n]? with
    | some (.addChildEffect parent serial child) =>
      c.state.live? parent serial || (c.state.find child).all fun f => decide (f.reactivate < 0)
    | _ => true
  | .op _ => true

theorem live_of_check {rt : Runtime} {id : FiberId} {serial : Nat} (h : rt.live? id serial = true) :
    rt.Live id serial := by
  obtain ⟨f, hf, h⟩ := (Option.any_eq_true _ _).mp h
  obtain ⟨act, ha, h⟩ := (Option.any_eq_true _ _).mp h
  simp only [Bool.and_eq_true, beq_iff_eq, bne_iff_ne] at h
  exact ⟨f, act, hf, ha, h.1, h.2⟩

theorem tended_of_check (c : EngineConfig) (a : Label Op) (h : tended? c a = true) : Tended c a := by
  cases a with
  | run =>
      intro fr rest hst
      simp only [tended?, hst, Bool.and_eq_true] at h
      obtain ⟨erases, throws⟩ := h
      constructor
      · intro j f act child hj hf ha live hc
        have clean := List.all_eq_true.mp erases j hj
        simp only [hf, Option.all_some, ha, Bool.or_eq_true, beq_iff_eq, live, false_or, Bool.not_eq_true',
          List.any_eq_false] at clean
        exact clean _ hc rfl
      · intro rt' hx parent serial child below
        simp only [hx, Bool.not_eq_true', List.any_eq_false] at throws
        exact throws _ below rfl
  | op o =>
      cases o with
      | deliver n =>
          intro parent serial child hp
          simp only [tended?, hp, Bool.or_eq_true] at h
          obtain live | down := h
          · exact .inl (live_of_check live)
          · refine .inr fun f hf => ?_
            simpa [hf] using down
      | _ => trivial

/-- A parent mounts a child; `early` runs before the mount is delivered. -/
def oneChild (early : List (Label Op)) : List (Label Op) :=
  [.op (.mount { descriptor := { name := "p" } }), .run, .op (.complete 1 none), .run, .run,
    .op (.mountChild 1 { descriptor := { name := "p" } })] ++ early ++
  [.op (.deliver 0), .run, .run, .op (.deliver 0), .op (.complete 3 none), .run, .run]

def retireParent : List (Label Op) := .op (.retire 1) :: List.replicate 10 .run

/-- At rest, with one child born and so many fibers mounted. -/
def oneBorn (fibers : Nat) (h : Household) : Bool :=
  h.config.stack.isEmpty && h.config.state.posted.isEmpty && h.config.state.inFlight == 0 &&
    h.kin.length == 1 && h.config.state.fibers.size == fibers

theorem household_start : household.start ⟨⟨{}, []⟩, []⟩ := ⟨⟨⟨rfl, rfl, rfl, rfl, rfl, rfl, rfl, rfl⟩, rfl⟩, rfl⟩

/-- The child runs beside its parent, and is gone after the parent retired. -/
theorem no_orphans_retire : ∃ h g, oneBorn 2 h = true ∧ oneBorn 0 g = true ∧ NoOrphans h ∧ NoOrphans g := by
  have played : (System.follow Household.next (fun h a => tended? h.config a) ⟨⟨{}, []⟩, []⟩ (oneChild [])).any
      (fun h => oneBorn 2 h && (System.follow Household.next (fun h a => tended? h.config a) h
        (retireParent ++ .op (.deliver 0) :: List.replicate 9 .run)).any (oneBorn 0)) = true := by decide +kernel
  obtain ⟨h, hh, both⟩ := (Option.any_eq_true _ _).mp played
  obtain ⟨running, retired⟩ := Bool.and_eq_true_iff.mp both
  obtain ⟨g, hg, gone⟩ := (Option.any_eq_true _ _).mp retired
  have sound (h : Household) (a : Label Op) := tended_of_check h.config a
  have reached := System.follow_reached (S := household) (fun _ _ _ h => h) sound hh (.start household_start)
  have later := System.follow_reached (S := household) (fun _ _ _ h => h) sound hg reached
  exact ⟨h, g, running, gone, no_orphans reached, no_orphans later⟩

/-- A mount that resumes after its parent was retired leaves the child running. -/
theorem child_orphaned : ¬ ∀ h, household.Reached (fun _ _ => True) h → NoOrphans h := by
  intro none
  have played : (System.follow Household.next (fun _ _ => true) ⟨⟨{}, []⟩, []⟩ (oneChild retireParent)).any (fun h =>
      oneBorn 1 h && h.kin.all (fun k => (h.config.state.find k.child).any (·.state == .active) &&
        (h.config.state.find k.parent).isNone)) = true := by decide +kernel
  obtain ⟨h, hh, both⟩ := (Option.any_eq_true _ _).mp played
  obtain ⟨born, orphans⟩ := Bool.and_eq_true_iff.mp both
  simp only [oneBorn, Bool.and_eq_true, List.isEmpty_iff, beq_iff_eq] at born
  obtain ⟨⟨⟨⟨stack, posted⟩, inFlight⟩, kin⟩, _⟩ := born
  obtain ⟨k, hk⟩ := List.length_eq_one_iff.mp kin
  have member : k ∈ h.kin := hk ▸ List.mem_singleton.mpr rfl
  obtain ⟨active, parentless⟩ := Bool.and_eq_true_iff.mp (List.all_eq_true.mp orphans k member)
  obtain ⟨f, hf, active⟩ := (Option.any_eq_true _ _).mp active
  have reached := System.follow_reached (S := household) (P := fun _ _ => True) (fun _ _ _ h => h)
    (fun _ _ _ => trivial) hh (.start household_start)
  obtain retired | ⟨p, act, hp, _⟩ := none h reached ⟨stack, posted, inFlight⟩ k member
  · rw [beq_iff_eq] at active
    simpa [active] using (retired f hf).2
  · simp [hp] at parentless

end Araya
